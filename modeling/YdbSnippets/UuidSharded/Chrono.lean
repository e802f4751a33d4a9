import YdbSnippets.UuidSharded.Layout

/-!
# Chronological UUID keys

`make_chrono_uuid_bytes` of `sharded_keygen.py`: a key begins with its time in
milliseconds, and a prefix replaces the highest bits of that time.
-/

namespace YdbSnippets
namespace UuidSharded

section Definitions

/-- The first six bytes of a chronological key. -/
def setTimestampBytes (timestampMs : Int) (result : KeyBytes) : KeyBytes :=
  let result := result.setIfInBounds 0 (BitVec.ofInt 8 (timestampMs >>> (40 : Nat)))
  let result := result.setIfInBounds 1 (BitVec.ofInt 8 (timestampMs >>> (32 : Nat)))
  let result := result.setIfInBounds 2 (BitVec.ofInt 8 (timestampMs >>> (24 : Nat)))
  let result := result.setIfInBounds 3 (BitVec.ofInt 8 (timestampMs >>> (16 : Nat)))
  let result := result.setIfInBounds 4 (BitVec.ofInt 8 (timestampMs >>> (8 : Nat)))
  result.setIfInBounds 5 (BitVec.ofInt 8 timestampMs)

/-- `update_msb_chrono` -/
def updateMsbChrono (result : KeyBytes) (pre : Int) : KeyBytes :=
  let msb := readBe64 result
  let msb := (msb &&& ~~~prefixMsbMask) ||| prefixParamToMsb pre
  writeBe64 msb result

/-- `make_chrono_uuid_bytes`, from the bytes of `fill_random_bytes`. -/
def makeChronoUuidBytes (pre timestampMs : Int) (hasPrefix : Bool) (random : KeyBytes) :
    KeyBytes :=
  let result := setTimestampBytes timestampMs random
  let result := setUuidVersionAndVariant result
  if hasPrefix then updateMsbChrono result pre else result

end Definitions

section Words

/-- The bytes of the time and what follows them. -/
theorem getElem_setTimestampBytes
    (timestampMs : Int) (result : KeyBytes) {k : Nat} (hk : k < 16) :
    (setTimestampBytes timestampMs result)[k] =
      if k < 6 then BitVec.ofInt 8 (timestampMs >>> (40 - 8 * k)) else result[k] := by
  unfold setTimestampBytes
  simp only [Vector.getElem_setIfInBounds]
  by_cases h6 : k < 6
  · rw [if_pos h6]
    interval_cases k <;> simp
  · rw [if_neg h6, if_neg (by omega), if_neg (by omega), if_neg (by omega), if_neg (by omega),
      if_neg (by omega), if_neg (by omega)]

/-- A byte of the time, which the version and the variant leave alone. -/
theorem toNat_timestampBytes
    (timestampMs : Int) (random : KeyBytes) {k : Nat} (hk : k < 6) :
    ((setUuidVersionAndVariant (setTimestampBytes timestampMs random))[k].toNat : Int) =
      timestampMs / 2 ^ (40 - 8 * k) % 256 := by
  have hbyte : (setUuidVersionAndVariant (setTimestampBytes timestampMs random))[k] =
      BitVec.ofInt 8 (timestampMs >>> (40 - 8 * k)) := by
    refine BitVec.eq_of_getLsbD_eq fun j hj => ?_
    rw [getLsbD_setUuidVersionAndVariant _ (by omega) hj, if_neg (by omega),
      getElem_setTimestampBytes _ _ (by omega), if_pos hk]
  rw [hbyte, BitVec.toNat_ofInt, Int.shiftRight_eq_div_pow,
    Int.toNat_of_nonneg (Int.emod_nonneg _ (by decide)), Nat.cast_pow, Nat.cast_pow,
    Nat.cast_ofNat]
  rfl

/-- The word of a key without a prefix begins with the time. -/
theorem toNat_readBe64_chrono
    (timestampMs : Int) (random : KeyBytes) :
    ∃ rest : Nat, rest < 2 ^ 16 ∧
      ((readBe64 (setUuidVersionAndVariant (setTimestampBytes timestampMs random))).toNat : Int) =
        timestampMs % 2 ^ 48 * 2 ^ 16 + rest := by
  have hbyte := fun k (hk : k < 6) => toNat_timestampBytes timestampMs random hk
  have h0 := hbyte 0 (by omega)
  have h1 := hbyte 1 (by omega)
  have h2 := hbyte 2 (by omega)
  have h3 := hbyte 3 (by omega)
  have h4 := hbyte 4 (by omega)
  have h5 := hbyte 5 (by omega)
  generalize setUuidVersionAndVariant (setTimestampBytes timestampMs random) = data at *
  have h6 : data[6].toNat < 256 := data[6].isLt
  have h7 : data[7].toNat < 256 := data[7].isLt
  refine ⟨data[6].toNat * 2 ^ 8 + data[7].toNat, by omega, ?_⟩
  rw [toNat_readBe64]
  omega

/-- The word with a prefix in place of its highest bits. -/
theorem toNat_readBe64_updateMsbChrono
    (result : KeyBytes) (pre : Int) :
    ((readBe64 (updateMsbChrono result pre)).toNat : Int) =
      pre % 1024 * 2 ^ 54 + (readBe64 result).toNat % 2 ^ 54 := by
  have hword : readBe64 (updateMsbChrono result pre) =
      BitVec.ofInt 10 pre ++ (readBe64 result).setWidth 54 := by
    unfold updateMsbChrono
    dsimp only
    rw [readBe64_writeBe64]
    refine BitVec.eq_of_getLsbD_eq fun i hi => ?_
    rw [BitVec.getLsbD_or, BitVec.getLsbD_and, BitVec.getLsbD_not, getLsbD_prefixMsbMask hi,
      getLsbD_prefixParamToMsb pre hi, BitVec.getLsbD_append, BitVec.getLsbD_setWidth,
      ← setWidth_ofInt, BitVec.getLsbD_setWidth]
    by_cases h54 : 54 ≤ i
    · simp [h54, show ¬ i < 54 by omega, show i - 54 < 10 by omega]
    · simp [h54, hi, show i < 54 by omega]
  have hlow : ((readBe64 result).setWidth 54).toNat < 2 ^ 54 := BitVec.isLt _
  rw [hword, BitVec.toNat_append, ← Nat.shiftLeft_add_eq_or_of_lt hlow, Nat.shiftLeft_eq,
    BitVec.toNat_ofInt, BitVec.toNat_setWidth]
  omega

/-- The bytes after the word are kept. -/
theorem getElem_updateMsbChrono
    (result : KeyBytes) (pre : Int) {k : Nat} (hk : 8 ≤ k) (hlen : k < 16) :
    (updateMsbChrono result pre)[k] = result[k] :=
  getElem_writeBe64 _ _ hk hlen

/-- The low bits of the word are kept. -/
theorem getLsbD_updateMsbChrono
    (result : KeyBytes) (pre : Int) {k j : Nat} (hk : k < 16) (hj : j < 8) (hlow : 2 ≤ k) :
    (updateMsbChrono result pre)[k].getLsbD j = result[k].getLsbD j := by
  by_cases h8 : k < 8
  · unfold updateMsbChrono
    dsimp only
    rw [getLsbD_writeBe64 _ _ h8 hj, BitVec.getLsbD_or, BitVec.getLsbD_and, BitVec.getLsbD_not,
      getLsbD_prefixMsbMask (by omega), getLsbD_prefixParamToMsb pre (by omega),
      getLsbD_readBe64 _ h8 hj]
    have hbelow : ¬ 54 ≤ 8 * (7 - k) + j := by omega
    simp [hbelow, show 8 * (7 - k) + j < 64 by omega]
  · rw [getElem_updateMsbChrono _ _ (Nat.not_lt.mp h8)]

end Words

section Layout

variable (pre timestampMs : Int) (hasPrefix : Bool) (random : KeyBytes)

/-- From byte 6 on a key is random but for the version and the variant. -/
theorem getLsbD_makeChronoUuidBytes
    {k j : Nat} (hk : k < 16) (hj : j < 8) (htail : 6 ≤ k) :
    (makeChronoUuidBytes pre timestampMs hasPrefix random)[k].getLsbD j =
      if k = 7 ∧ 4 ≤ j ∨ k = 8 ∧ 6 ≤ j then decide (j = 7) else random[k].getLsbD j := by
  have htime : (setTimestampBytes timestampMs random)[k] = random[k] := by
    rw [getElem_setTimestampBytes _ _ hk, if_neg (by omega)]
  have hset := getLsbD_setUuidVersionAndVariant (setTimestampBytes timestampMs random) hk hj
  rw [htime] at hset
  unfold makeChronoUuidBytes
  cases hasPrefix with
  | true =>
      dsimp only
      rw [if_pos rfl, getLsbD_updateMsbChrono _ _ hk hj (by omega), hset]
  | false =>
      dsimp only
      rw [if_neg Bool.false_ne_true, hset]

/-- The word of a key: a prefix in front of 38 bits of the time, or 48 bits of it. -/
theorem word_makeChronoUuidBytes :
    ∃ rest : Nat, rest < 2 ^ 16 ∧
      ((readBe64 (makeChronoUuidBytes pre timestampMs hasPrefix random)).toNat : Int) =
        (if hasPrefix then pre % 1024 * 2 ^ 38 + timestampMs % 2 ^ 38
          else timestampMs % 2 ^ 48) * 2 ^ 16 + rest := by
  obtain ⟨rest, hrest, hword⟩ := toNat_readBe64_chrono timestampMs random
  refine ⟨rest, hrest, ?_⟩
  unfold makeChronoUuidBytes
  cases hasPrefix with
  | true =>
      dsimp only
      rw [if_pos rfl, if_pos rfl, toNat_readBe64_updateMsbChrono, hword]
      omega
  | false =>
      dsimp only
      rw [if_neg Bool.false_ne_true, if_neg Bool.false_ne_true]
      exact hword

end Layout

section Order

/-- Keys whose words begin with different numbers. -/
theorem compareUuidBytes_lt_iff_of_words
    {a b : KeyBytes} {high high' : Int} {rest rest' : Nat}
    (ha : ((readBe64 a).toNat : Int) = high * 2 ^ 16 + rest) (hrest : rest < 2 ^ 16)
    (hb : ((readBe64 b).toNat : Int) = high' * 2 ^ 16 + rest') (hrest' : rest' < 2 ^ 16)
    (hne : high ≠ high') :
    compareUuidBytes a.toList b.toList = -1 ↔ high < high' := by
  obtain ⟨tailA, htailA, hvalueA⟩ := value_key a
  obtain ⟨tailB, htailB, hvalueB⟩ := value_key b
  rw [compareUuidBytes_eq_neg_one_iff (by simp), hvalueA, hvalueB]
  omega

/-- A chronological key has its version and variant, its time in 48 bits, or a prefix
and the lower 38 bits of the time, and is random elsewhere.  Keys that differ in what
is kept of their times are in the order of it, where their prefixes are the same. -/
theorem chrono_key_layout
    (pre timestampMs : Int)
    (random : KeyBytes) :
    (∀ hasPrefix,
      ((readBe64 (makeChronoUuidBytes pre timestampMs hasPrefix random)).toNat / 2 ^ 16 : Int) =
        (if hasPrefix then pre % 1024 * 2 ^ 38 + timestampMs % 2 ^ 38
          else timestampMs % 2 ^ 48) ∧
      (extractPrefixFromUuidBytes
        (makeChronoUuidBytes pre timestampMs hasPrefix random)).toNat =
        (if hasPrefix then pre % 1024 else timestampMs / 2 ^ 38 % 1024) ∧
      ∀ k j, (hk : k < 16) → j < 8 → 6 ≤ k →
        (makeChronoUuidBytes pre timestampMs hasPrefix random)[k].getLsbD j =
          if k = 7 ∧ 4 ≤ j ∨ k = 8 ∧ 6 ≤ j then decide (j = 7) else random[k].getLsbD j) ∧
    (∀ (pre' later : Int) (random' : KeyBytes),
      timestampMs % 2 ^ 48 ≠ later % 2 ^ 48 →
      (compareUuidBytes (makeChronoUuidBytes pre timestampMs false random).toList
          (makeChronoUuidBytes pre' later false random').toList = -1 ↔
        timestampMs % 2 ^ 48 < later % 2 ^ 48)) ∧
    ∀ (pre' later : Int) (random' : KeyBytes),
      pre % 1024 = pre' % 1024 → timestampMs % 2 ^ 38 ≠ later % 2 ^ 38 →
      (compareUuidBytes (makeChronoUuidBytes pre timestampMs true random).toList
          (makeChronoUuidBytes pre' later true random').toList = -1 ↔
        timestampMs % 2 ^ 38 < later % 2 ^ 38) := by
  refine ⟨fun hasPrefix => ?_, fun pre' later random' hne => ?_,
    fun pre' later random' hpre hne => ?_⟩
  · obtain ⟨rest, hrest, hword⟩ := word_makeChronoUuidBytes pre timestampMs hasPrefix random
    refine ⟨?_, ?_, fun k j hk hj htail => getLsbD_makeChronoUuidBytes _ _ _ _ hk hj htail⟩
    · rw [hword]
      omega
    · have hprefix := toNat_extractPrefix (makeChronoUuidBytes pre timestampMs hasPrefix random)
      cases hasPrefix with
      | true =>
          rw [if_pos rfl] at hword ⊢
          omega
      | false =>
          rw [if_neg Bool.false_ne_true] at hword ⊢
          omega
  · obtain ⟨rest, hrest, hword⟩ := word_makeChronoUuidBytes pre timestampMs false random
    obtain ⟨rest', hrest', hword'⟩ := word_makeChronoUuidBytes pre' later false random'
    exact compareUuidBytes_lt_iff_of_words hword hrest hword' hrest' hne
  · obtain ⟨rest, hrest, hword⟩ := word_makeChronoUuidBytes pre timestampMs true random
    obtain ⟨rest', hrest', hword'⟩ := word_makeChronoUuidBytes pre' later true random'
    rw [if_pos rfl] at hword hword'
    rw [compareUuidBytes_lt_iff_of_words hword hrest hword' hrest' (by omega)]
    omega

end Order

end UuidSharded
end YdbSnippets
