import YdbSnippets.Numbers.Positional
import Mathlib.Tactic.IntervalCases

/-!
# Sharded UUID keys

`sharded_keygen.py`: a key is sixteen random bytes that carry a prefix, a time
and the version and variant of a UUID.
-/

namespace YdbSnippets
namespace UuidSharded

open Positional

section Definitions

/-- `UUID_LEN` bytes. -/
abbrev KeyBytes := Vector (BitVec 8) 16

/-- `PREFIX_BITS` -/
def prefixBits : Nat := 10

/-- `SHARDED_TIMESTAMP_BITS` -/
def shardedTimestampBits : Nat := 30

/-- `PREFIX_MSB_MASK` -/
def prefixMsbMask : BitVec 64 :=
  ((1 <<< prefixBits) - 1) <<< (64 - prefixBits)

/-- `PREFIX_PARAM_MASK` -/
def prefixParamMask : BitVec 64 :=
  (1 <<< prefixBits) - 1

/-- `SHARDED_TIMESTAMP_SHIFT` -/
def shardedTimestampShift : Nat := 64 - prefixBits - shardedTimestampBits

/-- `SHARDED_TIMESTAMP_MASK` -/
def shardedTimestampMask : BitVec 64 :=
  ((1 <<< shardedTimestampBits) - 1) <<< shardedTimestampShift

/-- `read_be64` at offset 0 -/
def readBe64 (data : KeyBytes) : BitVec 64 :=
  data[0] ++ data[1] ++ data[2] ++ data[3] ++ data[4] ++ data[5] ++ data[6] ++ data[7]

/-- `write_be64` at offset 0 -/
def writeBe64 (v : BitVec 64) (data : KeyBytes) : KeyBytes :=
  Vector.ofFn fun i =>
    if i.val < 8 then v.extractLsb' (8 * (7 - i.val)) 8 else data[i.val]

/-- `set_uuid_version_and_variant` -/
def setUuidVersionAndVariant (result : KeyBytes) : KeyBytes :=
  let result := result.set 7 ((result[7] &&& 0x0F#8) ||| 0x80#8)
  result.set 8 ((result[8] &&& 0x3F#8) ||| 0x80#8)

/-- `prefix_param_to_msb`; the mask keeps bits that the 64-bit form of any integer
has. -/
def prefixParamToMsb (pre : Int) : BitVec 64 :=
  (BitVec.ofInt 64 pre &&& prefixParamMask) <<< (64 - prefixBits)

/-- `extract_prefix_from_uuid_bytes` -/
def extractPrefixFromUuidBytes (data : KeyBytes) : BitVec 64 :=
  (readBe64 data &&& prefixMsbMask) >>> (64 - prefixBits)

/-- `get_timestamp_code` -/
def getTimestampCode (epochSeconds : Nat) : BitVec 64 :=
  BitVec.ofNat 64 (epochSeconds % 2 ^ shardedTimestampBits) <<< shardedTimestampShift

/-- `update_msb_sharded` -/
def updateMsbSharded (msb : BitVec 64) (pre : Int) (epochSeconds : Nat) (hasPrefix : Bool) :
    BitVec 64 :=
  let tsCode := getTimestampCode epochSeconds
  if hasPrefix then
    (msb &&& ~~~(prefixMsbMask ||| shardedTimestampMask)) |||
      (prefixParamToMsb pre ||| (tsCode &&& shardedTimestampMask))
  else (msb &&& ~~~shardedTimestampMask) ||| (tsCode &&& shardedTimestampMask)

/-- `make_sharded_uuid_bytes`, from the bytes of `fill_random_bytes`. -/
def makeShardedUuidBytes (pre : Int) (epochSeconds : Nat) (hasPrefix : Bool)
    (random : KeyBytes) : KeyBytes :=
  let result := setUuidVersionAndVariant random
  writeBe64 (updateMsbSharded (readBe64 result) pre epochSeconds hasPrefix) result

/-- `compare_uuid_bytes` -/
def compareUuidBytes : List (BitVec 8) → List (BitVec 8) → Int
  | left :: lhs, right :: rhs =>
      if left < right then -1
      else if right < left then 1
      else compareUuidBytes lhs rhs
  | _, _ => 0

end Definitions

section Words

theorem getLsbD_append_byte_low
    {w : Nat} (x : BitVec w) (byte : BitVec 8) {j : Nat} (hj : j < 8) :
    (x ++ byte).getLsbD j = byte.getLsbD j := by
  rw [BitVec.getLsbD_append, if_pos hj]

theorem getLsbD_append_byte_high
    {w : Nat} (x : BitVec w) (byte : BitVec 8) (i : Nat) :
    (x ++ byte).getLsbD (i + 8) = x.getLsbD i := by
  rw [BitVec.getLsbD_append, if_neg (by omega), Nat.add_sub_cancel]

/-- The bits of the word are those of the bytes, the first byte highest. -/
theorem getLsbD_readBe64
    (data : KeyBytes) {k j : Nat} (hk : k < 8) (hj : j < 8) :
    (readBe64 data).getLsbD (8 * (7 - k) + j) = data[k].getLsbD j := by
  have hshift : ∀ n, 8 * (n + 1) + j = 8 * n + j + 8 := fun n => by omega
  unfold readBe64
  interval_cases k <;>
    simp only [Nat.reduceSub, hshift, Nat.mul_zero, Nat.zero_add, getLsbD_append_byte_high,
      getLsbD_append_byte_low, hj]

theorem getLsbD_writeBe64
    (v : BitVec 64) (data : KeyBytes) {k j : Nat} (hk : k < 8) (hj : j < 8) :
    (writeBe64 v data)[k].getLsbD j = v.getLsbD (8 * (7 - k) + j) := by
  unfold writeBe64
  rw [Vector.getElem_ofFn, if_pos hk, BitVec.getLsbD_extractLsb']
  simp [hj]

theorem getElem_writeBe64
    (v : BitVec 64) (data : KeyBytes) {k : Nat} (hk : 8 ≤ k) (hlen : k < 16) :
    (writeBe64 v data)[k] = data[k] := by
  unfold writeBe64
  rw [Vector.getElem_ofFn, if_neg (Nat.not_lt.mpr hk)]

/-- What is written is read. -/
@[simp] theorem readBe64_writeBe64
    (v : BitVec 64) (data : KeyBytes) :
    readBe64 (writeBe64 v data) = v := by
  refine BitVec.eq_of_getLsbD_eq ?_
  intro i hi
  have hindex : i = 8 * (7 - (7 - i / 8)) + i % 8 := by omega
  have hk : 7 - i / 8 < 8 := by omega
  have hj : i % 8 < 8 := Nat.mod_lt _ (by omega)
  rw [hindex, getLsbD_readBe64 _ hk hj, getLsbD_writeBe64 _ _ hk hj]

/-- The version and the variant are set, the other bits are kept. -/
theorem getLsbD_setUuidVersionAndVariant
    (data : KeyBytes) {k j : Nat} (hk : k < 16) (hj : j < 8) :
    (setUuidVersionAndVariant data)[k].getLsbD j =
      if k = 7 ∧ 4 ≤ j ∨ k = 8 ∧ 6 ≤ j then decide (j = 7) else data[k].getLsbD j := by
  unfold setUuidVersionAndVariant
  by_cases h7 : k = 7
  · subst h7
    interval_cases j <;> simp
  · by_cases h8 : k = 8
    · subst h8
      interval_cases j <;> simp
    · simp [h7, h8, Ne.symm h7, Ne.symm h8]

end Words

section Fields

theorem getLsbD_prefixMsbMask
    {i : Nat} (hi : i < 64) :
    prefixMsbMask.getLsbD i = decide (54 ≤ i) := by
  revert i
  decide

theorem getLsbD_shardedTimestampMask
    {i : Nat} (hi : i < 64) :
    shardedTimestampMask.getLsbD i = decide (24 ≤ i ∧ i < 54) := by
  revert i
  decide

theorem getLsbD_prefixParamMask
    {i : Nat} (hi : i < 64) :
    prefixParamMask.getLsbD i = decide (i < 10) := by
  revert i
  decide

theorem getLsbD_prefixParamToMsb
    (pre : Int) {i : Nat} (hi : i < 64) :
    (prefixParamToMsb pre).getLsbD i =
      (decide (54 ≤ i) && (BitVec.ofInt 64 pre).getLsbD (i - 54)) := by
  unfold prefixParamToMsb prefixBits
  rw [BitVec.getLsbD_shiftLeft, BitVec.getLsbD_and, getLsbD_prefixParamMask (by omega)]
  by_cases h : 54 ≤ i
  · have hlow : i - 54 < 10 := by omega
    simp [h, hi, hlow]
  · simp [h, show i < 54 by omega]

theorem getLsbD_getTimestampCode
    (epochSeconds : Nat) {i : Nat} (hi : i < 64) :
    (getTimestampCode epochSeconds).getLsbD i =
      (decide (24 ≤ i ∧ i < 54) && epochSeconds.testBit (i - 24)) := by
  unfold getTimestampCode shardedTimestampBits shardedTimestampShift prefixBits
    shardedTimestampBits
  rw [BitVec.getLsbD_shiftLeft, BitVec.getLsbD_ofNat, Nat.testBit_mod_two_pow]
  by_cases h : 24 ≤ i
  · by_cases h' : i < 54
    · simp [h, h', hi, show ¬ i < 24 by omega, show i - 24 < 30 by omega,
        show i - 24 < 64 by omega]
    · simp [h', show ¬ i - 24 < 30 by omega]
  · simp [h, show i < 24 by omega]

/-- The new word: the prefix above the time above what the word had. -/
theorem getLsbD_updateMsbSharded
    (msb : BitVec 64) (pre : Int) (epochSeconds : Nat) (hasPrefix : Bool)
    {i : Nat} (hi : i < 64) :
    (updateMsbSharded msb pre epochSeconds hasPrefix).getLsbD i =
      if 54 ≤ i then
        if hasPrefix then (BitVec.ofInt 64 pre).getLsbD (i - 54) else msb.getLsbD i
      else if 24 ≤ i then epochSeconds.testBit (i - 24)
      else msb.getLsbD i := by
  have hsame := getLsbD_prefixMsbMask hi
  have htime := getLsbD_shardedTimestampMask hi
  have hcode := getLsbD_getTimestampCode epochSeconds hi
  have hparam := getLsbD_prefixParamToMsb pre hi
  unfold updateMsbSharded
  cases hasPrefix with
  | true =>
      simp only [if_true, BitVec.getLsbD_or, BitVec.getLsbD_and, BitVec.getLsbD_not, hsame,
        htime, hcode, hparam, hi, decide_true, Bool.true_and]
      by_cases h54 : 54 ≤ i
      · simp [h54, show ¬ i < 54 by omega]
      · by_cases h24 : 24 ≤ i
        · simp [h54, h24, show i < 54 by omega]
        · simp [h54, h24]
  | false =>
      simp only [Bool.false_eq_true, if_false, BitVec.getLsbD_or, BitVec.getLsbD_and,
        BitVec.getLsbD_not, htime, hcode, hi, decide_true, Bool.true_and]
      by_cases h54 : 54 ≤ i
      · simp [h54, show ¬ i < 54 by omega]
      · by_cases h24 : 24 ≤ i
        · simp [h54, h24, show i < 54 by omega]
        · simp [h54, h24]

/-- The bits of a key. -/
theorem getLsbD_makeShardedUuidBytes
    (pre : Int) (epochSeconds : Nat) (hasPrefix : Bool) (random : KeyBytes)
    {k j : Nat} (hk : k < 16) (hj : j < 8) :
    (makeShardedUuidBytes pre epochSeconds hasPrefix random)[k].getLsbD j =
      if k < 8 then
        (updateMsbSharded (readBe64 (setUuidVersionAndVariant random)) pre epochSeconds
          hasPrefix).getLsbD (8 * (7 - k) + j)
      else (setUuidVersionAndVariant random)[k].getLsbD j := by
  unfold makeShardedUuidBytes
  dsimp only
  split
  · next h => exact getLsbD_writeBe64 _ _ h hj
  · next h => rw [getElem_writeBe64 _ _ (Nat.not_lt.mp h)]

theorem setWidth_ofInt (pre : Int) :
    (BitVec.ofInt 64 pre).setWidth 10 = BitVec.ofInt 10 pre := by
  refine BitVec.eq_of_toNat_eq ?_
  rw [BitVec.toNat_setWidth, BitVec.toNat_ofInt, BitVec.toNat_ofInt]
  omega

/-- The prefix of a key that is given one. -/
theorem extractPrefix_makeShardedUuidBytes
    (pre : Int) (epochSeconds : Nat) (random : KeyBytes) :
    (extractPrefixFromUuidBytes (makeShardedUuidBytes pre epochSeconds true random)).toNat =
      (pre % 1024).toNat := by
  have hword : extractPrefixFromUuidBytes (makeShardedUuidBytes pre epochSeconds true random) =
      (BitVec.ofInt 10 pre).setWidth 64 := by
    refine BitVec.eq_of_getLsbD_eq ?_
    intro i hi
    unfold extractPrefixFromUuidBytes makeShardedUuidBytes prefixBits
    dsimp only
    rw [readBe64_writeBe64, BitVec.getLsbD_ushiftRight, BitVec.getLsbD_and,
      BitVec.getLsbD_setWidth]
    by_cases h : i < 10
    · have hlt : 54 + i < 64 := by omega
      rw [getLsbD_updateMsbSharded _ _ _ _ hlt, getLsbD_prefixMsbMask hlt]
      rw [← setWidth_ofInt, BitVec.getLsbD_setWidth]
      simp [h, hi]
    · have hout : (64 - 10 : Nat) + i ≥ 64 := by omega
      rw [BitVec.getLsbD_of_ge _ _ hout]
      simp [BitVec.getLsbD_of_ge _ _ (Nat.not_lt.mp h)]
  rw [hword, BitVec.toNat_setWidth, BitVec.toNat_ofInt]
  omega

/-- The time field of a key. -/
def timeField (data : KeyBytes) : BitVec 30 :=
  (readBe64 data).extractLsb' shardedTimestampShift shardedTimestampBits

theorem timeField_makeShardedUuidBytes
    (pre : Int) (epochSeconds : Nat) (hasPrefix : Bool) (random : KeyBytes) :
    (timeField (makeShardedUuidBytes pre epochSeconds hasPrefix random)).toNat =
      epochSeconds % 2 ^ 30 := by
  have hfield : timeField (makeShardedUuidBytes pre epochSeconds hasPrefix random) =
      BitVec.ofNat 30 epochSeconds := by
    refine BitVec.eq_of_getLsbD_eq ?_
    intro i hi
    unfold timeField makeShardedUuidBytes shardedTimestampBits shardedTimestampShift prefixBits
      shardedTimestampBits
    dsimp only
    rw [readBe64_writeBe64, BitVec.getLsbD_extractLsb', BitVec.getLsbD_ofNat]
    rw [getLsbD_updateMsbSharded _ _ _ _ (by omega), if_neg (by omega), if_pos (by omega)]
    simp
  rw [hfield, BitVec.toNat_ofNat]

end Fields

section Layout

/-- The ten bits of the prefix. -/
def IsPrefixBit (k j : Nat) : Prop :=
  k < 8 ∧ 54 ≤ 8 * (7 - k) + j

/-- The thirty bits of the time. -/
def IsTimeBit (k j : Nat) : Prop :=
  k < 8 ∧ 24 ≤ 8 * (7 - k) + j ∧ 8 * (7 - k) + j < 54

/-- The version, in the high half of byte 7. -/
def IsVersionBit (k j : Nat) : Prop :=
  k = 7 ∧ 4 ≤ j

/-- The variant, in the top two bits of byte 8. -/
def IsVariantBit (k j : Nat) : Prop :=
  k = 8 ∧ 6 ≤ j

variable (pre : Int) (epochSeconds : Nat) (hasPrefix : Bool) (random : KeyBytes)

theorem version_makeShardedUuidBytes :
    (makeShardedUuidBytes pre epochSeconds hasPrefix random)[7].extractLsb' 4 4 = 8#4 := by
  refine BitVec.eq_of_getLsbD_eq ?_
  intro i hi
  rw [BitVec.getLsbD_extractLsb', getLsbD_makeShardedUuidBytes _ _ _ _ (by omega) (by omega),
    if_pos (by omega), getLsbD_updateMsbSharded _ _ _ _ (by omega), if_neg (by omega),
    if_neg (by omega), getLsbD_readBe64 _ (by omega) (by omega),
    getLsbD_setUuidVersionAndVariant _ (by omega) (by omega), if_pos (by omega)]
  interval_cases i <;> rfl

theorem variant_makeShardedUuidBytes :
    (makeShardedUuidBytes pre epochSeconds hasPrefix random)[8].extractLsb' 6 2 = 2#2 := by
  refine BitVec.eq_of_getLsbD_eq ?_
  intro i hi
  rw [BitVec.getLsbD_extractLsb', getLsbD_makeShardedUuidBytes _ _ _ _ (by omega) (by omega),
    if_neg (by omega), getLsbD_setUuidVersionAndVariant _ (by omega) (by omega),
    if_pos (by omega)]
  interval_cases i <;> rfl

/-- All other bits are random. -/
theorem random_makeShardedUuidBytes
    {k j : Nat} (hk : k < 16) (hj : j < 8)
    (hsame : IsPrefixBit k j → hasPrefix = false)
    (htime : ¬ IsTimeBit k j) (hversion : ¬ IsVersionBit k j) (hvariant : ¬ IsVariantBit k j) :
    (makeShardedUuidBytes pre epochSeconds hasPrefix random)[k].getLsbD j =
      random[k].getLsbD j := by
  have hset : (setUuidVersionAndVariant random)[k].getLsbD j = random[k].getLsbD j := by
    rw [getLsbD_setUuidVersionAndVariant _ hk hj, if_neg]
    exact not_or.mpr ⟨hversion, hvariant⟩
  rw [getLsbD_makeShardedUuidBytes _ _ _ _ hk hj]
  split
  · next h8 =>
      rw [getLsbD_updateMsbSharded _ _ _ _ (by omega), getLsbD_readBe64 _ h8 hj, hset]
      split
      · next h54 => rw [hsame ⟨h8, h54⟩, if_neg Bool.false_ne_true]
      · next h54 => rw [if_neg fun h24 => htime ⟨h8, h24, Nat.not_le.mp h54⟩]
  · exact hset

end Layout

section Order

/-- Byte-wise comparison is the comparison of the numbers. -/
theorem compareUuidBytes_eq_neg_one_iff
    {xs ys : List (BitVec 8)}
    (hlength : xs.length = ys.length) :
    compareUuidBytes xs ys = -1 ↔
      value 256 (xs.map BitVec.toNat) < value 256 (ys.map BitVec.toNat) := by
  have hdigit : ∀ zs : List (BitVec 8), ∀ digit ∈ zs.map BitVec.toNat, digit < 256 := by
    intro zs digit hdigit
    obtain ⟨byte, -, rfl⟩ := List.mem_map.mp hdigit
    exact byte.isLt
  rw [value_lt_value_iff (by simp [hlength]) (hdigit xs) (hdigit ys)]
  induction xs generalizing ys with
  | nil =>
      obtain rfl := List.length_eq_zero_iff.mp hlength.symm
      simp [compareUuidBytes]
  | cons x xs ih =>
      cases ys with
      | nil => cases hlength
      | cons y ys =>
          have hrec := ih (Nat.succ.inj hlength)
          rw [compareUuidBytes, List.map_cons, List.map_cons, List.cons_lt_cons_iff,
            ← BitVec.lt_def]
          split
          · next hlt => simp [hlt]
          · next hnlt =>
              split
              · next hgt =>
                  have hne : x.toNat ≠ y.toNat := fun heq => by
                    rw [BitVec.lt_def, heq] at hgt
                    exact absurd hgt (Nat.lt_irrefl _)
                  simp [hnlt, hne]
              · next hngt =>
                  have heq : x.toNat = y.toNat := by
                    rw [BitVec.lt_def] at hnlt hngt
                    omega
                  simp [hnlt, heq, hrec]

theorem toNat_append_byte
    {w : Nat} (x : BitVec w) (byte : BitVec 8) :
    (x ++ byte).toNat = x.toNat * 256 + byte.toNat := by
  have hlt : byte.toNat < 2 ^ 8 := byte.isLt
  rw [BitVec.toNat_append, ← Nat.shiftLeft_add_eq_or_of_lt hlt, Nat.shiftLeft_eq]

theorem toNat_readBe64
    (data : KeyBytes) :
    (readBe64 data).toNat =
      data[0].toNat * 2 ^ 56 + data[1].toNat * 2 ^ 48 + data[2].toNat * 2 ^ 40 +
        data[3].toNat * 2 ^ 32 + data[4].toNat * 2 ^ 24 + data[5].toNat * 2 ^ 16 +
        data[6].toNat * 2 ^ 8 + data[7].toNat := by
  unfold readBe64
  simp only [toNat_append_byte]
  omega

/-- The number of a key begins with its word. -/
theorem value_key
    (data : KeyBytes) :
    ∃ rest < 2 ^ 64,
      value 256 (data.toList.map BitVec.toNat) = (readBe64 data).toNat * 2 ^ 64 + rest := by
  have hfront : data.toList.take 8 =
      [data[0], data[1], data[2], data[3], data[4], data[5], data[6], data[7]] := by
    refine List.ext_getElem (by simp) ?_
    intro i hi hi'
    simp only [List.length_cons, List.length_nil] at hi'
    interval_cases i <;> simp
  have hword : value 256 ((data.toList.take 8).map BitVec.toNat) = (readBe64 data).toNat := by
    rw [hfront]
    unfold readBe64
    simp [toNat_append_byte, value]
  have hlength : ((data.toList.drop 8).map BitVec.toNat).length = 8 := by simp
  refine ⟨value 256 ((data.toList.drop 8).map BitVec.toNat), ?_, ?_⟩
  · have hdigits : ∀ digit ∈ (data.toList.drop 8).map BitVec.toNat, digit < 256 := by
      intro digit hdigit
      obtain ⟨byte, -, rfl⟩ := List.mem_map.mp hdigit
      exact byte.isLt
    have hlt := value_lt hdigits
    rwa [hlength] at hlt
  · conv_lhs => rw [← List.take_append_drop 8 data.toList, List.map_append, value_append,
      hword, hlength]
    rfl

theorem toNat_extractPrefix
    (data : KeyBytes) :
    (extractPrefixFromUuidBytes data).toNat = (readBe64 data).toNat / 2 ^ 54 := by
  have hword : extractPrefixFromUuidBytes data = readBe64 data >>> 54 := by
    refine BitVec.eq_of_getLsbD_eq ?_
    intro i hi
    unfold extractPrefixFromUuidBytes prefixBits
    rw [BitVec.getLsbD_ushiftRight, BitVec.getLsbD_ushiftRight, BitVec.getLsbD_and]
    by_cases h : i < 10
    · have hmask : prefixMsbMask.getLsbD (64 - 10 + i) = true := by
        rw [getLsbD_prefixMsbMask (by omega)]
        exact decide_eq_true (by omega)
      rw [hmask, Bool.and_true]
    · rw [BitVec.getLsbD_of_ge _ _ (by omega), Bool.false_and]
  rw [hword, BitVec.toNat_ushiftRight, Nat.shiftRight_eq_div_pow]

theorem toNat_timeField
    (data : KeyBytes) :
    (timeField data).toNat = (readBe64 data).toNat / 2 ^ 24 % 2 ^ 30 := by
  have hfield : timeField data = (readBe64 data).extractLsb' 24 30 := rfl
  rw [hfield, BitVec.extractLsb'_toNat, Nat.shiftRight_eq_div_pow]

/-- Keys with the same prefix are in the order of their times. -/
theorem compareUuidBytes_of_fields
    {a b : KeyBytes}
    (hsame : (extractPrefixFromUuidBytes a).toNat = (extractPrefixFromUuidBytes b).toNat)
    (htime : (timeField a).toNat < (timeField b).toNat) :
    compareUuidBytes a.toList b.toList = -1 := by
  obtain ⟨restA, hrestA, hvalueA⟩ := value_key a
  obtain ⟨restB, hrestB, hvalueB⟩ := value_key b
  rw [toNat_extractPrefix, toNat_extractPrefix] at hsame
  rw [toNat_timeField, toNat_timeField] at htime
  rw [compareUuidBytes_eq_neg_one_iff (by simp), hvalueA, hvalueB]
  have hword : (readBe64 a).toNat < (readBe64 b).toNat := by omega
  omega

/-- A sharded key has the prefix, the time, the version and the variant in their
places and is random elsewhere.  Keys with one prefix are in the order of their
times as long as the time field does not wrap. -/
theorem sharded_key_layout
    (pre : Int)
    (epochSeconds : Nat)
    (random : KeyBytes) :
    (extractPrefixFromUuidBytes (makeShardedUuidBytes pre epochSeconds true random)).toNat =
      pre % 1024 ∧
    (∀ hasPrefix,
      (timeField (makeShardedUuidBytes pre epochSeconds hasPrefix random)).toNat =
        epochSeconds % 2 ^ 30 ∧
      (makeShardedUuidBytes pre epochSeconds hasPrefix random)[7].extractLsb' 4 4 = 8#4 ∧
      (makeShardedUuidBytes pre epochSeconds hasPrefix random)[8].extractLsb' 6 2 = 0b10#2 ∧
      ∀ k j, (hk : k < 16) → j < 8 →
        (IsPrefixBit k j → hasPrefix = false) →
        ¬ IsTimeBit k j → ¬ IsVersionBit k j → ¬ IsVariantBit k j →
        (makeShardedUuidBytes pre epochSeconds hasPrefix random)[k].getLsbD j =
          random[k].getLsbD j) ∧
    ∀ (pre' : Int) (later : Nat) (random' : KeyBytes),
      pre % 1024 = pre' % 1024 → epochSeconds < later →
      epochSeconds / 2 ^ 30 = later / 2 ^ 30 →
      compareUuidBytes (makeShardedUuidBytes pre epochSeconds true random).toList
        (makeShardedUuidBytes pre' later true random').toList = -1 := by
  refine ⟨?_, ?_, ?_⟩
  · rw [extractPrefix_makeShardedUuidBytes]
    omega
  · intro hasPrefix
    refine ⟨timeField_makeShardedUuidBytes _ _ _ _, version_makeShardedUuidBytes _ _ _ _,
      variant_makeShardedUuidBytes _ _ _ _, ?_⟩
    intro k j hk hj
    exact random_makeShardedUuidBytes _ _ _ _ hk hj
  · intro pre' later random' hpre hlater hwindow
    refine compareUuidBytes_of_fields ?_ ?_
    · rw [extractPrefix_makeShardedUuidBytes, extractPrefix_makeShardedUuidBytes, hpre]
    · rw [timeField_makeShardedUuidBytes, timeField_makeShardedUuidBytes]
      omega

end Order

end UuidSharded
end YdbSnippets
