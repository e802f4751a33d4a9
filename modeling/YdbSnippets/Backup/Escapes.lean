import YdbSnippets.Backup.Layout
import Mathlib.Algebra.Group.Nat.Defs

/-!
# Decoding literals

The decoder accepts what protobuf text allows, with one exception: a `\x`
escape with one hexadecimal digit is read only at the end of a literal.
-/

namespace YdbSnippets
namespace Backup

open Python

section Digits

theorem hexValue_le (c : Char) :
    (hexValue c).getD 0 ≤ 15 := by
  cases h : hexValue c with
  | none => exact Nat.zero_le 15
  | some d => exact Nat.le_of_lt_succ (hexValue_spec h).2

theorem isHexDigit_of_isOctalDigit
    {c : Char}
    (h : isOctalDigit c = true) :
    isHexDigit c = true := by
  simp only [isOctalDigit, Bool.and_eq_true, decide_eq_true_eq] at h
  have hlow : 48 ≤ c.toNat := h.1
  have hhigh : c.toNat ≤ 55 := h.2
  exact isHexDigit_iff_toNat.mpr (Or.inl (by omega))

theorem chr_of_lt
    {n : Nat}
    (h : n < 0x110000) :
    chr n = .ok n := by
  unfold chr
  rw [if_pos h]

theorem digitsValue_append
    (base : Nat) (digits : Str) (c : Char) :
    digitsValue base (digits ++ [c]) = digitsValue base digits * base + (hexValue c).getD 0 := by
  unfold digitsValue
  rw [List.foldl_append]
  rfl

/-- Digits of a base up to 16 make a number below that power of 16. -/
theorem digitsValue_lt
    {base : Nat} {digits : Str}
    (hbase : base ≤ 16) :
    digitsValue base digits < 16 ^ digits.length := by
  induction digits using List.reverseRecOn with
  | nil => exact Nat.zero_lt_one
  | append_singleton digits c ih =>
      have hc := hexValue_le c
      have hmul : digitsValue base digits * base ≤ digitsValue base digits * 16 :=
        Nat.mul_le_mul_left _ hbase
      rw [digitsValue_append, List.length_append, List.length_singleton, Nat.pow_succ]
      omega

theorem digitsValue_lt_of_length
    {base : Nat} {digits : Str}
    (hbase : base ≤ 16)
    (hlength : digits.length ≤ 3) :
    digitsValue base digits < 0x110000 := by
  have hlt : digitsValue base digits < 16 ^ digits.length := digitsValue_lt hbase
  have hpow : 16 ^ digits.length ≤ 16 ^ 3 := Nat.pow_le_pow_right (by decide) hlength
  omega

end Digits

section Escapes

/-- A `\x` escape is read if it has two digits, or one at the end. -/
theorem decodeEscape_hex
    {rest : Str} {result : Nat × Nat} :
    decodeEscape 'x' rest = .ok result ↔
      protoEscape 'x' rest = some result ∧ isShortHex 'x' rest = false := by
  have hone : ∀ a, digitsValue 16 [a] < 0x110000 := fun a =>
    digitsValue_lt_of_length (Nat.le_refl 16) (by simp)
  have htwo : ∀ a b, digitsValue 16 [a, b] < 0x110000 := fun a b =>
    digitsValue_lt_of_length (Nat.le_refl 16) (by simp)
  unfold decodeEscape protoEscape
  cases rest with
  | nil => simp [simpleEscape]
  | cons a rest =>
      cases ha : isHexDigit a with
      | false =>
          cases rest <;> simp [simpleEscape, ha]
      | true =>
          cases rest with
          | nil => simp [simpleEscape, ha, isShortHex, chr_of_lt (hone a), Except.map]
          | cons b rest =>
              cases hb : isHexDigit b with
              | false => simp [simpleEscape, ha, hb, isShortHex]
              | true =>
                  simp [simpleEscape, ha, hb, isShortHex, chr_of_lt (htwo a b), Except.map]

/-- The first `n` characters are all digits if taking digits gives `n`. -/
theorem takeWhile_take_eq_iff
    {p : Char → Bool} {rest : Str} {n : Nat} :
    ((rest.take n).takeWhile p).length = n ↔
      (rest.take n).length = n ∧ (rest.take n).any (fun c => !p c) = false := by
  constructor
  · intro h
    have hle := (List.takeWhile_prefix p (l := rest.take n)).length_le
    have hle' := List.length_take_le n rest
    have hlength : (rest.take n).length = n := by omega
    refine ⟨hlength, ?_⟩
    have heq : (rest.take n).takeWhile p = rest.take n :=
      (List.takeWhile_prefix p).eq_of_length (by omega)
    rw [List.any_eq_false]
    intro c hc
    rw [← heq] at hc
    simp [List.mem_takeWhile_imp hc]
  · rintro ⟨hlength, hany⟩
    rw [List.any_eq_false] at hany
    rw [List.takeWhile_eq_self_iff.mpr (fun c hc => by simpa using hany c hc), hlength]

/-- An escape is decoded if it is one of protobuf text and not a short
hexadecimal one; then it stands for the same code point. -/
theorem decodeEscape_eq_ok_iff
    {esc : Char} {rest : Str} {result : Nat × Nat} :
    decodeEscape esc rest = .ok result ↔
      protoEscape esc rest = some result ∧ isShortHex esc rest = false := by
  by_cases hx : esc = 'x'
  · subst hx
    exact decodeEscape_hex
  · have hshort : isShortHex esc rest = false := by simp [isShortHex, hx]
    unfold decodeEscape protoEscape
    rw [hshort]
    cases hsimple : simpleEscape esc with
    | some value => simp
    | none =>
        simp only [hx, if_false, and_true]
        by_cases hoctal : isOctalDigit esc = true
        · have hlt : digitsValue 8 (esc :: (rest.take 2).takeWhile isOctalDigit) < 0x110000 := by
            refine digitsValue_lt_of_length (by decide) ?_
            have hle := (List.takeWhile_prefix isOctalDigit (l := rest.take 2)).length_le
            have hle' := List.length_take_le 2 rest
            simp only [List.length_cons]
            omega
          simp [hoctal, chr_of_lt hlt, Except.map]
        · simp only [hoctal, Bool.false_eq_true, if_false]
          by_cases hu : esc = 'u' ∨ esc = 'U'
          · simp only [hu, if_true]
            generalize (if esc = 'u' then 4 else 8) = width
            by_cases hwidth : ((rest.take width).takeWhile isHexDigit).length = width
            · obtain ⟨hlength, hany⟩ := takeWhile_take_eq_iff.mp hwidth
              have heq : (rest.take width).takeWhile isHexDigit = rest.take width :=
                (List.takeWhile_prefix isHexDigit).eq_of_length (by omega)
              simp only [heq, hlength, hany]
              by_cases hlt : digitsValue 16 (rest.take width) < 0x110000
              · simp [hlt, chr_of_lt hlt, Except.map]
              · simp [hlt, chr, Except.map]
            · have hnot := mt takeWhile_take_eq_iff.mpr hwidth
              simp only [hwidth, false_and, if_false]
              rw [if_pos]
              · simp
              · by_contra hcontra
                simp only [ne_eq, Bool.or_eq_true, decide_eq_true_eq, not_or, not_not,
                  Bool.not_eq_true] at hcontra
                exact hnot hcontra
          · simp [hu]

end Escapes

section Bodies

theorem take_length_takeWhile_take
    (p : Char → Bool) (rest : Str) (n : Nat) :
    rest.take ((rest.take n).takeWhile p).length = (rest.take n).takeWhile p := by
  have hprefix : (rest.take n).takeWhile p <+: rest :=
    (List.takeWhile_prefix p).trans (List.take_prefix n rest)
  exact (List.prefix_iff_eq_take.mp hprefix).symm

/-- What belongs to an escape are digits. -/
theorem isHexDigit_of_protoEscape
    {esc : Char} {rest : Str} {value used : Nat}
    (h : protoEscape esc rest = some (value, used)) :
    ∀ c ∈ rest.take used, isHexDigit c = true := by
  unfold protoEscape at h
  cases hsimple : simpleEscape esc with
  | some simple =>
      simp only [hsimple, Option.some.injEq, Prod.mk.injEq] at h
      rw [← h.2]
      simp
  | none =>
      simp only [hsimple] at h
      generalize (if esc = 'u' then 4 else 8) = width at h
      split_ifs at h with hx hoctal hu hwidth
      · cases hdigits : (rest.take 2).takeWhile isHexDigit with
        | nil => simp [hdigits] at h
        | cons d digits =>
            simp only [hdigits, Option.some.injEq, Prod.mk.injEq] at h
            rw [← h.2, ← hdigits, take_length_takeWhile_take]
            exact fun c hc => List.mem_takeWhile_imp hc
      · simp only [Option.some.injEq, Prod.mk.injEq] at h
        rw [← h.2, take_length_takeWhile_take]
        exact fun c hc => isHexDigit_of_isOctalDigit (List.mem_takeWhile_imp hc)
      · simp only [Option.some.injEq, Prod.mk.injEq] at h
        rw [← h.2]
        intro c hc
        rw [← hwidth.1, take_length_takeWhile_take] at hc
        exact List.mem_takeWhile_imp hc

theorem decodeBody_of_ne
    {c : Char} (hc : c ≠ '\\') (rest : Str) :
    decodeBody (c :: rest) = (decodeBody rest).map (c.toNat :: ·) := by
  cases rest with
  | nil =>
      rw [decodeBody.eq_2, if_pos hc]
      rfl
  | cons d rest =>
      rw [decodeBody.eq_3, if_pos hc]
      rfl

/-- Without a backslash every character stands for itself. -/
theorem decodeBody_of_notMem
    {body : Str} (h : '\\' ∉ body) :
    decodeBody body = .ok (body.map Char.toNat) := by
  induction body with
  | nil => rw [decodeBody, List.map_nil]
  | cons c rest ih =>
      simp only [List.mem_cons, not_or] at h
      rw [decodeBody_of_ne (Ne.symm h.1), ih h.2]
      rfl

theorem protoDecode_of_ne
    {c : Char} (hc : c ≠ '\\') (rest : Str) :
    protoDecode (c :: rest) = (protoDecode rest).map (c.toNat :: ·) := by
  cases rest with
  | nil =>
      rw [protoDecode.eq_2, if_pos hc]
  | cons d rest =>
      rw [protoDecode.eq_3, if_pos hc]

theorem hasShortHex_of_ne
    {c : Char} (hc : c ≠ '\\') (rest : Str) :
    hasShortHex (c :: rest) = hasShortHex rest := by
  cases rest with
  | nil =>
      rw [hasShortHex.eq_2, if_pos hc]
  | cons d rest =>
      rw [hasShortHex.eq_3, if_pos hc]

/-- Characters that are no backslash start no escape. -/
theorem hasShortHex_drop
    {rest : Str} {used : Nat}
    (h : ∀ c ∈ rest.take used, c ≠ '\\') :
    hasShortHex (rest.drop used) = hasShortHex rest := by
  induction rest generalizing used with
  | nil => simp
  | cons c rest ih =>
      cases used with
      | zero => rfl
      | succ used =>
          simp only [List.take_succ_cons, List.mem_cons, forall_eq_or_imp] at h
          rw [List.drop_succ_cons, ih h.2, hasShortHex_of_ne h.1]

/-- A result and its specification agree after both were mapped. -/
theorem except_map_iff
    {x : Except Failure CodePoints} {y : Option CodePoints} {short : Bool}
    {value : CodePoints} (f : CodePoints → CodePoints)
    (h : ∀ out, x = .ok out ↔ y = some out ∧ short = false) :
    x.map f = .ok value ↔ y.map f = some value ∧ short = false := by
  constructor
  · intro hx
    cases x with
    | error e => cases hx
    | ok out =>
        obtain ⟨rfl, hshort⟩ := (h out).mp rfl
        cases hx
        exact ⟨rfl, hshort⟩
  · rintro ⟨hy, hshort⟩
    obtain ⟨out, rfl, rfl⟩ := Option.map_eq_some_iff.mp hy
    rw [(h out).mpr ⟨rfl, hshort⟩]
    rfl

/-- What stands between the quotes is decoded if all its escapes are. -/
theorem decodeBody_eq_ok_iff
    {body : Str} {value : CodePoints} :
    decodeBody body = .ok value ↔
      protoDecode body = some value ∧ hasShortHex body = false := by
  induction hn : body.length using Nat.strong_induction_on generalizing body value with
  | _ n ih =>
      cases body with
      | nil =>
          rw [decodeBody, protoDecode]
          simp [hasShortHex]
      | cons c rest =>
          simp only [List.length_cons] at hn
          by_cases hc : c = '\\'
          · subst hc
            cases rest with
            | nil => simp [decodeBody, protoDecode]
            | cons esc rest =>
                simp only [List.length_cons] at hn
                rw [decodeBody, protoDecode, hasShortHex]
                simp only [ne_eq, not_true, if_false]
                cases hescape : decodeEscape esc rest with
                | error e =>
                    constructor
                    · intro h
                      cases h
                    · rintro ⟨hproto, hshort⟩
                      simp only [Bool.or_eq_false_iff] at hshort
                      cases hsome : protoEscape esc rest with
                      | none => simp [hsome] at hproto
                      | some result =>
                          have hok := decodeEscape_eq_ok_iff.mpr ⟨hsome, hshort.1⟩
                          rw [hescape] at hok
                          cases hok
                | ok result =>
                    obtain ⟨point, used⟩ := result
                    obtain ⟨hproto, hshort⟩ := decodeEscape_eq_ok_iff.mp hescape
                    have hdigits := isHexDigit_of_protoEscape hproto
                    have hno : ∀ c ∈ rest.take used, c ≠ '\\' := by
                      rintro c hc rfl
                      exact absurd (hdigits _ hc) (by decide)
                    have hdrop := hasShortHex_drop hno
                    have hlength : (rest.drop used).length < n := by
                      rw [List.length_drop]
                      omega
                    simp only [hproto, hshort, Bool.false_or, ← hdrop]
                    exact except_map_iff (point :: ·) (fun out => ih _ hlength rfl)
          · rw [decodeBody_of_ne hc, protoDecode_of_ne hc, hasShortHex_of_ne hc]
            exact except_map_iff (c.toNat :: ·) (fun out => ih _ (by omega) rfl)

/-- The literal is one the tool can read: its escapes are ones of protobuf
text, and none of them is a short hexadecimal one. -/
def Literal.Readable (l : Literal) : Prop :=
  (protoDecode l.body).isSome = true ∧ hasShortHex l.body = false

theorem decodeProtoString_eq (l : Literal) :
    decodeProtoString l.render = decodeBody l.body := by
  have hlast : l.render.getLast? = some l.quote := by
    rw [Literal.render, ← List.cons_append, List.getLast?_append_cons]
    rfl
  obtain ⟨d, tail, htail⟩ := List.exists_cons_of_ne_nil
    (show l.body ++ [l.quote] ≠ [] by simp)
  have hrender : l.render = l.quote :: d :: tail := by rw [Literal.render, htail]
  unfold decodeProtoString
  rw [hrender]
  dsimp only
  rw [← hrender, if_pos ⟨l.isQuote, hlast⟩]
  simp [Literal.render]

/-- A readable literal is decoded to what it stands for. -/
theorem decodeProtoString_of_readable
    {l : Literal}
    (h : l.Readable) :
    ∃ value, protoDecode l.body = some value ∧ decodeProtoString l.render = .ok value := by
  obtain ⟨value, hvalue⟩ := Option.isSome_iff_exists.mp h.1
  refine ⟨value, hvalue, ?_⟩
  rw [decodeProtoString_eq]
  exact decodeBody_eq_ok_iff.mpr ⟨hvalue, h.2⟩

/-- Any other literal is refused. -/
theorem decodeProtoString_of_not_readable
    {l : Literal}
    (h : ¬ l.Readable) :
    ∃ e, decodeProtoString l.render = .error e := by
  rw [decodeProtoString_eq]
  cases hdecode : decodeBody l.body with
  | error e => exact ⟨e, rfl⟩
  | ok value =>
      obtain ⟨hvalue, hshort⟩ := decodeBody_eq_ok_iff.mp hdecode
      exact absurd ⟨by rw [hvalue]; rfl, hshort⟩ h

end Bodies

end Backup
end YdbSnippets
