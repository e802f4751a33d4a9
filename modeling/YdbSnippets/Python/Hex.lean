import YdbSnippets.Python.Text

/-!
# Hexadecimal digits

The digits `[0-9a-fA-F]`, `bytes.hex` and `bytes.fromhex`.
-/

namespace YdbSnippets
namespace Python

section Definitions

/-- `[0-9a-fA-F]` -/
def isHexDigit (c : Char) : Bool :=
  c.isDigit || ('a' ≤ c && c ≤ 'f') || ('A' ≤ c && c ≤ 'F')

/-- `data.hex()` -/
def hexOf (data : List (BitVec 8)) : Str :=
  data.flatMap fun b => [Nat.digitChar (b.toNat / 16), Nat.digitChar (b.toNat % 16)]

/-- The value of a hexadecimal digit. -/
def hexValue (c : Char) : Option Nat :=
  if '0' ≤ c ∧ c ≤ '9' then some (c.toNat - '0'.toNat)
  else if 'a' ≤ c ∧ c ≤ 'f' then some (c.toNat - 'a'.toNat + 10)
  else if 'A' ≤ c ∧ c ≤ 'F' then some (c.toNat - 'A'.toNat + 10)
  else none

/-- The white space that `bytes.fromhex` passes over. -/
def isAsciiSpace (c : Char) : Bool :=
  c = ' ' || ('\t' ≤ c && c ≤ '\r')

/-- `bytes.fromhex(text)`, or `none` for the `ValueError`.  White space may stand
between two bytes, not inside one. -/
def fromHex : Str → Option (List (BitVec 8))
  | [] => some []
  | [c] => if isAsciiSpace c then some [] else none
  | c :: d :: rest =>
      if isAsciiSpace c then fromHex (d :: rest)
      else
        match hexValue c, hexValue d, fromHex rest with
        | some top, some bottom, some data => some (BitVec.ofNat 8 (16 * top + bottom) :: data)
        | _, _, _ => none

end Definitions

section Digits

theorem isHexDigit_iff_toNat
    {c : Char} :
    isHexDigit c = true ↔ (48 ≤ c.toNat ∧ c.toNat ≤ 57) ∨ (97 ≤ c.toNat ∧ c.toNat ≤ 102) ∨
      (65 ≤ c.toNat ∧ c.toNat ≤ 70) := by
  simp only [isHexDigit, Bool.or_eq_true, Bool.and_eq_true, decide_eq_true_eq,
    isDigit_iff_toNat, or_assoc]
  exact Iff.rfl

/-- A hexadecimal digit is no space. -/
theorem isSpace_of_isHexDigit
    {c : Char} (h : isHexDigit c = true) :
    isSpace c = false := by
  have hbounds := isHexDigit_iff_toNat.mp h
  exact isSpace_of_bounds (by omega) (by omega)

/-- What has a value is a digit, and the value is below 16. -/
theorem hexValue_spec
    {c : Char} {d : Nat} (h : hexValue c = some d) :
    isHexDigit c = true ∧ d < 16 := by
  rw [isHexDigit_iff_toNat]
  unfold hexValue at h
  split at h
  · next hdigit =>
      have hbounds : 48 ≤ c.toNat ∧ c.toNat ≤ 57 := hdigit
      cases h
      exact ⟨Or.inl hbounds, Nat.lt_of_le_of_lt (Nat.sub_le_sub_right hbounds.2 48) (by decide)⟩
  · split at h
    · next hlower =>
        have hbounds : 97 ≤ c.toNat ∧ c.toNat ≤ 102 := hlower
        cases h
        have hle : c.toNat - 97 ≤ 5 := by omega
        exact ⟨Or.inr (Or.inl hbounds), Nat.lt_succ_of_le (Nat.add_le_add_right hle 10)⟩
    · split at h
      · next hupper =>
          have hbounds : 65 ≤ c.toNat ∧ c.toNat ≤ 70 := hupper
          cases h
          have hle : c.toNat - 65 ≤ 5 := by omega
          exact ⟨Or.inr (Or.inr hbounds), Nat.lt_succ_of_le (Nat.add_le_add_right hle 10)⟩
      · cases h

/-- The value of a digit that is printed. -/
theorem hexValue_digitChar
    (d : Nat) (h : d < 16) :
    hexValue d.digitChar = some d := by
  have hall : ∀ d : Fin 16, hexValue (Nat.digitChar d) = some d.val := by
    decide
  exact hall ⟨d, h⟩

end Digits

section RoundTrip

/-- What is known of the digits of a byte. -/
theorem digitChar_spec :
    ∀ n : Fin 16, hexValue (Nat.digitChar n) = some n.val ∧
      isAsciiSpace (Nat.digitChar n) = false ∧ Nat.digitChar n ≠ '-' := by
  decide

@[simp] theorem length_hexOf (data : List (BitVec 8)) :
    (hexOf data).length = 2 * data.length := by
  induction data with
  | nil => rfl
  | cons b data ih =>
      have hcons : hexOf (b :: data) =
          Nat.digitChar (b.toNat / 16) :: Nat.digitChar (b.toNat % 16) :: hexOf data := rfl
      rw [hcons, List.length_cons, List.length_cons, ih, List.length_cons]
      omega

theorem ne_dash_of_mem_hexOf
    {data : List (BitVec 8)} {c : Char} (h : c ∈ hexOf data) :
    c ≠ '-' := by
  obtain ⟨b, _, hc⟩ := List.mem_flatMap.mp h
  have hlt := b.isLt
  simp only [List.mem_cons, List.not_mem_nil, or_false] at hc
  rcases hc with rfl | rfl
  · exact (digitChar_spec ⟨b.toNat / 16, by omega⟩).2.2
  · exact (digitChar_spec ⟨b.toNat % 16, by omega⟩).2.2

@[simp] theorem fromHex_hexOf (data : List (BitVec 8)) :
    fromHex (hexOf data) = some data := by
  induction data with
  | nil => rfl
  | cons b data ih =>
      have hcons : hexOf (b :: data) =
          Nat.digitChar (b.toNat / 16) :: Nat.digitChar (b.toNat % 16) :: hexOf data := rfl
      have hlt := b.isLt
      obtain ⟨htop, hspace, _⟩ := digitChar_spec ⟨b.toNat / 16, by omega⟩
      obtain ⟨hbottom, _, _⟩ := digitChar_spec ⟨b.toNat % 16, by omega⟩
      have hbyte : BitVec.ofNat 8 (16 * (b.toNat / 16) + b.toNat % 16) = b := by
        rw [Nat.div_add_mod, BitVec.ofNat_toNat, BitVec.setWidth_eq]
      rw [hcons, fromHex, htop, hbottom, ih]
      simp [hspace, hbyte]

end RoundTrip

end Python
end YdbSnippets
