import YdbSnippets.Python.Text
import YdbSnippets.Text.Numerals

/-!
# Numbers in texts

`int(text, 10)` and the `as_int` of the viewer scripts.  The interpreter's
limit on the number of digits is a setting, and is taken to be off.
-/

namespace YdbSnippets
namespace Python

open Text

section Numbers

variable (py : Interpreter)

/-- The value of a decimal digit of any script; no white space is a digit. -/
def decimalValue (c : Char) : Option Nat :=
  if c.toNat < 128 then asciiDigit c
  else if isSpace c then none
  else py.decimal c

/-- `int` of a text that `\\d+` matches. -/
def decimalNumber (s : Str) : Option Nat :=
  readNumeral 10 (decimalValue py) s

/-- The digits of `int(text, 10)`, with single underscores between them. -/
def readDigits (body : Str) : Option Nat :=
  if (body.splitOn '_').all (fun part => !part.isEmpty) then
    readNumeral 10 (decimalValue py) (body.filter (fun c => c != '_'))
  else none

/-- `int(text, 10)`, or `none` for its `ValueError`. -/
def parseInt (text : Str) : Option Int :=
  match strip text with
  | '-' :: body => (readDigits py body).map fun n => -(n : Int)
  | '+' :: body => (readDigits py body).map fun n => (n : Int)
  | body => (readDigits py body).map fun n => (n : Int)

/-- `as_int` of a text or of `None`. -/
def asInt : Option Str → Option Int
  | none => none
  | some text => if (strip text).isEmpty then none else parseInt py text

theorem decimalValue_digitChar
    (d : Nat) (h : d < 10) :
    decimalValue py d.digitChar = some d := by
  have hval := Nat.toNat_digitChar_of_lt_ten h
  unfold decimalValue
  rw [if_pos (by omega), asciiDigit_digitChar d h]

theorem isSpace_of_decimalValue
    {c : Char} {d : Nat}
    (h : decimalValue py c = some d) :
    isSpace c = false := by
  unfold decimalValue at h
  split at h
  · unfold asciiDigit at h
    split at h
    · next hdigit =>
        obtain ⟨hlow, hhigh⟩ := isDigit_iff_toNat.mp hdigit
        exact isSpace_of_bounds (by omega) (by omega)
    · cases h
  · split at h
    · cases h
    · next hspace => simpa using hspace

@[simp] theorem decimalNumber_toDigits (n : Nat) :
    decimalNumber py (Nat.toDigits 10 n) = some n :=
  readNumeral_toDigits (by omega) (decimalValue_digitChar py) n

/-- A minus sign is no digit. -/
theorem decimalNumber_minus_cons (s : Str) :
    decimalNumber py ('-' :: s) = none := by
  cases h : decimalNumber py ('-' :: s) with
  | none => rfl
  | some n =>
      obtain ⟨d, hd⟩ := exists_value_of_readNumeral h '-' List.mem_cons_self
      cases hd

/-- A printed integer is a text of digits unless it is negative. -/
theorem decimalNumber_printInt (n : Int) :
    decimalNumber py (printInt n) = if n < 0 then none else some n.toNat := by
  unfold printInt
  split
  · exact decimalNumber_minus_cons py _
  · next h =>
      rw [decimalNumber_toDigits]
      exact congrArg some (by omega)

theorem readDigits_toDigits (n : Nat) :
    readDigits py (Nat.toDigits 10 n) = some n := by
  have hdigit : ∀ c ∈ Nat.toDigits 10 n, c ≠ '_' := by
    rintro c hc rfl
    exact absurd (isDigit_of_mem_toDigits_ten hc) (by decide)
  have hsplit : (Nat.toDigits 10 n).splitOn '_' = [Nat.toDigits 10 n] :=
    List.splitOn_eq_singleton fun hmem => hdigit _ hmem rfl
  have hfilter : (Nat.toDigits 10 n).filter (fun c => c != '_') = Nat.toDigits 10 n :=
    List.filter_eq_self.mpr fun c hc => by simpa using hdigit c hc
  have hread := decimalNumber_toDigits py n
  unfold decimalNumber at hread
  unfold readDigits
  rw [hsplit, hfilter, if_pos (by simp [Nat.toDigits_ne_nil]), hread]

/-- The digits of a number are read as that number. -/
@[simp] theorem parseInt_toDigits (n : Nat) :
    parseInt py (Nat.toDigits 10 n) = some (n : Int) := by
  have hspace : ∀ c ∈ Nat.toDigits 10 n, isSpace c = false := by
    intro c hc
    obtain ⟨d, hd⟩ := exists_value_of_readNumeral (decimalNumber_toDigits py n) c hc
    exact isSpace_of_decimalValue py hd
  have hstrip : strip (Nat.toDigits 10 n) = Nat.toDigits 10 n :=
    strip_eq_self (fun c hc => hspace c (List.mem_of_mem_head? hc))
      (fun c hc => hspace c (List.mem_of_getLast? hc))
  have hdigit : ∀ c ∈ Nat.toDigits 10 n, c ≠ '-' ∧ c ≠ '+' := by
    intro c hc
    have hc := isDigit_of_mem_toDigits_ten hc
    constructor <;>
      · rintro rfl
        exact absurd hc (by decide)
  have hread := readDigits_toDigits py n
  unfold parseInt
  rw [hstrip]
  split
  · next body heq =>
      exact absurd rfl (hdigit '-' (heq ▸ List.mem_cons_self)).1
  · next body heq =>
      exact absurd rfl (hdigit '+' (heq ▸ List.mem_cons_self)).2
  · rw [hread]
    rfl

end Numbers

end Python
end YdbSnippets
