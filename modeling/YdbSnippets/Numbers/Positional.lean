import Mathlib.Data.List.Induction
import Mathlib.Data.List.Lex
import Mathlib.Tactic.Ring

/-!
# Positional notation

The value of a list of digits, the highest digit first.  Lists of one length are
ordered as their values.
-/

namespace YdbSnippets
namespace Positional

variable {base : Nat}

/-- The value of the digits, the highest first. -/
def value (base : Nat) (digits : List Nat) : Nat :=
  digits.foldl (fun acc digit => acc * base + digit) 0

/-- The last digits of a number, the highest first. -/
def digitsOf (base : Nat) : Nat → Nat → List Nat
  | 0, _ => []
  | width + 1, n => digitsOf base width (n / base) ++ [n % base]

@[simp] theorem value_nil (base : Nat) :
    value base [] = 0 := rfl

theorem value_append_singleton
    (base : Nat) (digits : List Nat) (digit : Nat) :
    value base (digits ++ [digit]) = value base digits * base + digit := by
  unfold value
  rw [List.foldl_append]
  rfl

theorem value_append
    (base : Nat) (digits more : List Nat) :
    value base (digits ++ more) = value base digits * base ^ more.length + value base more := by
  induction more using List.reverseRecOn with
  | nil => simp
  | append_singleton more digit ih =>
      rw [← List.append_assoc, value_append_singleton, value_append_singleton, ih,
        List.length_append, List.length_singleton, pow_succ]
      ring

theorem value_cons
    (base digit : Nat) (digits : List Nat) :
    value base (digit :: digits) = digit * base ^ digits.length + value base digits := by
  have h := value_append base [digit] digits
  simpa [value] using h

/-- Digits below the base give less than the next power. -/
theorem value_lt
    {digits : List Nat}
    (h : ∀ digit ∈ digits, digit < base) :
    value base digits < base ^ digits.length := by
  induction digits with
  | nil => exact Nat.one_pos
  | cons digit digits ih =>
      obtain ⟨hdigit, hdigits⟩ := List.forall_mem_cons.mp h
      rw [value_cons, List.length_cons, pow_succ]
      calc digit * base ^ digits.length + value base digits
          < digit * base ^ digits.length + base ^ digits.length :=
            Nat.add_lt_add_left (ih hdigits) _
        _ = (digit + 1) * base ^ digits.length := by ring
        _ ≤ base * base ^ digits.length := Nat.mul_le_mul_right _ hdigit
        _ = base ^ digits.length * base := Nat.mul_comm _ _

/-- Digit lists of one length are ordered as their values. -/
theorem value_lt_value_iff
    {xs ys : List Nat}
    (hlength : xs.length = ys.length)
    (hxs : ∀ digit ∈ xs, digit < base) (hys : ∀ digit ∈ ys, digit < base) :
    value base xs < value base ys ↔ xs < ys := by
  induction xs generalizing ys with
  | nil =>
      obtain rfl := List.length_eq_zero_iff.mp hlength.symm
      simp
  | cons x xs ih =>
      cases ys with
      | nil => cases hlength
      | cons y ys =>
          have hlen : xs.length = ys.length := Nat.succ.inj hlength
          obtain ⟨-, hxs'⟩ := List.forall_mem_cons.mp hxs
          obtain ⟨-, hys'⟩ := List.forall_mem_cons.mp hys
          have hx := value_lt hxs'
          have hy := value_lt hys'
          rw [value_cons, value_cons, List.cons_lt_cons_iff, ← ih hlen hxs' hys', hlen]
          rw [hlen] at hx
          generalize base ^ ys.length = power at hx hy
          rcases Nat.lt_trichotomy x y with hxy | rfl | hxy
          · have hle : (x + 1) * power ≤ y * power := Nat.mul_le_mul_right _ hxy
            rw [Nat.add_mul, Nat.one_mul] at hle
            exact iff_of_true (by omega) (Or.inl hxy)
          · rw [Nat.add_lt_add_iff_left]
            simp
          · have hle : (y + 1) * power ≤ x * power := Nat.mul_le_mul_right _ hxy
            rw [Nat.add_mul, Nat.one_mul] at hle
            refine iff_of_false (by omega) ?_
            rintro (hlt | ⟨rfl, -⟩) <;> omega

/-- Digits that are spelled in their order give lists in the same order. -/
theorem map_lt_map_iff
    {spell : Nat → Nat} {xs ys : List Nat}
    (hspell : ∀ a < base, ∀ b < base, a < b → spell a < spell b)
    (hxs : ∀ digit ∈ xs, digit < base) (hys : ∀ digit ∈ ys, digit < base) :
    xs.map spell < ys.map spell ↔ xs < ys := by
  induction xs generalizing ys with
  | nil => cases ys <;> simp
  | cons x xs ih =>
      cases ys with
      | nil => simp
      | cons y ys =>
          obtain ⟨hx, hxs'⟩ := List.forall_mem_cons.mp hxs
          obtain ⟨hy, hys'⟩ := List.forall_mem_cons.mp hys
          have hrec := ih hxs' hys'
          rw [List.map_cons, List.map_cons, List.cons_lt_cons_iff, List.cons_lt_cons_iff]
          rcases Nat.lt_trichotomy x y with hxy | rfl | hxy
          · exact iff_of_true (Or.inl (hspell x hx y hy hxy)) (Or.inl hxy)
          · simp [hrec]
          · have hspelled := hspell y hy x hx hxy
            refine iff_of_false ?_ ?_
            · rintro (hlt | ⟨heq, -⟩) <;> omega
            · rintro (hlt | ⟨heq, -⟩) <;> omega

theorem length_digitsOf (base width n : Nat) :
    (digitsOf base width n).length = width := by
  induction width generalizing n with
  | zero => rfl
  | succ width ih => rw [digitsOf, List.length_append, ih, List.length_singleton]

theorem lt_of_mem_digitsOf
    (hbase : 0 < base) {width n digit : Nat}
    (h : digit ∈ digitsOf base width n) :
    digit < base := by
  induction width generalizing n with
  | zero => cases h
  | succ width ih =>
      rcases List.mem_append.mp h with h | h
      · exact ih h
      · rw [List.mem_singleton.mp h]
        exact Nat.mod_lt n hbase

/-- The digits give the number back, up to what needs more digits. -/
theorem value_digitsOf (base width n : Nat) :
    value base (digitsOf base width n) = n % base ^ width := by
  induction width generalizing n with
  | zero => rw [pow_zero, Nat.mod_one, digitsOf, value_nil]
  | succ width ih =>
      rw [digitsOf, value_append_singleton, ih, pow_succ, Nat.mul_comm (base ^ width),
        Nat.mod_mul]
      ring

end Positional
end YdbSnippets
