import Mathlib.Data.List.Basic
import Mathlib.Data.Nat.Notation

/-!
# Numerals

Numbers written in positional notation and read back.  A reader is given by
the base and by the value of each digit; several characters may stand for one
digit.
-/

namespace YdbSnippets
namespace Text

section Reading

variable {base : Nat} {value : Char → Option Nat}

/-- The number with these digits, the most significant one first. -/
def ofDigits (base : Nat) (digits : List Nat) : Nat :=
  digits.foldl (fun n d => base * n + d) 0

/-- Reads a non-empty text of digits. -/
def readNumeral (base : Nat) (value : Char → Option Nat) (s : List Char) : Option Nat :=
  if s.isEmpty then none else (s.mapM value).map (ofDigits base)

theorem ofDigits_append_singleton
    (base : Nat) (digits : List Nat) (d : Nat) :
    ofDigits base (digits ++ [d]) = base * ofDigits base digits + d := by
  unfold ofDigits
  rw [List.foldl_append]
  rfl

/-- Every character of a numeral is a digit, and there is one. -/
theorem readNumeral_eq_some
    {s : List Char} {n : Nat}
    (h : readNumeral base value s = some n) :
    s ≠ [] ∧ ∃ digits, s.mapM value = some digits ∧ ofDigits base digits = n := by
  unfold readNumeral at h
  cases s with
  | nil => cases h
  | cons c rest =>
      refine ⟨List.cons_ne_nil c rest, ?_⟩
      exact Option.map_eq_some_iff.mp h

theorem exists_value_of_mapM
    {s : List Char} {digits : List Nat}
    (h : s.mapM value = some digits) :
    ∀ c ∈ s, ∃ d, value c = some d := by
  induction s generalizing digits with
  | nil => simp
  | cons c rest ih =>
      rw [List.mapM_cons] at h
      obtain ⟨d, hd, h⟩ := Option.bind_eq_some_iff.mp h
      obtain ⟨ds, hds, -⟩ := Option.bind_eq_some_iff.mp h
      intro c' hc'
      rcases List.mem_cons.mp hc' with rfl | hc'
      · exact ⟨d, hd⟩
      · exact ih hds c' hc'

theorem exists_value_of_readNumeral
    {s : List Char} {n : Nat}
    (h : readNumeral base value s = some n) :
    ∀ c ∈ s, ∃ d, value c = some d := by
  obtain ⟨_, digits, hdigits, _⟩ := readNumeral_eq_some h
  exact exists_value_of_mapM hdigits

/-- A leading zero changes nothing. -/
theorem readNumeral_zero_cons
    {zero : Char} {s : List Char}
    (hzero : value zero = some 0) (hne : s ≠ []) :
    readNumeral base value (zero :: s) = readNumeral base value s := by
  cases s with
  | nil => exact absurd rfl hne
  | cons c rest =>
      unfold readNumeral
      simp only [List.isEmpty_cons, Bool.false_eq_true, if_false, List.mapM_cons, hzero]
      cases value c with
      | none => rfl
      | some d =>
          cases rest.mapM value with
          | none => rfl
          | some ds => simp [ofDigits]

theorem readNumeral_replicate
    {zero : Char} {s : List Char}
    (hzero : value zero = some 0) (hne : s ≠ []) (count : Nat) :
    readNumeral base value (List.replicate count zero ++ s) = readNumeral base value s := by
  induction count with
  | zero => rfl
  | succ count ih =>
      rw [List.replicate_succ, List.cons_append, readNumeral_zero_cons hzero, ih]
      simp [hne]

end Reading

section Writing

variable {base : Nat} {value : Char → Option Nat}

theorem mapM_value_toDigits
    (hbase : 1 < base)
    (hvalue : ∀ d < base, value d.digitChar = some d)
    (n : Nat) :
    ∃ digits, (Nat.toDigits base n).mapM value = some digits ∧ ofDigits base digits = n := by
  induction n using Nat.strongRecOn with
  | ind n ih =>
      rcases Nat.lt_or_ge n base with hlt | hge
      · rw [Nat.toDigits_of_lt_base hlt]
        refine ⟨[n], ?_, ?_⟩
        · simp [List.mapM_cons, hvalue n hlt]
        · simp [ofDigits]
      · have hdiv : n / base < n := Nat.div_lt_self (by omega) hbase
        obtain ⟨digits, hdigits, hread⟩ := ih (n / base) hdiv
        have hmod : n % base < base := Nat.mod_lt n (by omega)
        rw [Nat.toDigits_of_base_le hbase hge]
        refine ⟨digits ++ [n % base], ?_, ?_⟩
        · simp [List.mapM_append, hdigits, List.mapM_cons, hvalue _ hmod]
        · rw [ofDigits_append_singleton, hread]
          exact Nat.div_add_mod n base

/-- What is written is read back. -/
theorem readNumeral_toDigits
    (hbase : 1 < base)
    (hvalue : ∀ d < base, value d.digitChar = some d)
    (n : Nat) :
    readNumeral base value (Nat.toDigits base n) = some n := by
  obtain ⟨digits, hdigits, hread⟩ := mapM_value_toDigits hbase hvalue n
  unfold readNumeral
  rw [if_neg (by simp), hdigits]
  exact congrArg some hread

/-- `%0{width}d` of a natural number, in any base: at least `width` digits. -/
def padded (base width n : Nat) : List Char :=
  let digits := Nat.toDigits base n
  List.replicate (width - digits.length) '0' ++ digits

theorem readNumeral_padded
    (hbase : 1 < base)
    (hvalue : ∀ d < base, value d.digitChar = some d)
    (width n : Nat) :
    readNumeral base value (padded base width n) = some n := by
  have hzero : value '0' = some 0 := hvalue 0 (by omega)
  unfold padded
  rw [readNumeral_replicate hzero Nat.toDigits_ne_nil, readNumeral_toDigits hbase hvalue]

end Writing

section Integers

/-- The value of an ASCII decimal digit. -/
def asciiDigit (c : Char) : Option Nat :=
  if c.isDigit then some (c.toNat - 48) else none

theorem asciiDigit_digitChar
    (d : Nat) (h : d < 10) :
    asciiDigit d.digitChar = some d := by
  unfold asciiDigit
  rw [Nat.isDigit_digitChar, if_pos (decide_eq_true h),
    Nat.toNat_digitChar_sub_48_of_lt_ten h]

/-- `str(n)` of an integer. -/
def printInt (n : Int) : List Char :=
  if n < 0 then '-' :: Nat.toDigits 10 n.natAbs else Nat.toDigits 10 n.natAbs

theorem isDigit_of_mem_toDigits_ten
    {n : Nat} {c : Char}
    (h : c ∈ Nat.toDigits 10 n) :
    c.isDigit = true :=
  Nat.isDigit_of_mem_toDigits (by omega) (by omega) h

theorem toDigits_ten_inj
    {m n : Nat} :
    Nat.toDigits 10 m = Nat.toDigits 10 n ↔ m = n := by
  constructor
  · intro h
    have hm := readNumeral_toDigits (by omega) asciiDigit_digitChar m
    rw [h, readNumeral_toDigits (by omega) asciiDigit_digitChar n] at hm
    exact (Option.some.inj hm).symm
  · exact congrArg _

/-- A printed integer consists of digits, after a minus sign perhaps. -/
theorem mem_printInt
    {n : Int} {c : Char}
    (h : c ∈ printInt n) :
    c = '-' ∨ c.isDigit = true := by
  unfold printInt at h
  split at h
  · rcases List.mem_cons.mp h with rfl | h
    · exact Or.inl rfl
    · exact Or.inr (isDigit_of_mem_toDigits_ten h)
  · exact Or.inr (isDigit_of_mem_toDigits_ten h)

/-- The digits of a natural number do not start with a sign. -/
theorem toDigits_ten_ne_minus
    (n : Nat) (rest : List Char) :
    Nat.toDigits 10 n ≠ '-' :: rest := by
  intro h
  have hdigit : ('-' : Char).isDigit = true :=
    isDigit_of_mem_toDigits_ten (n := n) (by rw [h]; exact List.mem_cons_self)
  revert hdigit
  decide

theorem printInt_inj
    {m n : Int} :
    printInt m = printInt n ↔ m = n := by
  constructor
  · intro h
    unfold printInt at h
    split at h
    · split at h
      · have habs := toDigits_ten_inj.mp (List.cons.inj h).2
        omega
      · exact absurd h.symm (toDigits_ten_ne_minus _ _)
    · split at h
      · exact absurd h (toDigits_ten_ne_minus _ _)
      · have habs := toDigits_ten_inj.mp h
        omega
  · exact congrArg _

end Integers

end Text
end YdbSnippets
