import YdbSnippets.Python.Json
import Mathlib.Data.Char
import Mathlib.Data.List.DropRight
import Mathlib.Data.List.Lex
import Mathlib.Data.Nat.Notation
import Mathlib.Order.RelClasses

/-!
# Strings as Python handles them

The string methods the scripts use.  What depends on the Unicode tables or on
library modules of the interpreter is gathered in `Interpreter`; of `lower`
the development relies on four documented facts, of the rest on nothing.
-/

namespace YdbSnippets
namespace Python

section Order

-- Sorting a set of strings refers to these.
instance : IsTrans Str (· ≤ ·) := instIsTransLe

instance : Std.Antisymm (α := Str) (· ≤ ·) := instAntisymmLe

instance : Std.Total (α := Str) (· ≤ ·) := LE.total

end Order

section Spaces

/-- `str.isspace` of one character. -/
def isSpace (c : Char) : Bool :=
  let n := c.toNat
  (9 ≤ n && n ≤ 13) || (28 ≤ n && n ≤ 32) || n == 0x85 || n == 0xa0 || n == 0x1680 ||
    (0x2000 ≤ n && n ≤ 0x200a) || n == 0x2028 || n == 0x2029 || n == 0x202f ||
    n == 0x205f || n == 0x3000

theorem isDigit_iff_toNat
    {c : Char} :
    c.isDigit = true ↔ 48 ≤ c.toNat ∧ c.toNat ≤ 57 := by
  rw [Char.isDigit, Bool.and_eq_true, decide_eq_true_eq, decide_eq_true_eq]
  exact Iff.rfl

/-- The printable characters of ASCII are no white space, but for the blank. -/
theorem isSpace_of_bounds
    {c : Char} (hlow : 33 ≤ c.toNat) (hhigh : c.toNat ≤ 126) :
    isSpace c = false := by
  simp only [isSpace, Bool.or_eq_false_iff, Bool.and_eq_false_iff,
    decide_eq_false_iff_not, beq_eq_false_iff_ne]
  omega

/-- `s.strip()` -/
def strip (s : Str) : Str :=
  (s.dropWhile isSpace).rdropWhile isSpace

/-- `s.rstrip(c)` for one character. -/
def rstrip (c : Char) (s : Str) : Str :=
  s.rdropWhile (· == c)

/-- `s.endswith(suffix)` -/
def endsWith (s suffix : Str) : Bool :=
  suffix.isSuffixOf s

/-- Nothing is stripped between two characters that are no spaces. -/
theorem strip_eq_self
    {s : Str}
    (hhead : ∀ c ∈ s.head?, isSpace c = false)
    (hlast : ∀ c ∈ s.getLast?, isSpace c = false) :
    strip s = s := by
  have hdrop : s.dropWhile isSpace = s := by
    cases s with
    | nil => rfl
    | cons c rest =>
        have hc : isSpace c = false := hhead c rfl
        simp [List.dropWhile, hc]
  unfold strip
  rw [hdrop]
  cases s using List.reverseRecOn with
  | nil => rfl
  | append_singleton init c =>
      have hc : isSpace c = false := hlast c (by simp)
      rw [List.rdropWhile_concat_neg _ _ _ (by simp [hc])]

/-- Nothing is left of a text of spaces, and of no other text. -/
theorem strip_eq_nil_iff
    {s : Str} :
    strip s = [] ↔ ∀ c ∈ s, isSpace c = true := by
  unfold strip
  rw [List.rdropWhile_eq_nil_iff]
  constructor
  · intro h c hc
    have hnil : s.dropWhile isSpace = [] := by
      cases hdrop : s.dropWhile isSpace with
      | nil => rfl
      | cons d tail =>
          have hnot := List.head?_dropWhile_not isSpace s
          rw [hdrop] at hnot h
          simp only [List.head?_cons] at hnot
          rw [h d List.mem_cons_self] at hnot
          cases hnot
    exact List.dropWhile_eq_nil_iff.mp hnil c hc
  · intro h c hc
    exact h c ((List.dropWhile_suffix _).subset hc)

/-- A stripped string does not start with a space. -/
theorem head_strip
    {s : Str} {c : Char}
    (h : c ∈ (strip s).head?) :
    isSpace c = false := by
  have hprefix : strip s <+: s.dropWhile isSpace := List.rdropWhile_prefix _ _
  obtain ⟨rest, hrest⟩ := hprefix
  cases hs : strip s with
  | nil =>
      rw [hs] at h
      cases h
  | cons d tail =>
      rw [hs] at h hrest
      cases h
      by_contra hspace
      have hcond := List.head_dropWhile_not isSpace (l := s) (by rw [← hrest]; simp)
      simp only [← hrest, List.cons_append, List.head_cons] at hcond
      exact hspace hcond

theorem rstrip_append_of_ne
    {c d : Char} (s : Str)
    (h : d ≠ c) :
    rstrip c (s ++ [d]) = s ++ [d] := by
  unfold rstrip
  rw [List.rdropWhile_concat_neg _ _ _ (by simpa using h)]

/-- Stripping a character takes away the one that was appended. -/
theorem rstrip_append_self
    (c : Char) (s : Str) :
    rstrip c (s ++ [c]) = rstrip c s := by
  unfold rstrip
  rw [List.rdropWhile_concat_pos _ _ _ (by simp)]

theorem rstrip_prefix
    (c : Char) (s : Str) :
    rstrip c s <+: s :=
  List.rdropWhile_prefix _ _

end Spaces

section Interpreter

/-- What the scripts use of the interpreter's Unicode tables and libraries. -/
structure Interpreter where
  /-- `str.lower` -/
  lower : Str → Str
  /-- The characters that are their own lower case. -/
  isLowered : Char → Bool
  /-- Only such characters come out of `lower`. -/
  isLowered_of_mem : ∀ s, ∀ c ∈ lower s, isLowered c = true
  /-- A string of such characters is left alone. -/
  lower_of_isLowered : ∀ s, (∀ c ∈ s, isLowered c = true) → lower s = s
  /-- ASCII is lowered as everywhere. -/
  isLowered_ascii : ∀ c : Char, c.toNat < 128 → ¬ (65 ≤ c.toNat ∧ c.toNat ≤ 90) →
    isLowered c = true
  /-- No space comes from a character that is none. -/
  isSpace_head_lower : ∀ c s, isSpace c = false →
    ∀ d ∈ (lower (c :: s)).head?, isSpace d = false
  /-- `str.isdigit` of one character. -/
  isDigit : Char → Bool
  /-- The value `int` gives a decimal digit. -/
  decimal : Char → Option Nat
  /-- `ipaddress.ip_address` reads the text as an IPv6 address. -/
  isIPv6 : Str → Bool

/-- The lower case of an ASCII letter. -/
def asciiLower (c : Char) : Char :=
  if 65 ≤ c.toNat ∧ c.toNat ≤ 90 then Char.ofNat (c.toNat + 32) else c

theorem asciiLower_toNat (c : Char) :
    (asciiLower c).toNat =
      if 65 ≤ c.toNat ∧ c.toNat ≤ 90 then c.toNat + 32 else c.toNat := by
  unfold asciiLower
  split
  · next h =>
      have hvalid : (c.toNat + 32).isValidChar := Or.inl (by omega)
      unfold Char.ofNat
      rw [dif_pos hvalid]
      rfl
  · rfl

/-- An interpreter that only knows ASCII. -/
def asciiInterpreter : Interpreter where
  lower := List.map asciiLower
  isLowered c := !decide (65 ≤ c.toNat ∧ c.toNat ≤ 90)
  isLowered_of_mem := by
    intro s c hc
    obtain ⟨d, _, rfl⟩ := List.mem_map.mp hc
    have hval := asciiLower_toNat d
    simp only [Bool.not_eq_true', decide_eq_false_iff_not]
    split at hval <;> omega
  lower_of_isLowered := by
    intro s hs
    refine List.map_congr_left (g := id) ?_ |>.trans (List.map_id s)
    intro c hc
    have hc := hs c hc
    simp only [Bool.not_eq_true', decide_eq_false_iff_not] at hc
    rw [asciiLower, if_neg hc, id]
  isLowered_ascii := by
    intro c _ hc
    simp only [Bool.not_eq_true', decide_eq_false_iff_not]
    exact hc
  isSpace_head_lower := by
    intro c s hc d hd
    simp only [List.map_cons, List.head?_cons, Option.mem_def, Option.some.injEq] at hd
    subst hd
    by_cases hupper : 65 ≤ c.toNat ∧ c.toNat ≤ 90
    · have hval := asciiLower_toNat c
      rw [if_pos hupper] at hval
      exact isSpace_of_bounds (by omega) (by omega)
    · rw [asciiLower, if_neg hupper]
      exact hc
  isDigit c := c.isDigit
  decimal c := if c.isDigit then some (c.toNat - 48) else none
  isIPv6 _ := false

end Interpreter

end Python
end YdbSnippets
