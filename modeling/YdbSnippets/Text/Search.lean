import Mathlib.Data.List.DropRight
import Mathlib.Data.List.Infix

/-!
# Searching and cutting character lists

Operations that the string libraries of several languages share: the last
occurrence of a character, an occurrence of a substring, and the components
of a text between separators.
-/

namespace YdbSnippets
namespace Text

-- Membership in a list of strings is decided with it.
instance lawfulBEqStrings : LawfulBEq (List Char) := List.instLawfulBEq

section Search

variable {α : Type} [DecidableEq α]

/-- Position of the last occurrence of `c`. -/
def lastIndex (c : α) : List α → Option Nat
  | [] => none
  | x :: rest =>
      match lastIndex c rest with
      | some i => some (i + 1)
      | none => if x = c then some 0 else none

/-- `needle` occurs somewhere in the list. -/
def occurs (needle : List α) : List α → Bool
  | [] => needle.isEmpty
  | x :: rest => needle.isPrefixOf (x :: rest) || occurs needle rest

theorem lastIndex_eq_none_iff
    (c : α) (s : List α) :
    lastIndex c s = none ↔ c ∉ s := by
  induction s with
  | nil => simp [lastIndex]
  | cons x rest ih =>
      cases h : lastIndex c rest with
      | some i =>
          have hmem : c ∈ rest := by
            by_contra hc
            rw [ih.mpr hc] at h
            cases h
          simp [lastIndex, h, hmem]
      | none =>
          have hmem : c ∉ rest := ih.mp h
          by_cases hx : x = c
          · simp [lastIndex, h, hx]
          · simp [lastIndex, h, hx, hmem, Ne.symm hx]

/-- A text splits at the last occurrence of `c`. -/
theorem lastIndex_append_cons
    (c : α) (a b : List α)
    (hb : c ∉ b) :
    lastIndex c (a ++ c :: b) = some a.length := by
  induction a with
  | nil =>
      have hnone := (lastIndex_eq_none_iff c b).mpr hb
      simp [lastIndex, hnone]
  | cons x a ih =>
      simp [lastIndex, ih]

/-- The position found splits the text, and `c` does not occur after it. -/
theorem lastIndex_split
    {c : α} {s : List α} {i : Nat}
    (h : lastIndex c s = some i) :
    s = s.take i ++ c :: s.drop (i + 1) ∧ c ∉ s.drop (i + 1) := by
  induction s generalizing i with
  | nil => simp [lastIndex] at h
  | cons x rest ih =>
      cases hr : lastIndex c rest with
      | some j =>
          simp only [lastIndex, hr, Option.some.injEq] at h
          subst h
          obtain ⟨hsplit, hnot⟩ := ih hr
          refine ⟨?_, by simpa using hnot⟩
          simpa using hsplit
      | none =>
          by_cases hx : x = c
          · simp only [lastIndex, hr, hx, if_true, Option.some.injEq] at h
            subst h
            subst hx
            exact ⟨by simp, by simpa using (lastIndex_eq_none_iff x rest).mp hr⟩
          · simp [lastIndex, hr, hx] at h

/-- The position found is the last one at which `c` stands. -/
theorem lastIndex_eq_some_iff
    {c : α} {s : List α} {i : Nat} :
    lastIndex c s = some i ↔ s[i]? = some c ∧ ∀ j, s[j]? = some c → j ≤ i := by
  induction s generalizing i with
  | nil => simp [lastIndex]
  | cons x rest ih =>
      cases h : lastIndex c rest with
      | some j =>
          obtain ⟨hget, hlast⟩ := ih.mp h
          simp only [lastIndex, h, Option.some.injEq]
          constructor
          · rintro rfl
            refine ⟨by simpa using hget, ?_⟩
            intro k hk
            cases k with
            | zero => omega
            | succ k =>
                have hle := hlast k (by simpa using hk)
                omega
          · rintro ⟨hi, hmax⟩
            have hle := hmax (j + 1) (by simpa using hget)
            cases i with
            | zero => omega
            | succ i =>
                have hge := hlast i (by simpa using hi)
                omega
      | none =>
          have hnot := (lastIndex_eq_none_iff c rest).mp h
          have hsucc : ∀ k, (x :: rest)[k + 1]? ≠ some c := by
            intro k hk
            rw [List.getElem?_cons_succ] at hk
            exact hnot (List.mem_of_getElem? hk)
          by_cases hx : x = c
          · simp only [lastIndex, h, hx, if_true, Option.some.injEq]
            constructor
            · rintro rfl
              refine ⟨by simp, ?_⟩
              intro k hk
              cases k with
              | zero => exact le_refl 0
              | succ k => exact absurd (hx ▸ hk) (hsucc k)
            · rintro ⟨hi, -⟩
              cases i with
              | zero => rfl
              | succ i => exact absurd (hx ▸ hi) (hsucc i)
          · simp only [lastIndex, h, if_neg hx, reduceCtorEq, false_iff]
            rintro ⟨hi, -⟩
            cases i with
            | zero => exact hx (by simpa using hi)
            | succ i => exact hsucc i hi

/-- The list without what satisfies `p` at both ends. -/
def trim (p : α → Bool) (s : List α) : List α :=
  (s.dropWhile p).rdropWhile p

omit [DecidableEq α] in
/-- Nothing is trimmed between two entries that do not satisfy `p`. -/
theorem trim_eq_self
    {p : α → Bool} {s : List α}
    (hhead : ∀ c ∈ s.head?, p c = false)
    (hlast : ∀ c ∈ s.getLast?, p c = false) :
    trim p s = s := by
  have hdrop : s.dropWhile p = s := by
    cases s with
    | nil => rfl
    | cons c rest =>
        have hc : p c = false := hhead c rfl
        simp [List.dropWhile, hc]
  unfold trim
  rw [hdrop]
  cases s using List.reverseRecOn with
  | nil => rfl
  | append_singleton init c =>
      have hc : p c = false := hlast c (by simp)
      rw [List.rdropWhile_concat_neg _ _ _ (by simp [hc])]

/-- The non-empty parts of a text between separators. -/
def components (sep : α) (s : List α) : List (List α) :=
  (s.splitOn sep).filter (fun part => !part.isEmpty)

@[simp] theorem components_nil (sep : α) :
    components sep [] = [] := by
  simp [components]

/-- Splitting at a separator splits the components. -/
theorem components_append_cons
    (sep : α) (a b : List α) :
    components sep (a ++ sep :: b) = components sep a ++ components sep b := by
  unfold components
  rw [List.splitOn_append_cons_self, List.filter_append]

/-- A non-empty text without separators is its only component. -/
theorem components_word
    {sep : α} {s : List α}
    (hsep : sep ∉ s) (hs : s ≠ []) :
    components sep s = [s] := by
  unfold components
  rw [List.splitOn_eq_singleton hsep]
  simp [hs]

/-- A trailing separator adds no component. -/
theorem components_append_sep
    (sep : α) (s : List α) :
    components sep (s ++ [sep]) = components sep s := by
  rw [components_append_cons]
  simp

/-- Trailing separators add no component. -/
theorem components_rdropWhile
    (sep : α) (s : List α) :
    components sep (s.rdropWhile (· == sep)) = components sep s := by
  induction s using List.reverseRecOn with
  | nil => rfl
  | append_singleton s x ih =>
      by_cases hx : x = sep
      · subst hx
        rw [List.rdropWhile_concat_pos _ _ _ (by simp), ih, components_append_sep]
      · rw [List.rdropWhile_concat_neg _ _ _ (by simpa using hx)]

/-- Splitting a joined text splits the parts. -/
theorem splitOn_intercalate_eq_flatMap
    (sep : α) {parts : List (List α)}
    (hne : parts ≠ []) :
    ([sep].intercalate parts).splitOn sep = parts.flatMap (List.splitOn sep) := by
  induction parts with
  | nil => exact absurd rfl hne
  | cons part rest ih =>
      cases rest with
      | nil => simp
      | cons next others =>
          rw [List.intercalate_cons_cons, List.append_assoc,
            List.singleton_append, List.splitOn_append_cons_self, ih (List.cons_ne_nil _ _)]
          rfl

/-- A text of lines, each with its separator, splits into the lines. -/
theorem splitOn_flatMap_append
    {sep : α} {lines : List (List α)}
    (h : ∀ line ∈ lines, sep ∉ line) :
    (lines.flatMap fun line => line ++ [sep]).splitOn sep = lines ++ [[]] := by
  induction lines with
  | nil => simp
  | cons line rest ih =>
      obtain ⟨hline, hrest⟩ := List.forall_mem_cons.mp h
      rw [List.flatMap_cons, List.append_assoc, List.singleton_append,
        List.splitOn_append_cons_self_of_not_mem hline, ih hrest, List.cons_append]

/-- What holds of the separator and of every part holds of the whole text. -/
theorem forall_mem_of_splitOn
    {p : α → Prop} {sep : α} {s : List α}
    (hsep : p sep)
    (hparts : ∀ part ∈ s.splitOn sep, ∀ c ∈ part, p c) :
    ∀ c ∈ s, p c := by
  induction s with
  | nil => simp
  | cons x rest ih =>
      rw [List.splitOn_cons_eq_if_modifyHead] at hparts
      by_cases hx : x = sep
      · simp only [hx, beq_self_eq_true, if_true, List.mem_cons] at hparts
        intro c hc
        rcases List.mem_cons.mp hc with rfl | hc
        · rw [hx]
          exact hsep
        · exact ih (fun part hpart => hparts part (Or.inr hpart)) c hc
      · obtain ⟨first, others, hsplit⟩ :=
          List.exists_cons_of_ne_nil (List.splitOn_ne_nil sep rest)
        simp only [beq_iff_eq, hx, if_false, hsplit, List.modifyHead_cons,
          List.mem_cons] at hparts
        have hfirst := hparts (x :: first) (Or.inl rfl)
        have hrest : ∀ c ∈ rest, p c := by
          apply ih
          intro part hpart
          rw [hsplit] at hpart
          rcases List.mem_cons.mp hpart with rfl | hpart
          · exact fun c hc => hfirst c (List.mem_cons_of_mem _ hc)
          · exact hparts part (Or.inr hpart)
        intro c hc
        rcases List.mem_cons.mp hc with rfl | hc
        · exact hfirst c List.mem_cons_self
        · exact hrest c hc

end Search

end Text
end YdbSnippets
