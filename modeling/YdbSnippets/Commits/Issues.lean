import YdbSnippets.Commits.LogParser
import Mathlib.Data.Finset.Dedup

/-!
# The issues that commit messages name

`find_missing_commits.py` looks for `#` and digits, in one message or in all
messages of a branch at once.
-/

namespace YdbSnippets
namespace Commits

open Python Text

section Searching

/-- `ISSUE_RE.findall(text)`: the digits after each `#`.  No digit is a `#`, so the
next match is looked for right behind it. -/
def findIssueIds : Str → List Str
  | [] => []
  | c :: rest =>
      let digits := rest.takeWhile Char.isDigit
      if c = '#' ∧ digits ≠ [] then digits :: findIssueIds rest
      else findIssueIds rest

/-- `extract_issue_ids` -/
def extractIssueIds (text : Str) : Finset Str :=
  (findIssueIds text).toFinset

/-- Only a `#` starts a match. -/
theorem findIssueIds_cons_of_ne
    {c : Char} (rest : Str) (hc : c ≠ '#') :
    findIssueIds (c :: rest) = findIssueIds rest :=
  if_neg fun h => hc h.1

/-- What `git log --format=%B` prints. -/
def printMessages (messages : List Str) : Str :=
  messages.flatMap fun message => message ++ ['\n']

/-- The text has the number after a `#`, and no digit behind it. -/
def NamesIssue (text id : Str) : Prop :=
  ∃ before after, text = before ++ '#' :: (id ++ after) ∧ id ≠ [] ∧
    (∀ c ∈ id, c.isDigit = true) ∧ ∀ c ∈ after.head?, c.isDigit = false

/-- All digits at the start of a text are taken. -/
theorem takeWhile_isDigit_eq_iff
    {text id : Str} :
    text.takeWhile Char.isDigit = id ↔
      ∃ after, text = id ++ after ∧ (∀ c ∈ id, c.isDigit = true) ∧
        ∀ c ∈ after.head?, c.isDigit = false := by
  constructor
  · rintro rfl
    refine ⟨text.dropWhile Char.isDigit, List.takeWhile_append_dropWhile.symm,
      fun c hc => List.mem_takeWhile_imp hc, fun c hc => ?_⟩
    have hnot := List.head?_dropWhile_not Char.isDigit text
    rw [Option.mem_def.mp hc] at hnot
    exact hnot
  · rintro ⟨after, rfl, hdigits, hafter⟩
    rw [List.takeWhile_append_of_pos hdigits]
    cases after with
    | nil => rw [List.takeWhile_nil, List.append_nil]
    | cons c after =>
        have hc : ¬ c.isDigit = true := by
          rw [hafter c rfl]
          decide
        rw [List.takeWhile_cons_of_neg hc, List.append_nil]

/-- A text names what its first character starts, and what the rest names. -/
theorem namesIssue_cons
    {c : Char} {rest id : Str} :
    NamesIssue (c :: rest) id ↔
      (c = '#' ∧ rest.takeWhile Char.isDigit = id ∧ id ≠ []) ∨ NamesIssue rest id := by
  constructor
  · rintro ⟨before, after, htext, hne, hdigits, hafter⟩
    cases before with
    | nil =>
        obtain ⟨hc, hrest⟩ := List.cons.inj htext
        exact Or.inl ⟨hc, takeWhile_isDigit_eq_iff.mpr ⟨after, hrest, hdigits, hafter⟩, hne⟩
    | cons d before =>
        obtain ⟨-, hrest⟩ := List.cons.inj htext
        exact Or.inr ⟨before, after, hrest, hne, hdigits, hafter⟩
  · rintro (⟨rfl, hid, hne⟩ | ⟨before, after, rfl, hid⟩)
    · obtain ⟨after, rfl, hdigits, hafter⟩ := takeWhile_isDigit_eq_iff.mp hid
      exact ⟨[], after, rfl, hne, hdigits, hafter⟩
    · exact ⟨c :: before, after, rfl, hid⟩

theorem mem_findIssueIds
    {text id : Str} :
    id ∈ findIssueIds text ↔ NamesIssue text id := by
  induction text with
  | nil =>
      refine iff_of_false List.not_mem_nil ?_
      rintro ⟨before, after, htext, -⟩
      cases before <;> cases htext
  | cons c rest ih =>
      rw [namesIssue_cons, ← ih, findIssueIds]
      by_cases hfound : c = '#' ∧ rest.takeWhile Char.isDigit ≠ []
      · obtain ⟨rfl, hne⟩ := hfound
        rw [if_pos ⟨rfl, hne⟩, List.mem_cons]
        refine or_congr_left ⟨?_, fun h => h.2.1.symm⟩
        rintro rfl
        exact ⟨rfl, rfl, hne⟩
      · rw [if_neg hfound]
        refine (or_iff_right ?_).symm
        rintro ⟨hc, rfl, hne⟩
        exact hfound ⟨hc, hne⟩

end Searching

section Logs

/-- No match goes across the end of a line. -/
theorem findIssueIds_append_newline
    (text rest : Str) :
    findIssueIds (text ++ '\n' :: rest) = findIssueIds text ++ findIssueIds rest := by
  have hnewline : ¬ '\n'.isDigit = true := by decide
  induction text with
  | nil =>
      exact findIssueIds_cons_of_ne rest (by decide)
  | cons c text ih =>
      have hdigits : (text ++ '\n' :: rest).takeWhile Char.isDigit =
          text.takeWhile Char.isDigit := by
        rw [List.takeWhile_append, List.takeWhile_cons_of_neg hnewline, List.append_nil]
        split
        · next hall => exact (List.takeWhile_prefix _).eq_of_length hall |>.symm
        · rfl
      rw [List.cons_append, findIssueIds, findIssueIds, hdigits, ih]
      split
      · rfl
      · rfl

/-- The matches in the log are those in its messages. -/
theorem findIssueIds_printMessages
    (messages : List Str) :
    findIssueIds (printMessages messages) = messages.flatMap findIssueIds := by
  induction messages with
  | nil => rfl
  | cons message messages ih =>
      have hprint : printMessages (message :: messages) =
          message ++ '\n' :: printMessages messages := by
        simp [printMessages]
      rw [hprint, findIssueIds_append_newline, ih, List.flatMap_cons]

theorem takeWhile_isDigit_universalNewlines
    (text : Str) :
    (universalNewlines text).takeWhile Char.isDigit = text.takeWhile Char.isDigit := by
  fun_induction universalNewlines text with
  | case1 => rfl
  | case2 rest ih => rfl
  | case3 rest _ ih => rfl
  | case4 c rest _ _ ih =>
      rw [List.takeWhile_cons, List.takeWhile_cons, ih]

/-- The line ends do not matter. -/
theorem findIssueIds_universalNewlines
    (text : Str) :
    findIssueIds (universalNewlines text) = findIssueIds text := by
  fun_induction universalNewlines text with
  | case1 => rfl
  | case2 rest ih =>
      rw [findIssueIds_cons_of_ne _ (by decide), ih, findIssueIds_cons_of_ne _ (by decide),
        findIssueIds_cons_of_ne _ (by decide)]
  | case3 rest _ ih =>
      rw [findIssueIds_cons_of_ne _ (by decide), ih, findIssueIds_cons_of_ne _ (by decide)]
  | case4 c rest _ _ ih =>
      rw [findIssueIds, findIssueIds, takeWhile_isDigit_universalNewlines, ih]

@[simp] theorem extractIssueIds_universalNewlines
    (text : Str) :
    extractIssueIds (universalNewlines text) = extractIssueIds text := by
  rw [extractIssueIds, findIssueIds_universalNewlines, extractIssueIds]

theorem mem_extractIssueIds
    {text id : Str} :
    id ∈ extractIssueIds text ↔ NamesIssue text id := by
  rw [extractIssueIds, List.mem_toFinset, mem_findIssueIds]

/-- The issues of a log are those that one of its messages names. -/
theorem mem_extractIssueIds_printMessages
    {messages : List Str} {id : Str} :
    id ∈ extractIssueIds (printMessages messages) ↔
      ∃ message ∈ messages, NamesIssue message id := by
  rw [extractIssueIds, List.mem_toFinset, findIssueIds_printMessages, List.mem_flatMap]
  exact exists_congr fun message => and_congr_right fun _ => mem_findIssueIds

end Logs

end Commits
end YdbSnippets
