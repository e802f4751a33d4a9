import YdbSnippets.Python.Text

/-!
# Words

`s.split()`: the words of a text, between runs of white space.
-/

namespace YdbSnippets
namespace Python

section Words

/-- `s.split()` -/
def words (s : Str) : List Str :=
  (s.splitOnP isSpace).filter fun word => !word.isEmpty

/-- `' '.join(s.split())` -/
def oneLine (s : Str) : Str :=
  [' '].intercalate (words s)

theorem words_append_space
    {c : Char} (s t : Str)
    (hc : isSpace c = true) :
    words (s ++ c :: t) = words s ++ words t := by
  unfold words
  rw [List.splitOnP_append_cons _ _ hc, List.filter_append]

/-- A text without white space is one word, unless it is empty. -/
theorem words_of_noSpace
    {s : Str}
    (hne : s ≠ [])
    (h : ∀ c ∈ s, isSpace c = false) :
    words s = [s] := by
  unfold words
  rw [List.splitOnP_eq_singleton (by simpa using h)]
  simp [hne]

@[simp] theorem words_nil : words [] = [] := rfl

/-- A text without words consists of white space. -/
theorem words_eq_nil_iff
    {s : Str} :
    words s = [] ↔ ∀ c ∈ s, isSpace c = true := by
  induction s with
  | nil => simp
  | cons c rest ih =>
      cases hc : isSpace c with
      | true =>
          have hsplit := words_append_space [] rest hc
          rw [List.nil_append, words_nil, List.nil_append] at hsplit
          rw [hsplit, ih, List.forall_mem_cons]
          simp [hc]
      | false =>
          obtain ⟨first, others, hsplit⟩ :=
            List.exists_cons_of_ne_nil (List.splitOnP_ne_nil isSpace rest)
          unfold words
          rw [List.splitOnP_cons_eq_if_modifyHead, hsplit]
          simp [hc]

theorem oneLine_eq_nil_iff
    {s : Str} :
    oneLine s = [] ↔ ∀ c ∈ s, isSpace c = true := by
  rw [← words_eq_nil_iff]
  unfold oneLine
  cases hwords : words s with
  | nil => exact iff_of_true rfl rfl
  | cons word rest =>
      have hmem : word ∈ words s := by
        rw [hwords]
        exact List.mem_cons_self
      have hword : word ≠ [] := by simpa using (List.mem_filter.mp hmem).2
      refine iff_of_false ?_ (List.cons_ne_nil word rest)
      cases rest with
      | nil => simpa using hword
      | cons next others =>
          rw [List.intercalate_cons_cons]
          simp

end Words

end Python
end YdbSnippets
