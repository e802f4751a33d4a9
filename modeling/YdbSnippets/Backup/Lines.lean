import YdbSnippets.Backup.Walking
import YdbSnippets.Backup.Braces

/-!
# Lines around a block

Which part of the gaps before and after a block its deletion takes along.
-/

namespace YdbSnippets
namespace Backup

open Python

section Stripping

theorem strip_isEmpty_iff
    {s : Str} :
    (strip s).isEmpty = true ↔ ∀ c ∈ s, isSpace c = true := by
  rw [List.isEmpty_iff, strip_eq_nil_iff]

theorem isSpace_of_isWs
    {c : Char}
    (h : isWs c = true) :
    isSpace c = true := by
  simp only [isWs, Bool.or_eq_true, beq_iff_eq] at h
  rcases h with ((rfl | rfl) | rfl) | rfl <;> rfl

end Stripping

section Gaps

/-- Where the last line of a gap starts. -/
def lastLine (g : Str) : Nat :=
  match Text.lastIndex '\n' g with
  | some j => j + 1
  | none => 0

/-- How much of a gap is the end of the line it starts on, if there is nothing
else on that line. -/
def lineEnd (g : Str) : Nat :=
  match g.dropWhile isBlank with
  | '\n' :: _ => (g.takeWhile isBlank).length + 1
  | '\r' :: '\n' :: _ => (g.takeWhile isBlank).length + 2
  | _ => 0

theorem lastLine_eq_zero
    {g : Str} (h : '\n' ∉ g) :
    lastLine g = 0 := by
  unfold lastLine
  rw [(Text.lastIndex_eq_none_iff '\n' g).mpr h]

/-- The last line starts behind the last newline. -/
theorem exists_lastLine
    {g : Str} (h : '\n' ∈ g) :
    ∃ a b, g = a ++ '\n' :: b ∧ '\n' ∉ b ∧ lastLine g = a.length + 1 := by
  cases hindex : Text.lastIndex '\n' g with
  | none => exact absurd h ((Text.lastIndex_eq_none_iff '\n' g).mp hindex)
  | some j =>
      obtain ⟨hsplit, hnot⟩ := Text.lastIndex_split hindex
      have hlt : j < g.length := by
        have hlength := congrArg List.length hsplit
        simp only [List.length_append, List.length_take, List.length_cons,
          List.length_drop] at hlength
        omega
      refine ⟨g.take j, g.drop (j + 1), hsplit, hnot, ?_⟩
      unfold lastLine
      rw [hindex, List.length_take, Nat.min_eq_left hlt.le]

theorem lastLine_append_of_notMem
    (a : Str) {b : Str}
    (hb : '\n' ∉ b) :
    lastLine (a ++ b) = lastLine a := by
  by_cases ha : '\n' ∈ a
  · obtain ⟨c, d, rfl, hd, hlast⟩ := exists_lastLine ha
    rw [hlast, List.append_assoc, List.cons_append]
    unfold lastLine
    rw [Text.lastIndex_append_cons '\n' c _ (by simp [hd, hb])]
  · rw [lastLine_eq_zero ha, lastLine_eq_zero (by simp [ha, hb])]

/-- The last line of a text with a newline is the one of its end. -/
theorem lastLine_append_of_mem
    (a : Str) {b : Str}
    (hb : '\n' ∈ b) :
    lastLine (a ++ b) = a.length + lastLine b := by
  obtain ⟨c, d, rfl, hd, hlast⟩ := exists_lastLine hb
  rw [hlast, ← List.append_assoc]
  unfold lastLine
  rw [Text.lastIndex_append_cons '\n' _ _ hd, List.length_append]
  rfl

theorem lastLine_append_cons (a b : Str) :
    lastLine (a ++ '\n' :: b) = a.length + 1 + lastLine b := by
  by_cases hb : '\n' ∈ b
  · have h := lastLine_append_of_mem (a ++ ['\n']) hb
    rw [List.append_assoc] at h
    rw [List.length_append] at h
    exact h
  · rw [lastLine_eq_zero hb]
    unfold lastLine
    rw [Text.lastIndex_append_cons '\n' a b hb]

theorem lastLine_le (g : Str) :
    lastLine g ≤ g.length := by
  by_cases h : '\n' ∈ g
  · obtain ⟨a, b, rfl, -, hlast⟩ := exists_lastLine h
    rw [hlast]
    simp
  · rw [lastLine_eq_zero h]
    exact Nat.zero_le _

/-- What the end of a line consists of. -/
theorem lineEnd_cases (g : Str) :
    lineEnd g = 0 ∨
      ∃ blanks eol rest, g = blanks ++ (eol ++ '\n' :: rest) ∧
        (∀ c ∈ blanks ++ eol, isWs c = true ∧ c ≠ '\n') ∧
        lineEnd g = (blanks ++ eol).length + 1 := by
  have hsplit := List.takeWhile_append_dropWhile (p := isBlank) (l := g)
  have hblank : ∀ c ∈ g.takeWhile isBlank, isWs c = true ∧ c ≠ '\n' := by
    intro c hc
    have h := List.mem_takeWhile_imp hc
    simp only [isBlank, Bool.or_eq_true, beq_iff_eq] at h
    rcases h with rfl | rfl <;> decide
  unfold lineEnd
  split
  · next rest heq =>
      right
      refine ⟨g.takeWhile isBlank, [], rest, ?_, by simpa using hblank, by simp⟩
      rw [List.nil_append, ← heq, hsplit]
  · next rest heq =>
      right
      refine ⟨g.takeWhile isBlank, ['\r'], rest, ?_, ?_, by simp⟩
      · rw [List.cons_append, List.nil_append, ← heq, hsplit]
      · intro c hc
        rcases List.mem_append.mp hc with hc | hc
        · exact hblank c hc
        · rw [List.mem_singleton.mp hc]
          decide
  · exact Or.inl rfl

/-- The end of the first line is not behind the start of the last one. -/
theorem lineEnd_le_lastLine (g : Str) :
    lineEnd g ≤ lastLine g := by
  rcases lineEnd_cases g with h | ⟨blanks, eol, rest, hsplit, -, h⟩
  · rw [h]
    exact Nat.zero_le _
  · have hlast := lastLine_append_cons (blanks ++ eol) rest
    rw [List.append_assoc, ← hsplit] at hlast
    omega

section Fillers

variable {kind : Char → Bool} {g : Str}

/-- Without a newline there is no comment. -/
theorem IsFiller.kind_of_notMem
    (hg : IsFiller kind g)
    (hnot : '\n' ∉ g) :
    ∀ c ∈ g, kind c = true := by
  induction hg with
  | nil => simp
  | char hc _ ih =>
      simp only [List.mem_cons, not_or] at hnot
      intro d hd
      rcases List.mem_cons.mp hd with rfl | hd
      · exact hc
      · exact ih hnot.2 d hd
  | comment _ _ _ => simp at hnot

/-- The lines up to the last one are filler, and the last one has no comment,
since a comment ends its line. -/
theorem IsFiller.split_lastLine
    (hg : IsFiller kind g) :
    IsFiller kind (g.take (lastLine g)) ∧ ∀ c ∈ g.drop (lastLine g), kind c = true := by
  induction hg with
  | nil => exact ⟨.nil, by simp⟩
  | @char c more hc hmore ih =>
      by_cases hnewline : '\n' ∈ more
      · have hlast := lastLine_append_of_mem [c] hnewline
        rw [List.singleton_append, List.length_singleton, Nat.add_comm] at hlast
        rw [hlast, List.take_succ_cons, List.drop_succ_cons]
        exact ⟨.char hc ih.1, ih.2⟩
      · have hlast := lastLine_append_of_notMem [c] hnewline
        rw [List.singleton_append] at hlast
        have hblank := hmore.kind_of_notMem hnewline
        by_cases heq : c = '\n'
        · subst heq
          have hone : lastLine ['\n'] = 1 := rfl
          rw [hlast, hone]
          exact ⟨.char hc .nil, hblank⟩
        · rw [hlast, lastLine_eq_zero (by simpa using Ne.symm heq)]
          refine ⟨.nil, ?_⟩
          intro d hd
          rcases List.mem_cons.mp hd with rfl | hd
          · exact hc
          · exact hblank d hd
  | @comment line more hline _ ih =>
      have hlast := lastLine_append_cons ('#' :: line) more
      rw [List.cons_append] at hlast
      have hsplit : '#' :: (line ++ '\n' :: more) = ('#' :: line ++ ['\n']) ++ more := by
        simp
      have hlength : lastLine ('#' :: (line ++ '\n' :: more)) =
          ('#' :: line ++ ['\n']).length + lastLine more := by
        rw [hlast]
        simp
      rw [hlength, hsplit, List.take_length_add_append, List.drop_length_add_append]
      refine ⟨?_, ih.2⟩
      have htake := IsFiller.comment hline ih.1
      simpa using htake

theorem IsFiller.of_forall
    (hg : ∀ c ∈ g, kind c = true) :
    IsFiller kind g := by
  induction g with
  | nil => exact .nil
  | cons c g ih =>
      exact .char (hg c List.mem_cons_self) (ih (fun d hd => hg d (List.mem_cons_of_mem _ hd)))

theorem IsFiller.drop_front
    {front rest : Str}
    (hfront : ∀ c ∈ front, c ≠ '#')
    (hg : IsFiller kind (front ++ rest)) :
    IsFiller kind rest := by
  induction front with
  | nil => exact hg
  | cons c front ih =>
      refine ih (fun d hd => hfront d (List.mem_cons_of_mem _ hd)) ?_
      have hc := hfront c List.mem_cons_self
      rw [List.cons_append] at hg
      generalize hwhole : c :: (front ++ rest) = whole at hg
      cases hg with
      | nil => cases hwhole
      | char _ hmore =>
          cases hwhole
          exact hmore
      | comment _ _ => exact absurd (List.cons.inj hwhole).1 hc

/-- The end of a line is blank, and it is followed by the lines up to the last
one. -/
theorem lineEnd_split (g : Str) :
    ∃ blanks rest, g = blanks ++ rest ∧
      (∀ c ∈ blanks, isWs c = true) ∧
      lineEnd g = blanks.length ∧
      lastLine g = blanks.length + lastLine rest := by
  rcases lineEnd_cases g with h | ⟨blanks, eol, rest, hsplit, hws, h⟩
  · exact ⟨[], g, rfl, by simp, h, by simp⟩
  · refine ⟨blanks ++ eol ++ ['\n'], rest, by rw [hsplit]; simp, ?_, ?_, ?_⟩
    · intro c hc
      rcases List.mem_append.mp hc with hc | hc
      · exact (hws c hc).1
      · rw [List.mem_singleton.mp hc]
        rfl
    · rw [h]
      exact (@List.length_append _ (blanks ++ eol) ['\n']).symm
    · have hlast := lastLine_append_cons (blanks ++ eol) rest
      rw [List.append_assoc, ← hsplit] at hlast
      rw [hlast, @List.length_append _ (blanks ++ eol) ['\n']]
      rfl

theorem ne_hash_of_isWs
    {c : Char} (hc : isWs c = true) :
    c ≠ '#' := by
  rintro rfl
  cases hc

/-- What follows the end of the first line is filler. -/
theorem IsFiller.drop_lineEnd
    (hg : IsFiller kind g) :
    IsFiller kind (g.drop (lineEnd g)) := by
  obtain ⟨blanks, rest, rfl, hws, hend, -⟩ := lineEnd_split g
  rw [hend, List.drop_left]
  exact hg.drop_front fun c hc => ne_hash_of_isWs (hws c hc)

theorem IsFiller.take_lineEnd
    (hkind : ∀ c, isWs c = true → kind c = true) (g : Str) :
    IsFiller kind (g.take (lineEnd g)) := by
  obtain ⟨blanks, rest, rfl, hws, hend, -⟩ := lineEnd_split g
  rw [hend, List.take_left]
  exact .of_forall fun c hc => hkind c (hws c hc)

/-- The lines before the last one are filler without the end of the first. -/
theorem IsFiller.between_lines
    (hg : IsFiller kind g) :
    IsFiller kind ((g.take (lastLine g)).drop (lineEnd g)) := by
  have htake := hg.split_lastLine.1
  obtain ⟨blanks, rest, hsplit, hws, hend, hlast⟩ := lineEnd_split g
  rw [hend, hlast, hsplit, List.take_length_add_append, List.drop_left]
  rw [hlast, hsplit, List.take_length_add_append] at htake
  exact htake.drop_front fun c hc => ne_hash_of_isWs (hws c hc)

theorem IsFiller.append
    {a b : Str} (ha : IsFiller kind a) (hb : IsFiller kind b) :
    IsFiller kind (a ++ b) := by
  induction ha with
  | nil => exact hb
  | char hc _ ih => exact .char hc ih
  | @comment line more hline _ ih =>
      have heq : '#' :: (line ++ '\n' :: more) ++ b = '#' :: (line ++ '\n' :: (more ++ b)) := by
        simp
      rw [heq]
      exact .comment hline ih

/-- A gap between fields is filled with blanks. -/
theorem isGap_iff :
    IsGap g ↔ IsFiller isWs g := by
  constructor
  · intro hg
    induction hg with
    | nil => exact .nil
    | ws hc _ ih => exact .char hc ih
    | comment hline _ ih => exact .comment hline ih
  · intro hg
    induction hg with
    | nil => exact .nil
    | char hc _ ih => exact .ws hc ih
    | comment hline _ ih => exact .comment hline ih

theorem IsGap.append
    {a b : Str} (ha : IsGap a) (hb : IsGap b) :
    IsGap (a ++ b) :=
  isGap_iff.mpr ((isGap_iff.mp ha).append (isGap_iff.mp hb))

/-- The last line of a gap has no comment. -/
theorem Gap.isSpace_lastLine (gap : Gap) :
    ∀ c ∈ gap.text.drop (lastLine gap.text), isSpace c = true :=
  fun c hc => isSpace_of_isWs ((isGap_iff.mp gap.isGap).split_lastLine.2 c hc)

end Fillers

/-- What is before the last line, without its start, and the last line. -/
theorem take_lastLine_append
    {g : Str} {skip : Nat} (h : skip ≤ lastLine g) :
    (g.take (lastLine g)).drop skip ++ g.drop (lastLine g) = g.drop skip := by
  have hle : skip ≤ (g.take (lastLine g)).length := by
    rw [List.length_take, Nat.min_eq_left (lastLine_le _)]
    exact h
  rw [← List.drop_append_of_le_length hle, List.take_append_drop]

/-- The end of a line is not continued by what follows the gap. -/
theorem lineEnd_append
    {g rest : Str}
    (hrest : ∀ c ∈ rest.head?, isWs c = false) :
    lineEnd (g ++ rest) = lineEnd g := by
  have hblank : ∀ c ∈ rest.head?, isBlank c = false := by
    intro c hc
    have h := hrest c hc
    simp only [isWs, Bool.or_eq_false_iff] at h
    simp only [isBlank, Bool.or_eq_false_iff]
    exact ⟨h.1.1.1, h.1.1.2⟩
  have htake : rest.takeWhile isBlank = [] := by
    cases rest with
    | nil => rfl
    | cons c rest => simp [hblank c rfl]
  have hdrop : rest.dropWhile isBlank = rest := by
    cases rest with
    | nil => rfl
    | cons c rest => simp [hblank c rfl]
  have htakeAll : (g ++ rest).takeWhile isBlank = g.takeWhile isBlank := by
    rw [List.takeWhile_append, htake, List.append_nil]
    split
    · next h => exact ((List.takeWhile_prefix isBlank).eq_of_length h).symm
    · rfl
  have hnewline : ∀ tail, rest ≠ '\n' :: tail := by
    rintro tail rfl
    exact absurd (hrest '\n' rfl) (by decide)
  have hreturn : ∀ tail, rest ≠ '\r' :: tail := by
    rintro tail rfl
    exact absurd (hrest '\r' rfl) (by decide)
  unfold lineEnd
  rw [htakeAll, List.dropWhile_append, hdrop]
  cases hg : g.dropWhile isBlank with
  | nil =>
      simp only [List.isEmpty_nil, if_true]
      split
      · exact absurd rfl (hnewline _)
      · exact absurd rfl (hreturn _)
      · rfl
  | cons c tail =>
      simp only [List.isEmpty_cons, Bool.false_eq_true, if_false]
      cases tail with
      | nil =>
          by_cases hc : c = '\n'
          · subst hc
            rfl
          · split
            · next heq => exact absurd (List.cons.inj heq).1 hc
            · next more heq => exact absurd (List.cons.inj heq).2 (hnewline more)
            · split <;> simp_all
      | cons d tail =>
          rw [List.cons_append, List.cons_append]
          split <;> split <;> simp_all

end Gaps

section Spans

variable {text before gap : Str} {i : Nat}

theorem lineStart_eq
    {w : Str}
    (htake : text.take i = w) :
    lineStart text i = lastLine w := by
  subst htake
  rfl

/-- A block that starts its line goes with the blanks before it and the end of
the line after it. -/
theorem deletionSpan_line
    {after : Str} {stop : Nat}
    (hgap : ∀ c ∈ gap.drop (lastLine gap), isSpace c = true)
    (htake : text.take i = before ++ gap)
    (hline : before = [] ∨ '\n' ∈ gap)
    (hafter : slice text stop text.length = after) :
    deletionSpan text i stop = (before.length + lastLine gap, stop + lineEnd after) := by
  have hstart : lineStart text i = before.length + lastLine gap := by
    rw [lineStart_eq htake]
    rcases hline with rfl | hmem
    · simp
    · exact lastLine_append_of_mem before hmem
  have hprefix : slice text (before.length + lastLine gap) i = gap.drop (lastLine gap) := by
    unfold slice
    rw [htake, ← List.drop_drop, List.drop_left]
  have hblank : (strip (gap.drop (lastLine gap))).isEmpty = true :=
    strip_isEmpty_iff.mpr hgap
  unfold deletionSpan
  simp only [hstart, hprefix, hblank, Bool.not_true, Bool.false_eq_true, if_false]
  have hsplit := List.takeWhile_append_dropWhile (p := isBlank) (l := after)
  rw [← hsplit] at hafter
  have hskip : skipWhile isBlank text text.length stop =
      stop + (after.takeWhile isBlank).length := by
    refine skipWhile_eq hafter (fun c hc => List.mem_takeWhile_imp hc) ?_
    intro c hc
    have hnot := List.head?_dropWhile_not isBlank after
    rw [Option.mem_def.mp hc] at hnot
    simpa using hnot
  have hrest := slice_after hafter
  rw [hskip]
  unfold lineEnd
  cases hdrop : after.dropWhile isBlank with
  | nil =>
      rw [hdrop] at hrest
      simp [peek_of_nil hrest]
  | cons c tail =>
      rw [hdrop] at hrest
      rw [peek_of_cons hrest]
      by_cases hreturn : c = '\r'
      · subst hreturn
        have htail := slice_tail hrest
        cases tail with
        | nil => simp [peek_of_nil htail]
        | cons d tail =>
            rw [if_pos rfl, peek_of_cons htail]
            by_cases hd : d = '\n'
            · subst hd
              simp [Nat.add_assoc]
            · simp [hd]
      · have hsome : ¬ some c = some '\r' := by simpa using hreturn
        rw [if_neg hsome, peek_of_cons hrest]
        by_cases hc : c = '\n'
        · subst hc
          simp [Nat.add_assoc]
        · simp [hc, hreturn]

/-- A block behind something else goes alone. -/
theorem deletionSpan_inline
    {c : Char} (stop : Nat)
    (htake : text.take i = before ++ c :: gap)
    (hc : isSpace c = false) (hnot : '\n' ∉ gap) :
    deletionSpan text i stop = (i, stop) := by
  have hne : '\n' ∉ c :: gap := by
    simp only [List.mem_cons, not_or]
    refine ⟨?_, hnot⟩
    rintro rfl
    cases hc
  have hstart : lineStart text i = lastLine before := by
    rw [lineStart_eq htake, lastLine_append_of_notMem before hne]
  have hprefix : slice text (lastLine before) i = before.drop (lastLine before) ++ c :: gap := by
    unfold slice
    rw [htake, List.drop_append_of_le_length (lastLine_le before)]
  have hfull : (strip (before.drop (lastLine before) ++ c :: gap)).isEmpty = false := by
    by_contra hempty
    rw [Bool.not_eq_false] at hempty
    have h := strip_isEmpty_iff.mp hempty c (by simp)
    rw [hc] at h
    cases h
  unfold deletionSpan
  simp only [hstart, hprefix, hfull, Bool.not_false, if_true]

end Spans

end Backup
end YdbSnippets
