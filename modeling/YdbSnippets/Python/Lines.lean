import YdbSnippets.Python.Text

/-!
# Lines as Python splits them

`str.splitlines` ends a line at more characters than the line feed.
-/

namespace YdbSnippets
namespace Python

section Lines

/-- The characters that end a line. -/
def isLineBreak (c : Char) : Bool :=
  let n := c.toNat
  (10 ≤ n && n ≤ 13) || (28 ≤ n && n ≤ 30) || n == 0x85 || n == 0x2028 || n == 0x2029

/-- `text.splitlines()` -/
def splitlines : Str → List Str
  | [] => []
  | '\r' :: '\n' :: rest => [] :: splitlines rest
  | c :: rest =>
      if isLineBreak c then [] :: splitlines rest
      else
        match splitlines rest with
        | [] => [[c]]
        | line :: lines => (c :: line) :: lines

/-- `s.rstrip()` -/
def rstripSpace (s : Str) : Str :=
  s.rdropWhile isSpace

/-- `s.lstrip()` -/
def lstripSpace (s : Str) : Str :=
  s.dropWhile isSpace

/-- Both ends are stripped in either order. -/
theorem strip_eq_lstripSpace_rstripSpace
    (s : Str) :
    strip s = lstripSpace (rstripSpace s) := by
  unfold strip lstripSpace rstripSpace
  induction s using List.reverseRecOn with
  | nil => rfl
  | append_singleton s c ih =>
      cases hc : isSpace c with
      | true =>
          rw [List.rdropWhile_concat_pos _ _ _ hc, ← ih, List.dropWhile_append]
          split
          · next hblank =>
              rw [List.isEmpty_iff.mp hblank, List.dropWhile_cons_of_pos hc, List.dropWhile_nil]
          · rw [List.rdropWhile_concat_pos _ _ _ hc]
      | false =>
          have hnot : ¬ isSpace c = true := by rw [hc]; decide
          rw [List.rdropWhile_concat_neg _ _ _ hnot, List.dropWhile_append]
          split
          · rw [List.dropWhile_cons_of_neg hnot, List.rdropWhile_singleton, if_neg hnot]
          · rw [List.rdropWhile_concat_neg _ _ _ hnot]

theorem isSpace_of_isLineBreak
    {c : Char}
    (h : isLineBreak c = true) :
    isSpace c = true := by
  simp only [isLineBreak, Bool.or_eq_true, Bool.and_eq_true, decide_eq_true_eq,
    beq_iff_eq] at h
  simp only [isSpace, Bool.or_eq_true, Bool.and_eq_true, decide_eq_true_eq, beq_iff_eq]
  omega

theorem isLineBreak_of_not_isSpace
    {c : Char}
    (h : isSpace c = false) :
    isLineBreak c = false := by
  by_contra hbreak
  rw [isSpace_of_isLineBreak (Bool.not_eq_false _ ▸ hbreak)] at h
  cases h

/-- A character that ends no line belongs to the line that follows. -/
theorem splitlines_cons
    {c : Char} (rest : Str)
    (hc : isLineBreak c = false) :
    splitlines (c :: rest) =
      match splitlines rest with
      | [] => [[c]]
      | line :: lines => (c :: line) :: lines := by
  rw [splitlines.eq_3, if_neg (by rw [hc]; decide)]
  rintro tail rfl
  exact absurd hc (by decide)

/-- A line break other than a carriage return ends a line. -/
theorem splitlines_break
    {c : Char} (rest : Str)
    (hc : isLineBreak c = true) (hne : c ≠ '\r') :
    splitlines (c :: rest) = [] :: splitlines rest := by
  rw [splitlines.eq_3, if_pos hc]
  exact fun _ heq => absurd heq hne

/-- A text without line breaks is one line, up to the break that follows. -/
theorem splitlines_append_break
    {line : Str} {c : Char} (rest : Str)
    (hline : ∀ d ∈ line, isLineBreak d = false)
    (hc : isLineBreak c = true) (hne : c ≠ '\r') :
    splitlines (line ++ c :: rest) = line :: splitlines rest := by
  induction line with
  | nil => exact splitlines_break rest hc hne
  | cons d line ih =>
      rw [List.cons_append, splitlines_cons _ (hline d List.mem_cons_self),
        ih (fun e he => hline e (List.mem_cons_of_mem _ he))]

/-- The last line needs no break behind it. -/
theorem splitlines_eq_singleton
    {line : Str}
    (hne : line ≠ [])
    (hline : ∀ d ∈ line, isLineBreak d = false) :
    splitlines line = [line] := by
  induction line with
  | nil => exact absurd rfl hne
  | cons c line ih =>
      rw [splitlines_cons line (hline c List.mem_cons_self)]
      by_cases hlast : line = []
      · rw [hlast]
        rfl
      · rw [ih hlast fun d hd => hline d (List.mem_cons_of_mem _ hd)]

theorem splitlines_ne_nil
    {s : Str} (hs : s ≠ []) :
    splitlines s ≠ [] := by
  fun_cases splitlines s with
  | case1 => exact absurd rfl hs
  | case2 rest => exact List.cons_ne_nil _ _
  | case3 c rest _ _ => exact List.cons_ne_nil _ _
  | case4 c rest _ _ _ => exact List.cons_ne_nil _ _
  | case5 c rest _ _ line lines _ => exact List.cons_ne_nil _ _

/-- A line feed ends a line, and what follows is split on its own. -/
theorem splitlines_append_newline
    {front : Str} (rest : Str)
    (hfront : '\r' ∉ front) :
    splitlines (front ++ '\n' :: rest) = splitlines (front ++ ['\n']) ++ splitlines rest := by
  induction front with
  | nil => rfl
  | cons c front ih =>
      obtain ⟨hne, hfront⟩ := not_or.mp (mt List.mem_cons.mpr hfront)
      rw [List.cons_append, List.cons_append]
      cases hc : isLineBreak c with
      | true =>
          rw [splitlines_break _ hc (Ne.symm hne), splitlines_break _ hc (Ne.symm hne),
            ih hfront, List.cons_append]
      | false =>
          rw [splitlines_cons _ hc, splitlines_cons _ hc, ih hfront]
          obtain ⟨line, lines, hlines⟩ := List.exists_cons_of_ne_nil
            (splitlines_ne_nil (s := front ++ ['\n']) (by simp))
          rw [hlines]
          rfl

/-- Every character of a line is one of the text. -/
theorem mem_of_mem_splitlines
    {s line : Str} {c : Char}
    (hline : line ∈ splitlines s) (hc : c ∈ line) :
    c ∈ s := by
  fun_induction splitlines s generalizing line with
  | case1 => cases hline
  | case2 rest ih =>
      rcases List.mem_cons.mp hline with rfl | hline
      · cases hc
      · exact List.mem_cons_of_mem _ (List.mem_cons_of_mem _ (ih hline hc))
  | case3 d rest _ _ ih =>
      rcases List.mem_cons.mp hline with rfl | hline
      · cases hc
      · exact List.mem_cons_of_mem _ (ih hline hc)
  | case4 d rest _ _ hnil ih =>
      rw [List.mem_singleton.mp hline] at hc
      rw [List.mem_singleton.mp hc]
      exact List.mem_cons_self
  | case5 d rest _ _ first lines heq ih =>
      rcases List.mem_cons.mp hline with rfl | hline
      · rcases List.mem_cons.mp hc with rfl | hc
        · exact List.mem_cons_self
        · exact List.mem_cons_of_mem _ (ih (heq ▸ List.mem_cons_self) hc)
      · exact List.mem_cons_of_mem _ (ih (heq ▸ List.mem_cons_of_mem _ hline) hc)

/-- A character that ends no line is in one of the lines. -/
theorem exists_mem_splitlines
    {s : Str} {c : Char}
    (hc : c ∈ s) (hbreak : isLineBreak c = false) :
    ∃ line ∈ splitlines s, c ∈ line := by
  fun_induction splitlines s with
  | case1 => cases hc
  | case2 rest ih =>
      rcases List.mem_cons.mp hc with rfl | hc
      · exact absurd hbreak (by decide)
      · rcases List.mem_cons.mp hc with rfl | hc
        · exact absurd hbreak (by decide)
        · obtain ⟨line, hline, hmem⟩ := ih hc
          exact ⟨line, List.mem_cons_of_mem _ hline, hmem⟩
  | case3 d rest _ hd ih =>
      rcases List.mem_cons.mp hc with rfl | hc
      · rw [hd] at hbreak
        cases hbreak
      · obtain ⟨line, hline, hmem⟩ := ih hc
        exact ⟨line, List.mem_cons_of_mem _ hline, hmem⟩
  | case4 d rest _ _ hnil ih =>
      rcases List.mem_cons.mp hc with rfl | hc
      · exact ⟨[c], List.mem_cons_self, List.mem_cons_self⟩
      · obtain ⟨line, hline, -⟩ := ih hc
        rw [hnil] at hline
        cases hline
  | case5 d rest _ _ first lines heq ih =>
      rcases List.mem_cons.mp hc with rfl | hc
      · exact ⟨_, List.mem_cons_self, List.mem_cons_self⟩
      · obtain ⟨line, hline, hmem⟩ := ih hc
        rw [heq] at hline
        rcases List.mem_cons.mp hline with rfl | hline
        · exact ⟨_, List.mem_cons_self, List.mem_cons_of_mem _ hmem⟩
        · exact ⟨line, List.mem_cons_of_mem _ hline, hmem⟩

/-- All lines are blank if and only if the text is. -/
theorem forall_splitlines_blank_iff
    {s : Str} :
    (∀ line ∈ splitlines s, strip line = []) ↔ ∀ c ∈ s, isSpace c = true := by
  constructor
  · intro h c hc
    cases hbreak : isLineBreak c with
    | true => exact isSpace_of_isLineBreak hbreak
    | false =>
        obtain ⟨line, hline, hmem⟩ := exists_mem_splitlines hc hbreak
        exact strip_eq_nil_iff.mp (h line hline) c hmem
  · intro h line hline
    exact strip_eq_nil_iff.mpr fun c hc => h c (mem_of_mem_splitlines hline hc)

end Lines

end Python
end YdbSnippets
