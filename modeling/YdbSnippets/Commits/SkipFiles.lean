import YdbSnippets.Commits.FileLists

/-!
# Skip files

`find_missing_commits.py` and `validate_find_missing_output.py` leave out the
commits whose paths are all under a prefix of the skip file.  The README counts
a line as a comment if its first non-space character is `#`; the loader cuts
every line at its first `#`.
-/

namespace YdbSnippets
namespace Commits

open Python

section Definitions

/-- `raw.split("#", 1)[0].strip()` -/
def cutAtHash (line : Str) : Str :=
  strip (line.takeWhile (· != '#'))

/-- `load_skip_prefixes`, from the text of the file. -/
def loadSkipPrefixes (text : Str) : List Str :=
  ((splitlines text).map cutAtHash).filter (· ≠ [])

/-- `all_paths_match_skip` of the validator. -/
def allPathsMatchSkip (files skipPrefixes : List Str) : Bool :=
  if files = [] then true
  else files.all fun f =>
    let s := f.map fun c => if c = '\\' then '/' else c
    skipPrefixes.any fun pr =>
      let p := rstrip '/' pr
      s == p || s == pr || (p ++ ['/']).isPrefixOf s

/-- The prefixes the README speaks of: the trimmed lines that have text and are
no comments. -/
def listedPrefixes (text : Str) : List Str :=
  ((splitlines text).map strip).filter fun line => line ≠ [] ∧ line.head? ≠ some '#'

/-- The path is the prefix or lies under it, whatever slashes the prefix ends
in. -/
def Under (pre path : Str) : Prop :=
  path = rstrip '/' pre ∨ rstrip '/' pre ++ ['/'] <+: path

instance (pre path : Str) : Decidable (Under pre path) :=
  inferInstanceAs (Decidable (_ ∨ _))

/-- `path.replace("\\", "/")` -/
def withSlashes (path : Str) : Str :=
  path.map fun c => if c = '\\' then '/' else c

end Definitions

section Verdicts

variable (text path : Str)

/-- The path is under a listed prefix. -/
def Documented : Prop :=
  ∃ pre ∈ listedPrefixes text, Under pre path

/-- The path is under a listed prefix that has no `#`. -/
def UnderPlain : Prop :=
  ∃ pre ∈ listedPrefixes text, '#' ∉ pre ∧ Under pre path

/-- The path is under what stands before the first `#` of a listed prefix. -/
def UnderCut : Prop :=
  ∃ pre ∈ listedPrefixes text, ∃ before after, pre = before ++ '#' :: after ∧ '#' ∉ before ∧
    Under (strip before) path

/-- No listed prefix is above the path, but, its backslashes read as slashes, it is
under one without a `#` or under what stands before the `#` of one. -/
def WronglyHidden : Prop :=
  ¬ Documented text path ∧
    (UnderPlain text (withSlashes path) ∨ UnderCut text (withSlashes path))

/-- A listed prefix is above the path, but, its backslashes read as slashes, it is
under none without a `#` and under nothing that stands before the `#` of one. -/
def WronglyKept : Prop :=
  Documented text path ∧
    ¬ UnderPlain text (withSlashes path) ∧ ¬ UnderCut text (withSlashes path)

/-- Nothing of all this is above the path. -/
def RightlyKept : Prop :=
  ¬ Documented text path ∧
    ¬ UnderPlain text (withSlashes path) ∧ ¬ UnderCut text (withSlashes path)

variable (paths : List Str)

/-- The paths of a commit that gets the documented verdict. -/
inductive WellJudged : Prop
  /-- One of them is to be kept, and so the commit is. -/
  | rightlyKept (path : Str) (hpath : path ∈ paths) (hkept : RightlyKept text path) :
      WellJudged
  /-- None of them is judged wrongly. -/
  | noneWrong (hnone : ∀ path ∈ paths, ¬ WronglyHidden text path ∧ ¬ WronglyKept text path) :
      WellJudged
  /-- The commit is kept because of the wrong path. -/
  | bothWrong (hidden kept : Str) (hhiddenMem : hidden ∈ paths) (hkeptMem : kept ∈ paths)
      (hhidden : WronglyHidden text hidden) (hkept : WronglyKept text kept) : WellJudged

/-- The verdicts the README describes: a commit is left out if and only if every
path is under a listed prefix, and the validator agrees if a prefix was loaded. -/
structure VerdictsAsDocumented : Prop where
  script : allPathsOnlySkippedFromFileList (some paths) (loadSkipPrefixes text) = true ↔
    ∀ path ∈ paths, Documented text path
  validator : loadSkipPrefixes text ≠ [] →
    allPathsMatchSkip paths (loadSkipPrefixes text) =
      allPathsOnlySkippedFromFileList (some paths) (loadSkipPrefixes text)

end Verdicts

section Loading

theorem strip_cons_space
    {c : Char} (s : Str) (hc : isSpace c = true) :
    strip (c :: s) = strip s := by
  unfold strip
  rw [List.dropWhile_cons_of_pos hc]

theorem strip_append_space
    {c : Char} (s : Str) (hc : isSpace c = true) :
    strip (s ++ [c]) = strip s := by
  rw [strip_eq_lstripSpace_rstripSpace, strip_eq_lstripSpace_rstripSpace]
  unfold rstripSpace
  rw [List.rdropWhile_concat_pos _ _ _ hc]

theorem ne_hash_of_isSpace
    {c : Char} (hc : isSpace c = true) :
    (c != '#') = true := by
  refine bne_iff_ne.mpr fun heq => ?_
  rw [heq] at hc
  cases hc

/-- It makes no difference whether a line is cut first or trimmed first. -/
theorem cutAtHash_strip
    (line : Str) :
    cutAtHash line = strip ((strip line).takeWhile (· != '#')) := by
  have hfront : ∀ s : Str, cutAtHash s = cutAtHash (lstripSpace s) := by
    intro s
    induction s with
    | nil => rfl
    | cons c s ih =>
        unfold lstripSpace at ih ⊢
        cases hc : isSpace c with
        | true =>
            rw [List.dropWhile_cons_of_pos hc, ← ih]
            unfold cutAtHash
            rw [List.takeWhile_cons_of_pos (p := (· != '#')) (ne_hash_of_isSpace hc),
              strip_cons_space _ hc]
        | false => rw [List.dropWhile_cons_of_neg (by rw [hc]; exact Bool.false_ne_true)]
  have hback : ∀ s : Str, cutAtHash s = cutAtHash (rstripSpace s) := by
    intro s
    induction s using List.reverseRecOn with
    | nil => rfl
    | append_singleton s c ih =>
        unfold rstripSpace at ih ⊢
        cases hc : isSpace c with
        | true =>
            rw [List.rdropWhile_concat_pos _ _ _ hc, ← ih]
            unfold cutAtHash
            rw [List.takeWhile_append]
            split
            · next hall =>
                rw [List.takeWhile_cons_of_pos (p := (· != '#')) (ne_hash_of_isSpace hc),
                  List.takeWhile_nil, strip_append_space _ hc,
                  (List.takeWhile_prefix _).eq_of_length hall]
            · rfl
        | false =>
            rw [List.rdropWhile_concat_neg _ _ _ (by rw [hc]; exact Bool.false_ne_true)]
  rw [hback, hfront, ← strip_eq_lstripSpace_rstripSpace]
  rfl

theorem strip_strip
    (s : Str) :
    strip (strip s) = strip s := by
  have hdrop : (strip s).dropWhile isSpace = strip s := by
    cases hs : strip s with
    | nil => rfl
    | cons c rest =>
        have hc : isSpace c = false := head_strip (by rw [hs]; rfl)
        rw [List.dropWhile_cons_of_neg (by rw [hc]; exact Bool.false_ne_true)]
  rw [strip.eq_def (strip s), hdrop]
  exact List.rdropWhile_idempotent _ _

theorem takeWhile_ne_hash
    {before : Str} (after : Str) (hbefore : '#' ∉ before) :
    (before ++ '#' :: after).takeWhile (· != '#') = before := by
  rw [List.takeWhile_append_of_pos, List.takeWhile_cons_of_neg (by simp), List.append_nil]
  intro c hc
  exact bne_iff_ne.mpr fun heq => hbefore (heq ▸ hc)

/-- A prefix is loaded if and only if it is listed and has no `#`, or stands before the
first `#` of a listed one. -/
theorem mem_loadSkipPrefixes_iff
    {text pre : Str} :
    pre ∈ loadSkipPrefixes text ↔
      (pre ∈ listedPrefixes text ∧ '#' ∉ pre) ∨
        ∃ listed ∈ listedPrefixes text, ∃ before after, listed = before ++ '#' :: after ∧
          '#' ∉ before ∧ strip before = pre := by
  simp only [loadSkipPrefixes, listedPrefixes, List.mem_filter, List.mem_map, decide_eq_true_eq]
  constructor
  · rintro ⟨⟨line, hline, rfl⟩, hne⟩
    rw [cutAtHash_strip] at hne ⊢
    by_cases hhash : '#' ∈ strip line
    · obtain ⟨before, after, hsplit, hbefore⟩ := List.eq_append_cons_of_mem hhash
      rw [hsplit, takeWhile_ne_hash after hbefore] at hne ⊢
      refine Or.inr ⟨_, ⟨⟨line, hline, hsplit⟩, by simp, ?_⟩, before, after, rfl, hbefore, rfl⟩
      cases before with
      | nil => exact absurd rfl hne
      | cons c before =>
          intro hcomment
          exact hbefore (List.mem_cons.mpr (Or.inl (Option.some.inj hcomment).symm))
    · have hall : (strip line).takeWhile (· != '#') = strip line :=
        List.takeWhile_eq_self_iff.mpr fun c hc => bne_iff_ne.mpr fun heq => hhash (heq ▸ hc)
      rw [hall, strip_strip] at hne ⊢
      refine Or.inl ⟨⟨⟨line, hline, rfl⟩, hne, fun hcomment => ?_⟩, hhash⟩
      exact hhash (List.mem_of_mem_head? hcomment)
  · rintro (⟨⟨⟨line, hline, rfl⟩, hne, -⟩, hhash⟩ |
      ⟨_, ⟨⟨line, hline, rfl⟩, -, hcomment⟩, before, after, hsplit, hbefore, rfl⟩)
    · have hall : (strip line).takeWhile (· != '#') = strip line :=
        List.takeWhile_eq_self_iff.mpr fun c hc => bne_iff_ne.mpr fun heq => hhash (heq ▸ hc)
      have hcut : cutAtHash line = strip line := by
        rw [cutAtHash_strip, hall, strip_strip]
      exact ⟨⟨line, hline, hcut⟩, hne⟩
    · have hcut : cutAtHash line = strip before := by
        rw [cutAtHash_strip, hsplit, takeWhile_ne_hash after hbefore]
      refine ⟨⟨line, hline, hcut⟩, fun hblank => ?_⟩
      cases before with
      | nil =>
          rw [hsplit] at hcomment
          exact hcomment rfl
      | cons c before =>
          have hc : isSpace c = false := head_strip (by rw [hsplit]; rfl)
          rw [strip_eq_nil_iff.mp hblank c List.mem_cons_self] at hc
          cases hc

end Loading

section Covering

/-- A line cut at its first `#` covers the path, its backslashes read as
slashes. -/
def CutCovers (text path : Str) : Prop :=
  ∃ pre ∈ loadSkipPrefixes text, Under pre (withSlashes path)

/-- What is stripped of its trailing slashes is itself or is followed by one. -/
theorem eq_or_prefix_rstrip
    (c : Char) (s : Str) :
    s = rstrip c s ∨ rstrip c s ++ [c] <+: s := by
  induction s using List.reverseRecOn with
  | nil => exact Or.inl rfl
  | append_singleton s d ih =>
      by_cases hd : d = c
      · subst hd
        rw [rstrip_append_self]
        refine Or.inr ?_
        rcases ih with heq | hpre
        · rw [← heq]
        · exact hpre.trans (List.prefix_append s [d])
      · rw [rstrip_append_of_ne s hd]
        exact Or.inl rfl

/-- The loop over the prefixes looks for one that covers the path. -/
theorem any_prefix_iff
    {s : Str} {prefixes : List Str} :
    (prefixes.any fun pr =>
        let p := rstrip '/' pr
        s == p || s == pr || (p ++ ['/']).isPrefixOf s) = true ↔
      ∃ pre ∈ prefixes, Under pre s := by
  rw [List.any_eq_true]
  refine exists_congr fun pre => and_congr_right fun _ => ?_
  simp only [Bool.or_eq_true, beq_iff_eq, List.isPrefixOf_iff_prefix]
  constructor
  · rintro ((h | h) | h)
    · exact Or.inl h
    · rw [h]
      exact eq_or_prefix_rstrip '/' pre
    · exact Or.inr h
  · rintro (h | h)
    · exact Or.inl (Or.inl h)
    · exact Or.inr h

theorem pathMatchesSkip_iff
    {path : Str} {prefixes : List Str} :
    pathMatchesSkip path prefixes = true ↔ ∃ pre ∈ prefixes, Under pre (withSlashes path) :=
  any_prefix_iff

/-- A commit with changed paths is left out if and only if the lines cut at
their first `#` cover all of them. -/
theorem allPathsOnlySkipped_iff
    (text : Str) {paths : List Str}
    (hne : paths ≠ []) :
    allPathsOnlySkippedFromFileList (some paths) (loadSkipPrefixes text) = true ↔
      ∀ path ∈ paths, CutCovers text path := by
  unfold allPathsOnlySkippedFromFileList
  split
  · next hempty =>
      obtain ⟨path, rest, rfl⟩ := List.exists_cons_of_ne_nil hne
      refine iff_of_false Bool.false_ne_true ?_
      intro h
      obtain ⟨pre, hpre, -⟩ := h path List.mem_cons_self
      rw [hempty] at hpre
      cases hpre
  · simp only [List.all_eq_true, pathMatchesSkip_iff]
    rfl

/-- The validator decides as the script does. -/
theorem allPathsMatchSkip_eq
    {text : Str} {paths : List Str}
    (hne : paths ≠ [])
    (hload : loadSkipPrefixes text ≠ []) :
    allPathsMatchSkip paths (loadSkipPrefixes text) =
      allPathsOnlySkippedFromFileList (some paths) (loadSkipPrefixes text) := by
  unfold allPathsMatchSkip allPathsOnlySkippedFromFileList
  rw [if_neg hne, if_neg hload]
  rfl

theorem withSlashes_of_plain
    {path : Str}
    (h : '\\' ∉ path) :
    withSlashes path = path := by
  unfold withSlashes
  refine (List.map_congr_left ?_).trans (List.map_id path)
  intro c hc
  have hne : c ≠ '\\' := fun heq => h (heq ▸ hc)
  exact if_neg hne

/-- What the loaded prefixes cover, by the listed ones. -/
theorem cutCovers_iff
    {text path : Str} :
    CutCovers text path ↔
      UnderPlain text (withSlashes path) ∨ UnderCut text (withSlashes path) := by
  unfold CutCovers UnderPlain UnderCut
  simp only [mem_loadSkipPrefixes_iff]
  constructor
  · rintro ⟨pre, ⟨hlisted, hhash⟩ | ⟨listed, hlisted, before, after, heq, hbefore, rfl⟩, hunder⟩
    · exact Or.inl ⟨pre, hlisted, hhash, hunder⟩
    · exact Or.inr ⟨listed, hlisted, before, after, heq, hbefore, hunder⟩
  · rintro (⟨pre, hlisted, hhash, hunder⟩ |
      ⟨listed, hlisted, before, after, heq, hbefore, hunder⟩)
    · exact ⟨pre, Or.inl ⟨hlisted, hhash⟩, hunder⟩
    · exact ⟨_, Or.inr ⟨listed, hlisted, before, after, heq, hbefore, rfl⟩, hunder⟩

theorem wronglyHidden_iff
    {text path : Str} :
    WronglyHidden text path ↔ ¬ Documented text path ∧ CutCovers text path := by
  rw [WronglyHidden, cutCovers_iff]

theorem wronglyKept_iff
    {text path : Str} :
    WronglyKept text path ↔ Documented text path ∧ ¬ CutCovers text path := by
  rw [WronglyKept, cutCovers_iff, not_or]

theorem rightlyKept_iff
    {text path : Str} :
    RightlyKept text path ↔ ¬ Documented text path ∧ ¬ CutCovers text path := by
  rw [RightlyKept, cutCovers_iff, not_or]

/-- A wrong path needs a backslash, or a `#` in a listed prefix. -/
theorem backslash_or_hash_of_wrong
    {text path : Str} (hwrong : WronglyHidden text path ∨ WronglyKept text path) :
    '\\' ∈ path ∨ ∃ pre ∈ listedPrefixes text, '#' ∈ pre := by
  by_contra h
  push Not at h
  obtain ⟨hslashes, hhash⟩ := h
  have hcovers : CutCovers text path ↔ Documented text path := by
    rw [CutCovers, Documented, withSlashes_of_plain hslashes]
    refine exists_congr fun pre => and_congr_left fun _ => ?_
    rw [mem_loadSkipPrefixes_iff]
    constructor
    · rintro (⟨hlisted, -⟩ | ⟨listed, hlisted, before, after, rfl, -⟩)
      · exact hlisted
      · exact absurd (List.mem_append_right before List.mem_cons_self) (hhash _ hlisted)
    · exact fun hlisted => Or.inl ⟨hlisted, hhash pre hlisted⟩
  rw [wronglyHidden_iff, wronglyKept_iff, hcovers] at hwrong
  rcases hwrong with ⟨hnot, hdocumented⟩ | ⟨hdocumented, hnot⟩
  · exact hnot hdocumented
  · exact hnot hdocumented

/-- The verdicts on a commit are as documented if and only if one of its paths is
rightly kept, or none is judged wrongly, or one is wrongly hidden and another
wrongly kept.  A path is judged wrongly only if it has a backslash or some
listed prefix has a `#`. -/
theorem verdicts_as_documented_iff
    (text : Str)
    (paths : List Str)
    (hne : paths ≠ []) :
    (VerdictsAsDocumented text paths ↔ WellJudged text paths) ∧
      ∀ path, WronglyHidden text path ∨ WronglyKept text path →
        '\\' ∈ path ∨ ∃ pre ∈ listedPrefixes text, '#' ∈ pre := by
  refine ⟨?_, fun path => backslash_or_hash_of_wrong⟩
  have hscript := allPathsOnlySkipped_iff text hne
  constructor
  · rintro ⟨hverdict, -⟩
    rw [hscript] at hverdict
    by_cases hkept : ∃ path ∈ paths, RightlyKept text path
    · obtain ⟨path, hpath, hkept⟩ := hkept
      exact .rightlyKept path hpath hkept
    by_cases hall : ∀ path ∈ paths, Documented text path
    · refine .noneWrong fun path hpath => ?_
      rw [wronglyHidden_iff, wronglyKept_iff]
      exact ⟨fun h => h.1 (hall path hpath), fun h => h.2 (hverdict.mpr hall path hpath)⟩
    · -- what is not documented is wrongly hidden, and what keeps the commit wrongly kept
      have hcut := mt hverdict.mp hall
      push Not at hkept hall hcut
      obtain ⟨hidden, hhiddenMem, hnot⟩ := hall
      obtain ⟨kept, hkeptMem, hopen⟩ := hcut
      have hhidden := hkept hidden hhiddenMem
      have hlisted := hkept kept hkeptMem
      rw [rightlyKept_iff, not_and_not_right] at hhidden hlisted
      refine .bothWrong hidden kept hhiddenMem hkeptMem ?_ ?_
      · exact wronglyHidden_iff.mpr ⟨hnot, hhidden hnot⟩
      · exact wronglyKept_iff.mpr ⟨by_contra fun h => hopen (hlisted h), hopen⟩
  · intro h
    refine ⟨?_, allPathsMatchSkip_eq hne⟩
    rw [hscript]
    cases h with
    | rightlyKept path hpath hkept =>
        rw [rightlyKept_iff] at hkept
        exact iff_of_false (fun h => hkept.2 (h path hpath)) fun h => hkept.1 (h path hpath)
    | noneWrong hnone =>
        refine forall₂_congr fun path hpath => ?_
        have h := hnone path hpath
        rw [wronglyHidden_iff, wronglyKept_iff] at h
        constructor
        · exact fun hcut => by_contra fun hnot => h.1 ⟨hnot, hcut⟩
        · exact fun hdocumented => by_contra fun hnot => h.2 ⟨hdocumented, hnot⟩
    | bothWrong hidden kept hhiddenMem hkeptMem hhidden hkept =>
        rw [wronglyHidden_iff] at hhidden
        rw [wronglyKept_iff] at hkept
        exact iff_of_false (fun h => hkept.2 (h kept hkeptMem))
          fun h => hhidden.1 (h hidden hhiddenMem)

/-- A listed prefix with a `#`, and a commit that is kept for another path. -/
theorem verdicts_as_documented_docs :
    VerdictsAsDocumented "# drafts\nydb/docs/\nold/#1/\n".toList
      ["ydb/docs/a.md".toList, "old/b.md".toList, "ydb/core/c.cpp".toList] := by
  refine (verdicts_as_documented_iff _ _ (List.cons_ne_nil _ _)).1.mpr ?_
  refine .rightlyKept "ydb/core/c.cpp".toList (by decide) (rightlyKept_iff.mpr ?_)
  unfold Documented CutCovers
  decide +kernel

/-- A prefix with a `#` in it hides everything next to it. -/
theorem hash_in_prefix_hides :
    ¬ VerdictsAsDocumented "docs/#drafts/\n".toList ["docs/manual.md".toList] := by
  intro h
  have hskipped : allPathsOnlySkippedFromFileList (some ["docs/manual.md".toList])
      (loadSkipPrefixes "docs/#drafts/\n".toList) = true := by decide +kernel
  obtain ⟨pre, hpre, hunder⟩ := h.script.mp hskipped _ List.mem_cons_self
  have hlisted : listedPrefixes "docs/#drafts/\n".toList = ["docs/#drafts/".toList] := by
    decide +kernel
  rw [hlisted, List.mem_singleton] at hpre
  rw [hpre] at hunder
  revert hunder
  decide +kernel

end Covering

end Commits
end YdbSnippets
