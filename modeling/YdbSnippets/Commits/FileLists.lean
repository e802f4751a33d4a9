import YdbSnippets.Commits.Report
import Mathlib.Data.List.Nodup
import Mathlib.Data.Nat.Basic

/-!
# The files of the commits

`find_missing_commits.py` reads the files of all commits from one `git log` and
asks `git show` for the commits whose files it does not find there.
-/

namespace YdbSnippets
namespace Commits

open Python

section Reading

/-- `FULL_SHA1_RE` -/
def isFullSha (line : Str) : Bool :=
  decide (line.length = 40) && line.all isHexDigit

/-- A dict from ids to file lists, of which only the values matter. -/
abbrev FileMap := Str → Option (List Str)

/-- `_file_list_from_show`, from the output of `git show`. -/
def fileListFromShow (out : Str) : List Str :=
  ((splitlines out).map strip).filter (· ≠ [])

/-- One turn of the loop of `_file_lists_from_name_only_log`: the lists `by` and
the id `cur`. -/
def nameOnlyStep (state : FileMap × Option Str) (line : Str) : FileMap × Option Str :=
  let (files, cur) := state
  let line := rstripSpace line
  if line = [] then (files, cur)
  else if isFullSha line then
    (if files line = none then Function.update files line (some []) else files, some line)
  else
    match cur with
    | none => (files, none)
    | some sha => (Function.update files sha (some ((files sha).getD [] ++ [line])), some sha)

/-- `_file_lists_from_name_only_log` -/
def fileListsFromNameOnlyLog (out : Str) : FileMap :=
  ((splitlines out).foldl nameOnlyStep (fun _ => none, none)).1

/-- `_resolve_file_lists_with_fallback`; `showText` is what `git show` prints. -/
def resolveFileListsWithFallback
    (showText : Str → Str) (commits : List Str) (fileMap : FileMap)
    (skipPrefixes : List Str) : FileMap :=
  if skipPrefixes = [] then fun _ => none
  else
    let needShow := commits.filter fun sha => (fileMap sha).getD [] = []
    let resolved : FileMap := fun sha =>
      if sha ∈ needShow then some (fileListFromShow (showText sha)) else fileMap sha
    fun sha => if sha ∈ commits then some ((resolved sha).getD []) else none

/-- `path_matches_skip` -/
def pathMatchesSkip (path : Str) (prefixes : List Str) : Bool :=
  let s := path.map fun c => if c = '\\' then '/' else c
  prefixes.any fun pr =>
    let p := rstrip '/' pr
    s == p || s == pr || (p ++ ['/']).isPrefixOf s

/-- `all_paths_only_skipped_from_file_list` -/
def allPathsOnlySkippedFromFileList (files : Option (List Str)) (skipPrefixes : List Str) :
    Bool :=
  if skipPrefixes = [] then false
  else
    match files with
    | none => false
    | some files => files.all fun f => pathMatchesSkip f skipPrefixes

end Reading

section Printing

/-- What git knows of a commit. -/
structure Commit where
  sha : Str
  isMerge : Bool
  paths : List Str
deriving DecidableEq, Repr

/-- A line for each path. -/
def printPaths (paths : List Str) : Str :=
  paths.flatMap fun path => path ++ ['\n']

/-- `git log --name-only --pretty=format:%H`, without the blank lines. -/
def logText (log : List Commit) : Str :=
  log.flatMap fun c =>
    c.sha ++ '\n' :: printPaths (if c.isMerge then [] else c.paths)

/-- A commit in the log of the names: paths start on a line of their own. -/
def printEntry (c : Commit) : Str :=
  let paths := if c.isMerge then [] else c.paths
  c.sha ++ if paths = [] then [] else '\n' :: printPaths paths

/-- `git log --name-only --pretty=format:%H`.  The line feed between two commits is a
blank line after paths. -/
def printNames (log : List Commit) : Str :=
  ['\n'].intercalate (log.map printEntry)

/-- Path names that git prints without quotes. -/
def IsUnquoted (path : Str) : Prop :=
  path ≠ [] ∧ ∀ c ∈ path, 32 ≤ c.toNat ∧ c.toNat ≠ 127 ∧ c ≠ '"' ∧ c ≠ '\\'

/-- The commits that `git log` lists, the candidates, and what `git show` prints
for them. -/
structure History where
  log : List Commit
  candidates : List Commit
  showText : Str → Str
  /-- `git show` prints the paths of a commit that is no merge. -/
  showText_eq : ∀ c ∈ candidates, c.isMerge = false → showText c.sha = printPaths c.paths
  /-- `git log` lists a commit once. -/
  nodup : log.Nodup
  /-- Different commits have different ids. -/
  eq_of_sha : ∀ c ∈ log ++ candidates, ∀ d ∈ log ++ candidates, c.sha = d.sha → c = d
  isSha : ∀ c ∈ log ++ candidates, IsSha c.sha
  isUnquoted : ∀ c ∈ log ++ candidates, ∀ path ∈ c.paths, IsUnquoted path

/-- The file list `find_probable_missing` looks at. -/
def History.files (history : History) (skipPrefixes : List Str) (c : Commit) : List Str :=
  (resolveFileListsWithFallback history.showText (history.candidates.map Commit.sha)
    (fileListsFromNameOnlyLog (logText history.log)) skipPrefixes c.sha).getD []

end Printing

section Lists

/-- The lines that are taken for files of `sha`, below the id `cur`. -/
def takenFor (sha : Str) : Option Str → List Str → List Str
  | _, [] => []
  | cur, line :: lines =>
      if isFullSha line then takenFor sha (some line) lines
      else (if cur = some sha then [line] else []) ++ takenFor sha cur lines

/-- The lines of a list of lines that have text, without the blanks at their ends. -/
def textLines (lines : List Str) : List Str :=
  (lines.map rstripSpace).filter (· ≠ [])

/-- The loop appends to each file list what is taken for it. -/
theorem foldl_nameOnlyStep
    (lines : List Str) (files : FileMap) (cur : Option Str) (sha : Str) :
    (((lines.foldl nameOnlyStep (files, cur)).1) sha).getD [] =
      (files sha).getD [] ++ takenFor sha cur (textLines lines) := by
  induction lines generalizing files cur with
  | nil => simp [textLines, takenFor]
  | cons line lines ih =>
      rw [List.foldl_cons]
      by_cases hblank : rstripSpace line = []
      · have htext : textLines (line :: lines) = textLines lines := by
          simp [textLines, hblank]
        rw [htext, ← ih]
        simp [nameOnlyStep, hblank]
      · have htext : textLines (line :: lines) = rstripSpace line :: textLines lines := by
          simp [textLines, hblank]
        rw [htext, takenFor]
        cases hfull : isFullSha (rstripSpace line) with
        | true =>
            have hstep : nameOnlyStep (files, cur) line =
                (if files (rstripSpace line) = none then
                  Function.update files (rstripSpace line) (some []) else files,
                  some (rstripSpace line)) := by
              simp [nameOnlyStep, hblank, hfull]
            rw [hstep, ih, if_pos rfl]
            congr 1
            split
            · next hnone =>
                by_cases heq : sha = rstripSpace line
                · rw [heq, hnone, Function.update_self]
                  rfl
                · rw [Function.update_of_ne heq]
            · rfl
        | false =>
            rw [if_neg (by decide)]
            cases cur with
            | none =>
                have hstep : nameOnlyStep (files, none) line = (files, none) := by
                  simp [nameOnlyStep, hblank, hfull]
                rw [hstep, ih]
                simp
            | some cur =>
                have hstep : nameOnlyStep (files, some cur) line =
                    (Function.update files cur
                      (some ((files cur).getD [] ++ [rstripSpace line])), some cur) := by
                  simp [nameOnlyStep, hblank, hfull]
                rw [hstep, ih, ← List.append_assoc]
                congr 1
                by_cases heq : sha = cur
                · rw [heq, Function.update_self, if_pos rfl]
                  rfl
                · rw [Function.update_of_ne heq, if_neg (fun h => heq (Option.some.inj h).symm),
                    List.append_nil]

/-- What is taken for a commit below its own id: the lines before the next id,
and what is taken for it further on. -/
theorem takenFor_self
    (sha : Str) (lines : List Str) :
    takenFor sha (some sha) lines =
      lines.takeWhile (fun line => !isFullSha line) ++ takenFor sha none lines := by
  induction lines with
  | nil => rfl
  | cons line lines ih =>
      cases hfull : isFullSha line with
      | true => simp [takenFor, hfull]
      | false => simp [takenFor, hfull, ih]

theorem takenFor_of_ne
    {sha : Str} {cur : Option Str} (lines : List Str)
    (hne : cur ≠ some sha) :
    takenFor sha cur lines = takenFor sha none lines := by
  induction lines with
  | nil => rfl
  | cons line lines ih =>
      cases hfull : isFullSha line with
      | true => simp [takenFor, hfull]
      | false => simp [takenFor, hfull, hne, ih]

/-- An id starts anew. -/
theorem takenFor_append_sha
    {sha : Str} {cur : Option Str} {id : Str} (front lines : List Str)
    (hid : isFullSha id = true) :
    takenFor sha cur (front ++ id :: lines) =
      takenFor sha cur front ++ takenFor sha (some id) lines := by
  induction front generalizing cur with
  | nil => simp [takenFor, hid]
  | cons line front ih =>
      rw [List.cons_append, takenFor, takenFor]
      cases hfull : isFullSha line with
      | true => simpa using ih
      | false => simp [ih]

/-- Only lines that are no ids are taken for files. -/
theorem mem_takenFor
    {sha : Str} {cur : Option Str} {lines : List Str} {line : Str}
    (h : line ∈ takenFor sha cur lines) :
    line ∈ lines ∧ isFullSha line = false := by
  induction lines generalizing cur with
  | nil => cases h
  | cons first lines ih =>
      rw [takenFor] at h
      cases hfull : isFullSha first with
      | true =>
          rw [hfull, if_pos rfl] at h
          exact ⟨List.mem_cons_of_mem _ (ih h).1, (ih h).2⟩
      | false =>
          rw [hfull, if_neg (by decide)] at h
          rcases List.mem_append.mp h with h | h
          · split at h
            · obtain rfl := List.mem_singleton.mp h
              exact ⟨List.mem_cons_self, hfull⟩
            · cases h
          · exact ⟨List.mem_cons_of_mem _ (ih h).1, (ih h).2⟩

/-- Without an id there is nothing further on. -/
theorem takenFor_none_eq_nil
    {sha : Str} {lines : List Str}
    (h : ∀ line ∈ lines, isFullSha line = false) :
    takenFor sha none lines = [] := by
  induction lines with
  | nil => rfl
  | cons line lines ih =>
      have hline : isFullSha line = false := h line List.mem_cons_self
      simp [takenFor, hline, ih fun l hl => h l (List.mem_cons_of_mem _ hl)]

end Lists

section Log

/-- The lines with text in which `git log` prints the files of a commit: a path
is one line unless it has a line break. -/
def fileLines (c : Commit) : List Str :=
  textLines ((if c.isMerge then [] else c.paths).flatMap fun path => splitlines (path ++ ['\n']))

/-- The lines of `d` below a line that reads `sha`. -/
def strayLines (sha : Str) (d : Commit) : List Str :=
  takenFor sha none (fileLines d)

theorem textLines_append
    (lines lines' : List Str) :
    textLines (lines ++ lines') = textLines lines ++ textLines lines' := by
  simp [textLines]

theorem IsUnquoted.no_return
    {path : Str} (h : IsUnquoted path) :
    '\r' ∉ path := by
  intro hmem
  have hge := (h.2 _ hmem).1
  revert hge
  decide

theorem splitlines_printPaths
    {paths : List Str} (rest : Str)
    (hpaths : ∀ path ∈ paths, IsUnquoted path) :
    splitlines (printPaths paths ++ rest) =
      (paths.flatMap fun path => splitlines (path ++ ['\n'])) ++ splitlines rest := by
  induction paths with
  | nil => rfl
  | cons path paths ih =>
      have hassoc : printPaths (path :: paths) ++ rest =
          path ++ '\n' :: (printPaths paths ++ rest) := by
        simp [printPaths]
      rw [hassoc, splitlines_append_newline _ (hpaths path List.mem_cons_self).no_return,
        ih fun p hp => hpaths p (List.mem_cons_of_mem _ hp), List.flatMap_cons,
        List.append_assoc]

theorem IsSha.isFullSha
    {sha : Str} (h : IsSha sha) :
    isFullSha sha = true := by
  have htext := h.spec.1
  simp only [isShaText, Bool.and_eq_true, decide_eq_true_eq] at htext
  simp only [Commits.isFullSha, h.1, htext.2, decide_true, Bool.and_self]

/-- The lines of a commit: its id and the lines of its files. -/
theorem textLines_entry
    {c : Commit} (rest : Str)
    (hsha : IsSha c.sha)
    (hpaths : ∀ path ∈ c.paths, IsUnquoted path) :
    textLines (splitlines
        (c.sha ++ '\n' :: (printPaths (if c.isMerge then [] else c.paths) ++ rest))) =
      c.sha :: (fileLines c ++ textLines (splitlines rest)) := by
  obtain ⟨-, -, hne, hspace⟩ := hsha.spec
  have hbreak : ∀ d ∈ c.sha, isLineBreak d = false :=
    fun d hd => isLineBreak_of_not_isSpace (hspace d hd)
  have hstrip : rstripSpace c.sha = c.sha :=
    List.rdropWhile_eq_self_iff.mpr fun h => by
      rw [hspace _ (List.getLast_mem h)]
      decide
  have hlogged : ∀ path ∈ (if c.isMerge then [] else c.paths), IsUnquoted path := by
    intro path hpath
    split at hpath
    · cases hpath
    · exact hpaths path hpath
  rw [splitlines_append_break _ hbreak (by decide) (by decide),
    splitlines_printPaths _ hlogged]
  have hcons : ∀ lines, textLines (c.sha :: lines) = c.sha :: textLines lines := by
    intro lines
    simp [textLines, hstrip, hne]
  rw [hcons, textLines_append]
  rfl

/-- The lines of the log: an id and the lines of its files for each commit. -/
theorem textLines_logText
    {log : List Commit}
    (hsha : ∀ c ∈ log, IsSha c.sha)
    (hpaths : ∀ c ∈ log, ∀ path ∈ c.paths, IsUnquoted path) :
    textLines (splitlines (logText log)) = log.flatMap fun c => c.sha :: fileLines c := by
  induction log with
  | nil => rfl
  | cons c log ih =>
      have hassoc : logText (c :: log) =
          c.sha ++ '\n' :: (printPaths (if c.isMerge then [] else c.paths) ++ logText log) := by
        simp [logText]
      rw [hassoc, textLines_entry _ (hsha c List.mem_cons_self) (hpaths c List.mem_cons_self),
        ih (fun d hd => hsha d (List.mem_cons_of_mem _ hd))
          fun d hd => hpaths d (List.mem_cons_of_mem _ hd)]
      rfl

/-- What follows a commit in the log of the names: nothing, or a line feed and the rest. -/
theorem textLines_printEntry
    {c : Commit} {rest : Str}
    (hsha : IsSha c.sha)
    (hpaths : ∀ path ∈ c.paths, IsUnquoted path)
    (hrest : rest = [] ∨ ∃ more, rest = '\n' :: more) :
    textLines (splitlines (printEntry c ++ rest)) =
      c.sha :: (fileLines c ++ textLines (splitlines rest)) := by
  have hentry := fun more => textLines_entry more hsha hpaths
  unfold printEntry
  dsimp only
  by_cases hnone : (if c.isMerge then [] else c.paths) = []
  · have hline : ∀ more, textLines (splitlines (c.sha ++ '\n' :: more)) =
        c.sha :: (fileLines c ++ textLines (splitlines more)) := by
      intro more
      rw [← hentry more, hnone]
      rfl
    rw [if_pos hnone, List.append_nil]
    rcases hrest with rfl | ⟨more, rfl⟩
    · obtain ⟨-, -, hne, hspace⟩ := hsha.spec
      have hbreak : ∀ d ∈ c.sha, isLineBreak d = false :=
        fun d hd => isLineBreak_of_not_isSpace (hspace d hd)
      have hlast : splitlines (c.sha ++ []) = splitlines (c.sha ++ ['\n']) := by
        rw [List.append_nil, splitlines_eq_singleton hne hbreak,
          splitlines_append_break [] hbreak (by decide) (by decide)]
        rfl
      rw [hlast, hline]
    · have hblank : splitlines ('\n' :: more) = [] :: splitlines more :=
        splitlines_break _ (by decide) (by decide)
      rw [hline, hblank]
      rfl
  · rw [if_neg hnone, List.append_assoc, List.cons_append]
    exact hentry rest

theorem printNames_cons_cons
    (c d : Commit) (log : List Commit) :
    printNames (c :: d :: log) = printEntry c ++ '\n' :: printNames (d :: log) := by
  unfold printNames
  rw [List.map_cons, List.map_cons, List.intercalate_cons_cons, List.append_assoc]
  rfl

theorem mem_printNames
    {log : List Commit} {char : Char}
    (h : char ∈ printNames log) :
    char = '\n' ∨ ∃ c ∈ log, char ∈ printEntry c := by
  induction log with
  | nil => cases h
  | cons c log ih =>
      cases log with
      | nil => exact Or.inr ⟨c, List.mem_cons_self, by simpa [printNames] using h⟩
      | cons d log =>
          rw [printNames_cons_cons, List.mem_append, List.mem_cons] at h
          rcases h with h | h | h
          · exact Or.inr ⟨c, List.mem_cons_self, h⟩
          · exact Or.inl h
          · exact (ih h).imp_right fun ⟨e, he, hchar⟩ => ⟨e, List.mem_cons_of_mem _ he, hchar⟩

/-- The blank lines make no difference. -/
theorem textLines_printNames
    {log : List Commit}
    (hsha : ∀ c ∈ log, IsSha c.sha)
    (hpaths : ∀ c ∈ log, ∀ path ∈ c.paths, IsUnquoted path) :
    textLines (splitlines (printNames log)) = textLines (splitlines (logText log)) := by
  rw [textLines_logText hsha hpaths]
  induction log with
  | nil => rfl
  | cons c log ih =>
      have hentry : ∀ rest, (rest = [] ∨ ∃ more, rest = '\n' :: more) →
          textLines (splitlines (printEntry c ++ rest)) =
            c.sha :: (fileLines c ++ textLines (splitlines rest)) :=
        fun rest => textLines_printEntry (hsha c List.mem_cons_self) (hpaths c List.mem_cons_self)
      have hlog := ih (fun d hd => hsha d (List.mem_cons_of_mem _ hd))
        fun d hd => hpaths d (List.mem_cons_of_mem _ hd)
      rw [List.flatMap_cons]
      cases log with
      | nil =>
          have hone : printNames [c] = printEntry c ++ [] := by simp [printNames]
          rw [hone, hentry [] (Or.inl rfl)]
          rfl
      | cons d log =>
          have hblank : splitlines ('\n' :: printNames (d :: log)) =
              [] :: splitlines (printNames (d :: log)) :=
            splitlines_break _ (by decide) (by decide)
          rw [printNames_cons_cons, hentry _ (Or.inr ⟨_, rfl⟩), hblank, ← hlog]
          rfl

/-- The lines of a log that are taken for files of `sha`: those of its commit up
to the first id, and the stray ones. -/
def takenFromLog (sha : Str) (log : List Commit) : List Str :=
  log.flatMap fun d =>
    (if d.sha = sha then (fileLines d).takeWhile (fun line => !isFullSha line) else []) ++
      strayLines sha d

theorem takenFor_log
    {sha : Str} {log : List Commit} {cur : Option Str}
    (hsha : ∀ c ∈ log, IsSha c.sha) (hcur : cur ≠ some sha) :
    takenFor sha cur (log.flatMap fun c => c.sha :: fileLines c) = takenFromLog sha log := by
  unfold takenFromLog
  induction log generalizing cur with
  | nil => rfl
  | cons c log ih =>
      have hstart : ∀ d lines, takenFor sha d (c.sha :: lines) =
          takenFor sha (some c.sha) lines := by
        intro d lines
        rw [takenFor, if_pos (hsha c List.mem_cons_self).isFullSha]
      rw [List.flatMap_cons, List.flatMap_cons, List.cons_append, hstart]
      have hrest := @ih none (fun d hd => hsha d (List.mem_cons_of_mem _ hd)) (by simp)
      -- The next commit starts with its id, so the lines of this one end there.
      have happend : ∀ d, takenFor sha d (fileLines c ++
          log.flatMap fun c => c.sha :: fileLines c) = takenFor sha d (fileLines c) ++
          takenFor sha none (log.flatMap fun c => c.sha :: fileLines c) := by
        intro d
        cases log with
        | nil => simp [takenFor]
        | cons next log =>
            have hnext := (hsha next (by simp)).isFullSha
            rw [List.flatMap_cons, List.cons_append, takenFor_append_sha _ _ hnext, takenFor,
              if_pos hnext]
      rw [happend, hrest]
      congr 1
      by_cases heq : c.sha = sha
      · rw [if_pos heq, heq, takenFor_self, strayLines]
      · rw [if_neg heq, List.nil_append, takenFor_of_ne _ (by simpa using heq), strayLines]

/-- No line that is taken reads like an id. -/
theorem mem_takenFromLog
    {sha line : Str} {log : List Commit}
    (h : line ∈ takenFromLog sha log) :
    isFullSha line = false := by
  obtain ⟨d, -, hline⟩ := List.mem_flatMap.mp h
  rcases List.mem_append.mp hline with hline | hline
  · split at hline
    · simpa using List.mem_takeWhile_imp hline
    · cases hline
  · exact (mem_takenFor hline).2

/-- Only stray lines are taken from the other commits. -/
theorem takenFromLog_of_ne
    {sha : Str} {log : List Commit}
    (hlog : ∀ d ∈ log, d.sha ≠ sha) :
    takenFromLog sha log = log.flatMap (strayLines sha) := by
  induction log with
  | nil => rfl
  | cons d log ih =>
      have ih := ih fun e he => hlog e (List.mem_cons_of_mem _ he)
      unfold takenFromLog at ih ⊢
      rw [List.flatMap_cons, List.flatMap_cons, if_neg (hlog d List.mem_cons_self),
        List.nil_append, ih]

end Log

section Agreement

variable {history : History} {c : Commit}

/-- The names with which the two ways agree: no line of the log is below a path
that reads the id of `c`; and the lines of `c` start with something that reads
like an id, or none of them does and none starts with a blank.  For a candidate
that is not in the log, what is below such a path may be its files by accident. -/
def KeepsFiles (log : List Commit) (c : Commit) : Prop :=
  ((∀ d ∈ log, strayLines c.sha d = []) ∧
    (c ∈ log →
      (∃ first ∈ (fileLines c).head?, isFullSha first = true) ∨
      ∀ line ∈ fileLines c, isFullSha line = false ∧ ∀ ch ∈ line.head?, isSpace ch = false)) ∨
  (c ∉ log ∧ log.flatMap (strayLines c.sha) = (fileLines c).map lstripSpace)

/-- `git show` leaves no blanks on either side. -/
theorem fileListFromShow_eq
    (hc : c ∈ history.candidates) (hmerge : c.isMerge = false) :
    fileListFromShow (history.showText c.sha) = (fileLines c).map lstripSpace := by
  have hpaths : ∀ path ∈ c.paths, IsUnquoted path :=
    history.isUnquoted c (List.mem_append_right _ hc)
  have hlines : splitlines (history.showText c.sha) =
      c.paths.flatMap fun path => splitlines (path ++ ['\n']) := by
    have hsplit := splitlines_printPaths [] hpaths
    rw [List.append_nil] at hsplit
    rw [history.showText_eq c hc hmerge, hsplit, splitlines, List.append_nil]
  have hnil : ∀ line, strip line = [] ↔ rstripSpace line = [] := by
    intro line
    rw [strip_eq_nil_iff, rstripSpace, List.rdropWhile_eq_nil_iff]
  rw [fileListFromShow, hlines, fileLines, hmerge, if_neg (by decide), textLines]
  generalize (c.paths.flatMap fun path => splitlines (path ++ ['\n'])) = lines
  induction lines with
  | nil => rfl
  | cons line lines ih =>
      by_cases hblank : rstripSpace line = []
      · simpa [hblank, (hnil line).mpr hblank] using ih
      · have hstrip : strip line ≠ [] := mt (hnil line).mp hblank
        simpa [hblank, hstrip, ← strip_eq_lstripSpace_rstripSpace] using ih

/-- The lines taken for `c` from the log, or what `git show` prints. -/
theorem files_eq
    {skipPrefixes : List Str}
    (hskip : skipPrefixes ≠ []) (hc : c ∈ history.candidates) :
    history.files skipPrefixes c =
      if takenFromLog c.sha history.log = [] then fileListFromShow (history.showText c.sha)
      else takenFromLog c.sha history.log := by
  have hlog : ∀ d ∈ history.log, d ∈ history.log ++ history.candidates :=
    fun d hd => List.mem_append_left _ hd
  have htaken := foldl_nameOnlyStep (splitlines (logText history.log)) (fun _ => none) none c.sha
  rw [textLines_logText (fun d hd => history.isSha d (hlog d hd))
    (fun d hd => history.isUnquoted d (hlog d hd)),
    takenFor_log (fun d hd => history.isSha d (hlog d hd)) (by simp)] at htaken
  have hmem : c.sha ∈ history.candidates.map Commit.sha := List.mem_map_of_mem hc
  have hneed : c.sha ∈ (history.candidates.map Commit.sha).filter (fun sha =>
      (fileListsFromNameOnlyLog (logText history.log) sha).getD [] = []) ↔
      takenFromLog c.sha history.log = [] := by
    rw [List.mem_filter, decide_eq_true_eq, fileListsFromNameOnlyLog, htaken]
    exact and_iff_right hmem
  unfold History.files resolveFileListsWithFallback
  rw [if_neg hskip]
  dsimp only
  rw [if_pos hmem, Option.getD_some]
  by_cases hnil : takenFromLog c.sha history.log = []
  · rw [if_pos (hneed.mpr hnil), if_pos hnil, Option.getD_some]
  · rw [if_neg (mt hneed.mp hnil), if_neg hnil]
    exact htaken

/-- A listed commit: its own lines up to the first id, between stray lines. -/
theorem takenFromLog_of_mem
    (hmem : c ∈ history.log) :
    ∃ front back, history.log = front ++ c :: back ∧
      takenFromLog c.sha history.log =
        front.flatMap (strayLines c.sha) ++
          ((fileLines c).takeWhile (fun line => !isFullSha line) ++ strayLines c.sha c) ++
          back.flatMap (strayLines c.sha) := by
  obtain ⟨front, back, hlog⟩ := List.append_of_mem hmem
  have hnodup := history.nodup
  rw [hlog, List.nodup_middle, List.nodup_cons] at hnodup
  have hother : ∀ d, d ∈ front ++ back → d.sha ≠ c.sha := by
    intro d hd heq
    have hdmem : d ∈ history.log := by
      rw [hlog]
      rcases List.mem_append.mp hd with hd | hd
      · exact List.mem_append_left _ hd
      · exact List.mem_append_right _ (List.mem_cons_of_mem _ hd)
    have hsame := history.eq_of_sha d (List.mem_append_left _ hdmem) c
      (List.mem_append_left _ hmem) heq
    exact hnodup.1 (hsame ▸ hd)
  refine ⟨front, back, hlog, ?_⟩
  have happend : ∀ part part', takenFromLog c.sha (part ++ part') =
      takenFromLog c.sha part ++ takenFromLog c.sha part' := fun _ _ => List.flatMap_append
  have hself : takenFromLog c.sha [c] =
      (fileLines c).takeWhile (fun line => !isFullSha line) ++ strayLines c.sha c := by
    rw [takenFromLog, List.flatMap_singleton, if_pos rfl]
  rw [hlog, List.append_cons, happend, happend, hself,
    takenFromLog_of_ne fun d hd => hother d (List.mem_append_left _ hd),
    takenFromLog_of_ne fun d hd => hother d (List.mem_append_right _ hd)]

/-- A line that keeps its blanks starts with none. -/
theorem head_of_lstripSpace_eq_self
    {line : Str} (h : lstripSpace line = line) :
    ∀ ch ∈ line.head?, isSpace ch = false := by
  intro ch hch
  have hnot := List.head?_dropWhile_not isSpace line
  rw [lstripSpace] at h
  rw [h, hch] at hnot
  exact hnot

theorem lstripSpace_eq_self
    {line : Str} (h : ∀ ch ∈ line.head?, isSpace ch = false) :
    lstripSpace line = line := by
  cases line with
  | nil => rfl
  | cons ch line =>
      refine List.dropWhile_cons_of_neg ?_
      rw [h ch rfl]
      decide

/-- Nothing is stripped from a line that reads like an id. -/
theorem lstripSpace_of_isFullSha
    {line : Str} (h : isFullSha line = true) :
    lstripSpace line = line := by
  simp only [isFullSha, Bool.and_eq_true, List.all_eq_true] at h
  exact lstripSpace_eq_self fun ch hch => isSpace_of_isHexDigit (h.2 ch (List.mem_of_mem_head? hch))

/-- What is taken for a listed commit is nothing or what `git show` leaves of its
lines. -/
theorem takenFromLog_iff_of_mem
    (hmem : c ∈ history.log) :
    takenFromLog c.sha history.log = [] ∨
        takenFromLog c.sha history.log = (fileLines c).map lstripSpace ↔
      (∀ d ∈ history.log, strayLines c.sha d = []) ∧
        ((∃ first ∈ (fileLines c).head?, isFullSha first = true) ∨
          ∀ line ∈ fileLines c, isFullSha line = false ∧
            ∀ ch ∈ line.head?, isSpace ch = false) := by
  obtain ⟨front, back, hlog, htaken⟩ := takenFromLog_of_mem hmem
  have hstray : (∀ d ∈ history.log, strayLines c.sha d = []) ↔
      front.flatMap (strayLines c.sha) = [] ∧ strayLines c.sha c = [] ∧
        back.flatMap (strayLines c.sha) = [] := by
    rw [hlog, List.forall_mem_append, List.forall_mem_cons, List.flatMap_eq_nil_iff,
      List.flatMap_eq_nil_iff]
  rw [hstray]
  constructor
  · rintro (hnil | heq)
    · rw [htaken, List.append_eq_nil_iff, List.append_eq_nil_iff, List.append_eq_nil_iff] at hnil
      obtain ⟨⟨hfront, hown, hself⟩, hback⟩ := hnil
      refine ⟨⟨hfront, hself, hback⟩, ?_⟩
      cases hlines : fileLines c with
      | nil => exact Or.inr fun line hline => by cases hline
      | cons first lines =>
          refine Or.inl ⟨first, rfl, ?_⟩
          by_contra hfirst
          rw [hlines, List.takeWhile_cons_of_pos (by simpa using hfirst)] at hown
          cases hown
    · -- No line that is taken reads like an id, so none of the commit's does.
      have hplain : ∀ line ∈ fileLines c, isFullSha line = false := by
        intro line hline
        by_contra hfull
        have hfull : isFullSha line = true := by simpa using hfull
        have hin : line ∈ takenFromLog c.sha history.log := by
          rw [heq]
          exact List.mem_map.mpr ⟨line, hline, lstripSpace_of_isFullSha hfull⟩
        rw [mem_takenFromLog hin] at hfull
        cases hfull
      have hself : strayLines c.sha c = [] := takenFor_none_eq_nil hplain
      have hown : (fileLines c).takeWhile (fun line => !isFullSha line) = fileLines c :=
        List.takeWhile_eq_self_iff.mpr fun line hline => by simp [hplain line hline]
      have hlength := congrArg List.length heq
      rw [htaken, hself, hown] at hlength heq
      simp only [List.append_nil, List.length_append, List.length_map] at hlength
      have hfront : front.flatMap (strayLines c.sha) = [] := List.length_eq_zero_iff.mp (by omega)
      have hback : back.flatMap (strayLines c.sha) = [] := List.length_eq_zero_iff.mp (by omega)
      rw [hfront, hback, List.nil_append, List.append_nil, List.append_nil] at heq
      refine ⟨⟨hfront, hself, hback⟩, Or.inr fun line hline => ⟨hplain line hline, ?_⟩⟩
      have hkept := List.map_eq_map_iff.mp (heq.symm.trans (List.map_id _).symm)
      exact head_of_lstripSpace_eq_self (hkept line hline)
  · rintro ⟨⟨hfront, hself, hback⟩, hlines⟩
    rw [htaken, hfront, hself, hback, List.nil_append, List.append_nil, List.append_nil]
    rcases hlines with ⟨first, hfirst, hfull⟩ | hplain
    · left
      obtain ⟨lines, hcons⟩ := List.head?_eq_some_iff.mp hfirst
      rw [hcons, List.takeWhile_cons_of_neg (by simp [hfull])]
    · right
      rw [List.takeWhile_eq_self_iff.mpr fun line hline => by simp [(hplain line hline).1]]
      symm
      exact (List.map_congr_left fun line hline =>
        lstripSpace_eq_self (hplain line hline).2).trans (List.map_id _)

/-- The batched file list of a candidate that is no merge is the one of its own
`git show`, and with it the decision to skip the commit, if and only if the
names keep the two apart from ids and blanks. -/
theorem batched_files_iff
    {skipPrefixes : List Str}
    (hskip : skipPrefixes ≠ [])
    (hc : c ∈ history.candidates)
    (hmerge : c.isMerge = false) :
    (history.files skipPrefixes c = fileListFromShow (history.showText c.sha) ∧
      allPathsOnlySkippedFromFileList (some (history.files skipPrefixes c)) skipPrefixes =
        allPathsOnlySkippedFromFileList (some (fileListFromShow (history.showText c.sha)))
          skipPrefixes) ↔
      KeepsFiles history.log c := by
  have hiff : history.files skipPrefixes c = fileListFromShow (history.showText c.sha) ↔
      takenFromLog c.sha history.log = [] ∨
        takenFromLog c.sha history.log = (fileLines c).map lstripSpace := by
    rw [files_eq hskip hc, ← fileListFromShow_eq hc hmerge]
    by_cases hnil : takenFromLog c.sha history.log = []
    · simp [hnil]
    · simp [hnil]
  rw [and_iff_left_of_imp fun heq => by rw [heq], hiff, KeepsFiles]
  by_cases hmem : c ∈ history.log
  · rw [takenFromLog_iff_of_mem hmem]
    simp [hmem]
  · have hother : ∀ d ∈ history.log, d.sha ≠ c.sha := by
      intro d hd heq
      exact hmem (history.eq_of_sha d (List.mem_append_left _ hd) c
        (List.mem_append_right _ hc) heq ▸ hd)
    rw [takenFromLog_of_ne hother, List.flatMap_eq_nil_iff]
    simp [hmem]

/-- A history of one commit, which is in the log and a candidate. -/
def oneCommit
    (paths : List Str)
    (hpaths : ∀ path ∈ paths, IsUnquoted path) :
    History where
  log := [⟨List.replicate 40 'a', false, paths⟩]
  candidates := [⟨List.replicate 40 'a', false, paths⟩]
  showText _ := printPaths paths
  showText_eq c hc _ := by
    obtain rfl := List.mem_singleton.mp hc
    rfl
  nodup := List.nodup_singleton _
  eq_of_sha c hc d hd _ := by
    have hone : ∀ c ∈ [Commit.mk (List.replicate 40 'a') false paths] ++
        [Commit.mk (List.replicate 40 'a') false paths],
        c = Commit.mk (List.replicate 40 'a') false paths := by simp
    rw [hone c hc, hone d hd]
  isSha c hc := by
    have hone : c = Commit.mk (List.replicate 40 'a') false paths := by simpa using hc
    rw [hone]
    simp [IsSha]
  isUnquoted c hc := by
    have hone : c = Commit.mk (List.replicate 40 'a') false paths := by simpa using hc
    rw [hone]
    exact hpaths

theorem batched_files_one_commit :
    let history := oneCommit ["src/a b".toList] (by simp [IsUnquoted])
    let c : Commit := ⟨List.replicate 40 'a', false, ["src/a b".toList]⟩
    (history.files ["docs".toList] c = fileListFromShow (history.showText c.sha) ∧
      allPathsOnlySkippedFromFileList (some (history.files ["docs".toList] c)) ["docs".toList] =
        allPathsOnlySkippedFromFileList (some (fileListFromShow (history.showText c.sha)))
          ["docs".toList]) ↔
      KeepsFiles history.log c :=
  batched_files_iff (by decide) (List.mem_singleton_self _) rfl

/-- A documentation file, one named like an id, and a source file. -/
def hidingPaths : List Str :=
  ["docs/x".toList, List.replicate 40 'f', "src/y".toList]

theorem isUnquoted_hidingPaths :
    ∀ path ∈ hidingPaths, IsUnquoted path := by
  simp [hidingPaths, IsUnquoted]

/-- A file that is named like an id hides the files that follow it. -/
theorem file_named_like_an_id_hides_files :
    ¬ ∀ (history : History) (skipPrefixes : List Str) (c : Commit),
      skipPrefixes ≠ [] → c ∈ history.candidates → c.isMerge = false →
      history.files skipPrefixes c = fileListFromShow (history.showText c.sha) ∧
        allPathsOnlySkippedFromFileList (some (history.files skipPrefixes c)) skipPrefixes =
          allPathsOnlySkippedFromFileList (some (fileListFromShow (history.showText c.sha)))
            skipPrefixes := by
  intro h
  have hskip := (h (oneCommit _ isUnquoted_hidingPaths) ["docs".toList] _ (by decide)
    (List.mem_singleton_self _) rfl).2
  revert hskip
  decide +kernel

end Agreement

end Commits
end YdbSnippets
