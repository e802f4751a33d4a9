import YdbSnippets.Commits.Issues
import YdbSnippets.Commits.SkipFiles
import YdbSnippets.Lists.Matching
import YdbSnippets.Lists.Sorting
import Mathlib.Data.Finset.Basic
import Mathlib.Data.Prod.Lex

/-!
# The commits that are probably missing

`find_probable_missing` puts together what several `git` commands print.  Over a
repository whose commands print what they are documented to print, the commits
that remain are those that no rule removes, sorted.
-/

namespace YdbSnippets
namespace Commits

open Matching Python Sorting Text

section Commands

/-- `git -C <repo>`, by its arguments. -/
abbrev GitRunner := List Str → CompletedProcess

variable (run : GitRunner)

/-- `run_git`, from the arguments. -/
def runGitArgs (args : List Str) : Except Nat Str :=
  runGit (run args)

/-- The exit status of `SystemExit(code)`. -/
def exitStatus (code : Int) : Nat := (code % 256).toNat

def ancestorArgs (commit ref : Str) : List Str :=
  ["merge-base".toList, "--is-ancestor".toList, commit, ref]

/-- `is_ancestor` -/
def isAncestor (commit ref : Str) : Except Nat Bool :=
  let p := run (ancestorArgs commit ref)
  if p.returncode = 0 then .ok true
  else if p.returncode = 1 then .ok false
  else .error (exitStatus p.returncode)

def sinceArg (since : Str) : Str := "--since=".toList ++ since

/-- `git log <previous> ^<next> --since=<since>` -/
def rangeArgs (previousRef nextRef since : Str) : List Str :=
  ["log".toList, previousRef, '^' :: nextRef, sinceArg since]

def commitsArgs (previousRef nextRef since : Str) : List Str :=
  rangeArgs previousRef nextRef since ++
    ["--reverse".toList, "--format=%H%x00%B%x00%ct%x00".toList]

def namesArgs (previousRef nextRef since : Str) : List Str :=
  rangeArgs previousRef nextRef since ++
    ["--reverse".toList, "--name-only".toList, "--no-renames".toList,
      "--pretty=format:%H".toList]

def messagesArgs (ref : Str) (since : Option Str) : List Str :=
  ["log".toList, ref, "--format=%B".toList] ++ (since.map sinceArg).toList

def showArgs (commit : Str) : List Str :=
  ["show".toList, "--pretty=format:".toList, "--name-only".toList, "--no-renames".toList,
    commit]

/-- `build_ref_issue_set` -/
def buildRefIssueSet (ref : Str) (since : Option Str) : Except Nat (Finset Str) := do
  let raw ← runGitArgs run (messagesArgs ref since)
  return extractIssueIds raw

/-- `_file_list_map_for_same_range` -/
def fileListMapForSameRange (previousRef nextRef since : Str) : Except Nat FileMap := do
  let out ← runGitArgs run (namesArgs previousRef nextRef since)
  return fileListsFromNameOnlyLog out

/-- `show_files` -/
def showFiles (sha : Str) : Except Nat (Str × List Str) := do
  let out ← runGitArgs run (showArgs sha)
  return (sha, fileListFromShow out)

/-- `need_show`: the commits without files in the log. -/
def needShow (commits : List Str) (fileMap : FileMap) : List Str :=
  sortedBy id (commits.filter fun sha => (fileMap sha).getD [] = []).dedup

/-- `_resolve_file_lists_with_fallback`, with the commands it runs. -/
def resolveFileLists (commits : List Str) (fileMap : FileMap) (skipPrefixes : List Str) :
    Except Nat FileMap :=
  if skipPrefixes = [] then .ok fun _ => none
  else do
    let shown ← (needShow commits fileMap).mapM (showFiles run)
    let resolved : FileMap := fun sha => (shown.lookup sha).or (fileMap sha)
    return fun sha => if sha ∈ commits then some ((resolved sha).getD []) else none

end Commands

section Analysis

/-- The arguments of `find_probable_missing`. -/
structure Analysis where
  previousRef : Str
  nextRef : Str
  since : Str
  nextSince : Option Str
  skipPrefixes : List Str
  baseRef : Option Str
  baseSince : Option Str

variable (py : Interpreter) (run : GitRunner) (a : Analysis)

/-- `prev_ids and prev_ids <= issues` -/
def allListed (ids issues : Finset Str) : Bool :=
  decide (ids ≠ ∅) && decide (ids ⊆ issues)

/-- One turn of the loop: whether the commit goes to `out`. -/
def isMissing (fileBy : FileMap) (nextIssues baseIssues : Finset Str) (c : CommitInfo) :
    Except Nat Bool :=
  if a.skipPrefixes ≠ [] ∧
      allPathsOnlySkippedFromFileList (some ((fileBy c.sha).getD [])) a.skipPrefixes = true then
    .ok false
  else
    let prevIds := extractIssueIds c.message
    if allListed prevIds nextIssues then .ok false
    else
      match a.baseRef with
      | none => .ok true
      | some base => do
          if ← isAncestor run c.sha base then return false
          return !allListed prevIds baseIssues

/-- The loop of `find_probable_missing`. -/
def keepMissing (turn : CommitInfo → Except Nat Bool) :
    List CommitInfo → Except Nat (List CommitInfo)
  | [] => .ok []
  | c :: commits => do
      let missing ← turn c
      let out ← keepMissing turn commits
      return if missing then c :: out else out

/-- The sort key of the output. -/
def reportKey (c : CommitInfo) : Int ×ₗ Str :=
  toLex (c.commitTs, c.sha)

/-- `do_base`, or no issues without a base. -/
def doBase : Except Nat (Finset Str) :=
  match a.baseRef with
  | none => .ok ∅
  | some base => buildRefIssueSet run base a.baseSince

/-- `do_commits` -/
def doCommits : Except Nat (List CommitInfo) :=
  listCommitsOnPreviousNotAncestorOfNext py
    (run (commitsArgs a.previousRef a.nextRef a.since))

/-- `do_name_map`, or no files without prefixes. -/
def doNameMap : Except Nat FileMap :=
  if a.skipPrefixes = [] then .ok fun _ => none
  else fileListMapForSameRange run a.previousRef a.nextRef a.since

/-- `find_probable_missing`.  The results of the pool are taken in this order. -/
def findProbableMissing : Except Nat (List CommitInfo) := do
  let nextIssues ← buildRefIssueSet run a.nextRef a.nextSince
  let baseIssues ← doBase run a
  let commits ← doCommits py run a
  let fileMap ← doNameMap run a
  let fileBy ← resolveFileLists run (commits.map CommitInfo.sha) fileMap a.skipPrefixes
  let out ← keepMissing (isMissing run a fileBy nextIssues baseIssues) commits
  return sortedBy reportKey out

end Analysis

/-! ## Repositories -/

section Repositories

/-- A path that is printed on one line of its own, without quotes, and does not read
like an id. -/
structure IsPlainPath (path : Str) : Prop where
  unquoted : IsUnquoted path
  oneLine : ∀ c ∈ path, isLineBreak c = false
  head : ∀ c ∈ path.head?, isSpace c = false
  last : ∀ c ∈ path.getLast?, isSpace c = false
  notSha : isFullSha path = false

/-- A commit as the commands show it.  The message is UTF-8, and the paths are as git
prints them, with quotes where it needs them.  The paths of a merge are those that
`git show` lists for it. -/
structure LoggedCommit extends LogEntry where
  isSha : IsSha sha
  isMerge : Bool
  paths : List Str

def LoggedCommit.commit (c : LoggedCommit) : Commit where
  sha := c.sha
  isMerge := c.isMerge
  paths := c.paths

/-- The commit as the tool reads it. -/
def LoggedCommit.info (c : LoggedCommit) : CommitInfo :=
  c.toLogEntry.normalised.info

/-- What refs reach, and what `git log <ref> ^<excluded> --since=<since>` lists of it. -/
structure Repository where
  isRef : Str → Prop
  log : Str → Option Str → Option Str → List LoggedCommit
  reaches : Str → Str → Bool
  log_nodup : ∀ ref excluded since,
    ((log ref excluded since).map fun c => c.sha).Nodup
  reaches_of_log : ∀ ref excluded since, ∀ c ∈ log ref excluded since,
    reaches ref c.sha = true ∧ ∀ other ∈ excluded, reaches other c.sha = false

/-- The commands print what they are documented to print. -/
structure Repository.Serves (r : Repository) (run : GitRunner) : Prop where
  commits : ∀ previous next since, r.isRef previous → r.isRef next →
    (run (commitsArgs previous next since)).Prints
      (printLog ((r.log previous (some next) (some since)).map LoggedCommit.toLogEntry))
  names : ∀ previous next since, r.isRef previous → r.isRef next →
    (run (namesArgs previous next since)).Prints
      (printNames ((r.log previous (some next) (some since)).map LoggedCommit.commit))
  messages : ∀ ref since, r.isRef ref →
    (run (messagesArgs ref since)).Prints
      (printMessages ((r.log ref none since).map fun c => c.message))
  shows : ∀ ref excluded since, ∀ c ∈ r.log ref excluded since,
    (run (showArgs c.sha)).Prints (printPaths c.paths)
  ancestor : ∀ ref excluded since, ∀ c ∈ r.log ref excluded since, ∀ other, r.isRef other →
    (run (ancestorArgs c.sha other)).returncode = if r.reaches other c.sha then 0 else 1

/-- The message names issues, and each of them is named in the log. -/
def Squelched (log : List LoggedCommit) (message : Str) : Prop :=
  (∃ id, NamesIssue message id) ∧
    ∀ id, NamesIssue message id → ∃ c ∈ log, NamesIssue c.message id

/-- No rule removes the commit. -/
structure Repository.Missing (r : Repository) (a : Analysis) (c : LoggedCommit) : Prop where
  touches : a.skipPrefixes ≠ [] →
    ∃ path ∈ c.paths, ∀ pre ∈ a.skipPrefixes, ¬ Under pre (withSlashes path)
  unlisted : ¬ Squelched (r.log a.nextRef none a.nextSince) c.message
  notOnBase : ∀ base ∈ a.baseRef, r.reaches base c.sha = false ∧
    ¬ Squelched (r.log base none a.baseSince) c.message

/-- The refs of the analysis are refs. -/
structure Analysis.Resolved (a : Analysis) (r : Repository) : Prop where
  previous : r.isRef a.previousRef
  next : r.isRef a.nextRef
  base : ∀ base ∈ a.baseRef, r.isRef base

/-- `git log <previous> ^<next> --since=<since>` -/
def Repository.range (r : Repository) (a : Analysis) : List LoggedCommit :=
  r.log a.previousRef (some a.nextRef) (some a.since)

/-- Where paths are read, those of the range are plain. -/
def Repository.PlainPaths (r : Repository) (a : Analysis) : Prop :=
  a.skipPrefixes ≠ [] → ∀ c ∈ r.range a, ∀ path ∈ c.paths, IsPlainPath path

end Repositories

/-! ## What the commands are read as -/

section Replies

variable {run : GitRunner}

theorem runGitArgs_ok
    {args : List Str} {out : Str}
    (h : (run args).Prints out) :
    runGitArgs run args = .ok (universalNewlines out) :=
  h.runGit_eq

/-- The issues of a ref are those that its log names. -/
theorem buildRefIssueSet_spec
    {r : Repository} (hserves : r.Serves run)
    {ref : Str} (href : r.isRef ref) (since : Option Str) :
    ∃ issues, buildRefIssueSet run ref since = .ok issues ∧
      ∀ id, id ∈ issues ↔ ∃ c ∈ r.log ref none since, NamesIssue c.message id := by
  refine ⟨_, by rw [buildRefIssueSet, runGitArgs_ok (hserves.messages ref since href)]; rfl,
    fun id => ?_⟩
  rw [extractIssueIds_universalNewlines, mem_extractIssueIds_printMessages]
  simp only [List.mem_map, exists_exists_and_eq_and]

/-- `prev_ids and prev_ids <= issues`, where the issues are those of a log. -/
theorem allListed_iff
    {log : List LoggedCommit} {issues : Finset Str} {message : Str}
    (hissues : ∀ id, id ∈ issues ↔ ∃ c ∈ log, NamesIssue c.message id) :
    allListed (extractIssueIds message) issues = true ↔ Squelched log message := by
  rw [allListed, Bool.and_eq_true, decide_eq_true_eq, decide_eq_true_eq]
  refine and_congr ?_ ?_
  · rw [← Finset.nonempty_iff_ne_empty]
    exact exists_congr fun id => mem_extractIssueIds
  · exact forall_congr' fun id => imp_congr mem_extractIssueIds (hissues id)

theorem isAncestor_spec
    {r : Repository} (hserves : r.Serves run)
    {ref : Str} {excluded since : Option Str} {c : LoggedCommit}
    (hc : c ∈ r.log ref excluded since) {other : Str} (hother : r.isRef other) :
    isAncestor run c.sha other = .ok (r.reaches other c.sha) := by
  have hcode := hserves.ancestor ref excluded since c hc other hother
  unfold isAncestor
  dsimp only
  rw [hcode]
  cases r.reaches other c.sha with
  | true => rfl
  | false => rfl

end Replies

section Paths

theorem IsPlainPath.ne_nil
    {path : Str} (h : IsPlainPath path) :
    path ≠ [] :=
  h.unquoted.1

/-- A plain path is a line. -/
theorem IsPlainPath.splitlines_eq
    {path : Str} (h : IsPlainPath path) :
    splitlines (path ++ ['\n']) = [path] := by
  rw [splitlines_append_break [] h.oneLine (by decide) (by decide)]
  rfl

theorem IsPlainPath.strip_eq
    {path : Str} (h : IsPlainPath path) :
    strip path = path :=
  strip_eq_self h.head h.last

theorem IsPlainPath.rstripSpace_eq
    {path : Str} (h : IsPlainPath path) :
    rstripSpace path = path := by
  refine List.rdropWhile_eq_self_iff.mpr fun hne => ?_
  rw [h.last _ (List.getLast?_eq_some_getLast hne)]
  decide

variable {paths : List Str}

/-- Nothing is translated in what is printed of plain paths. -/
theorem return_not_mem_printPaths
    (h : ∀ path ∈ paths, IsPlainPath path) :
    '\r' ∉ printPaths paths := by
  intro hmem
  obtain ⟨path, hpath, hchar⟩ := List.mem_flatMap.mp hmem
  rcases List.mem_append.mp hchar with hchar | hchar
  · exact (h path hpath).unquoted.no_return hchar
  · exact absurd (List.mem_singleton.mp hchar) (by decide)

theorem flatMap_splitlines_plain
    (h : ∀ path ∈ paths, IsPlainPath path) :
    (paths.flatMap fun path => splitlines (path ++ ['\n'])) = paths := by
  induction paths with
  | nil => rfl
  | cons path paths ih =>
      rw [List.flatMap_cons, (h path List.mem_cons_self).splitlines_eq,
        ih fun p hp => h p (List.mem_cons_of_mem _ hp), List.singleton_append]

/-- What `git show` prints is read as it is. -/
theorem fileListFromShow_plain
    (h : ∀ path ∈ paths, IsPlainPath path) :
    fileListFromShow (universalNewlines (printPaths paths)) = paths := by
  have hlines : splitlines (printPaths paths) = paths := by
    have hsplit := splitlines_printPaths [] fun path hpath => (h path hpath).unquoted
    rw [List.append_nil] at hsplit
    rw [hsplit, splitlines, List.append_nil, flatMap_splitlines_plain h]
  rw [universalNewlines_eq_self_iff.mpr (return_not_mem_printPaths h), fileListFromShow, hlines]
  have hmap : paths.map strip = paths :=
    (List.map_congr_left fun path hpath => (h path hpath).strip_eq).trans (List.map_id _)
  rw [hmap]
  exact List.filter_eq_self.mpr fun path hpath => decide_eq_true (h path hpath).ne_nil

/-- The lines of a commit in the log. -/
theorem LoggedCommit.fileLines_eq
    {c : LoggedCommit}
    (hplain : ∀ path ∈ c.paths, IsPlainPath path) :
    fileLines c.commit = if c.isMerge then [] else c.paths := by
  have hlogged : ∀ path ∈ (if c.isMerge then [] else c.paths), IsPlainPath path := by
    intro path hpath
    split at hpath
    · cases hpath
    · exact hplain path hpath
  unfold fileLines LoggedCommit.commit
  rw [flatMap_splitlines_plain hlogged, textLines,
    (List.map_congr_left fun path hpath => (hlogged path hpath).rstripSpace_eq).trans
      (List.map_id _)]
  exact List.filter_eq_self.mpr fun path hpath => decide_eq_true (hlogged path hpath).ne_nil

end Paths

section Files

variable {log : List LoggedCommit}

/-- Nothing is translated in the log of the names. -/
theorem universalNewlines_printNames
    (hplain : ∀ c ∈ log, ∀ path ∈ c.paths, IsPlainPath path) :
    universalNewlines (printNames (log.map LoggedCommit.commit)) =
      printNames (log.map LoggedCommit.commit) := by
  rw [universalNewlines_eq_self_iff]
  intro hmem
  rcases mem_printNames hmem with hmem | ⟨d, hd, hmem⟩
  · exact absurd hmem (by decide)
  obtain ⟨c, hc, rfl⟩ := List.mem_map.mp hd
  rcases List.mem_append.mp hmem with hmem | hmem
  · exact absurd (c.isSha.spec.2.2.2 _ hmem) (by decide)
  · have hpaths : ∀ path ∈ (if c.commit.isMerge then [] else c.commit.paths), IsPlainPath path := by
      intro path hpath
      split at hpath
      · cases hpath
      · exact hplain c hc path hpath
    generalize (if c.commit.isMerge then [] else c.commit.paths) = paths at hmem hpaths
    split at hmem
    · cases hmem
    · rcases List.mem_cons.mp hmem with hmem | hmem
      · exact absurd hmem (by decide)
      · exact return_not_mem_printPaths hpaths hmem

theorem eq_of_sha
    (hnodup : (log.map fun c => c.sha).Nodup)
    {c d : LoggedCommit} (hc : c ∈ log) (hd : d ∈ log) (h : c.sha = d.sha) :
    c = d :=
  List.inj_on_of_nodup_map hnodup hc hd h

/-- What the log of the names is read as: nothing for a merge. -/
theorem fileListsFromNameOnlyLog_eq
    (hnodup : (log.map fun c => c.sha).Nodup)
    (hplain : ∀ c ∈ log, ∀ path ∈ c.paths, IsPlainPath path)
    {c : LoggedCommit} (hc : c ∈ log) :
    (fileListsFromNameOnlyLog (printNames (log.map LoggedCommit.commit)) c.sha).getD [] =
      if c.isMerge then [] else c.paths := by
  have hshas : ∀ d ∈ log.map LoggedCommit.commit, IsSha d.sha := by
    intro d hd
    obtain ⟨d, -, rfl⟩ := List.mem_map.mp hd
    exact d.isSha
  have hpaths : ∀ d ∈ log.map LoggedCommit.commit, ∀ path ∈ d.paths, IsUnquoted path := by
    intro _ hmem path hpath
    obtain ⟨d, hd, rfl⟩ := List.mem_map.mp hmem
    exact (hplain d hd path hpath).unquoted
  have hnotSha : ∀ d ∈ log, ∀ line ∈ fileLines d.commit, isFullSha line = false := by
    intro d hd line hline
    rw [LoggedCommit.fileLines_eq (hplain d hd)] at hline
    split at hline
    · cases hline
    · exact (hplain d hd line hline).notSha
  have hstray : ∀ d ∈ log, strayLines c.sha d.commit = [] :=
    fun d hd => takenFor_none_eq_nil (hnotSha d hd)
  have hown : (fileLines c.commit).takeWhile (fun line => !isFullSha line) = fileLines c.commit :=
    List.takeWhile_eq_self_iff.mpr fun line hline => by simp [hnotSha c hc line hline]
  rw [fileListsFromNameOnlyLog, foldl_nameOnlyStep, textLines_printNames hshas hpaths,
    textLines_logText hshas hpaths, takenFor_log hshas (by simp), Option.getD_none,
    List.nil_append, ← LoggedCommit.fileLines_eq (hplain c hc)]
  -- Only the commit itself has lines under its id.
  obtain ⟨front, back, rfl⟩ := List.append_of_mem hc
  have hother : ∀ part : List LoggedCommit, part ⊆ front ++ c :: back →
      (∀ d ∈ part, d.sha ≠ c.sha) →
      takenFromLog c.sha (part.map LoggedCommit.commit) = [] := by
    intro part hsub hpart
    refine (takenFromLog_of_ne fun d hd => ?_).trans (List.flatMap_eq_nil_iff.mpr fun d hd => ?_)
    · obtain ⟨e, he, rfl⟩ := List.mem_map.mp hd
      exact hpart e he
    · obtain ⟨e, he, rfl⟩ := List.mem_map.mp hd
      exact hstray e (hsub he)
  rw [List.map_append, List.map_cons, List.nodup_middle, List.nodup_cons,
    ← List.map_append] at hnodup
  have hne : ∀ d, d ∈ front ++ back → d.sha ≠ c.sha :=
    fun d hd heq => hnodup.1 (List.mem_map.mpr ⟨d, hd, heq⟩)
  have hself : takenFromLog c.sha [c.commit] = fileLines c.commit := by
    have hsame : c.commit.sha = c.sha := rfl
    rw [takenFromLog, List.flatMap_singleton, if_pos hsame, hstray c hc, List.append_nil, hown]
  have happend : ∀ part part', takenFromLog c.sha (part ++ part') =
      takenFromLog c.sha part ++ takenFromLog c.sha part' := fun _ _ => List.flatMap_append
  rw [List.map_append, List.map_cons, List.append_cons, happend, happend, hself,
    hother front (List.subset_append_left _ _) fun d hd => hne d (List.mem_append_left _ hd),
    hother back (fun d hd => List.mem_append_right _ (List.mem_cons_of_mem _ hd))
      fun d hd => hne d (List.mem_append_right _ hd),
    List.nil_append, List.append_nil]

theorem lookup_map_pair
    {f : Str → List Str} {shas : List Str} {sha : Str} :
    (shas.map fun s => (s, f s)).lookup sha = if sha ∈ shas then some (f sha) else none := by
  induction shas with
  | nil => rfl
  | cons s shas ih =>
      rw [List.map_cons, List.lookup_cons, ih]
      by_cases heq : sha = s
      · subst heq
        simp
      · have hbeq : (sha == s) = false := by simpa using heq
        simp [heq, hbeq]

/-- Where every `git show` succeeds, the files are those of the texts that it prints. -/
theorem resolveFileLists_eq
    {run : GitRunner} {showText : Str → Str} {commits skipPrefixes : List Str} {fileMap : FileMap}
    (hshow : ∀ sha ∈ commits, runGitArgs run (showArgs sha) = .ok (showText sha)) :
    resolveFileLists run commits fileMap skipPrefixes =
      .ok (resolveFileListsWithFallback showText commits fileMap skipPrefixes) := by
  unfold resolveFileLists resolveFileListsWithFallback
  by_cases hskip : skipPrefixes = []
  · rw [if_pos hskip, if_pos hskip]
  have hneed : ∀ sha, sha ∈ needShow commits fileMap ↔
      sha ∈ commits.filter fun sha => (fileMap sha).getD [] = [] := by
    intro sha
    rw [needShow, mem_sortedBy, List.mem_dedup]
  have hmapM : (needShow commits fileMap).mapM (showFiles run) =
      .ok ((needShow commits fileMap).map fun sha => (sha, fileListFromShow (showText sha))) := by
    rw [mapM_ok_iff, List.forall₂_map_right_iff, List.forall₂_same]
    intro sha hsha
    rw [showFiles, hshow sha (List.mem_filter.mp ((hneed sha).mp hsha)).1]
    rfl
  rw [if_neg hskip, if_neg hskip, hmapM]
  refine congrArg Except.ok (funext fun sha => ?_)
  simp only [lookup_map_pair, hneed]
  split_ifs <;> rfl

/-- Every commit gets its files, from the log or from `git show`. -/
theorem resolveFileLists_spec
    {run : GitRunner} {skipPrefixes : List Str}
    (hnodup : (log.map fun c => c.sha).Nodup)
    (hplain : ∀ c ∈ log, ∀ path ∈ c.paths, IsPlainPath path)
    (hshows : ∀ c ∈ log, (run (showArgs c.sha)).Prints (printPaths c.paths))
    (hskip : skipPrefixes ≠ []) :
    ∃ fileBy, resolveFileLists run (log.map fun c => c.sha)
        (fileListsFromNameOnlyLog (printNames (log.map LoggedCommit.commit))) skipPrefixes =
          .ok fileBy ∧
      ∀ c ∈ log, (fileBy c.sha).getD [] = c.paths := by
  let showText : Str → Str := fun sha => (runGitArgs run (showArgs sha)).toOption.getD []
  have hshow : ∀ c ∈ log, runGitArgs run (showArgs c.sha) = .ok (showText c.sha) ∧
      fileListFromShow (showText c.sha) = c.paths := by
    intro c hc
    have hok := runGitArgs_ok (hshows c hc)
    have htext : showText c.sha = universalNewlines (printPaths c.paths) := by
      change (runGitArgs run (showArgs c.sha)).toOption.getD [] = _
      rw [hok]
      rfl
    rw [htext]
    exact ⟨hok, fileListFromShow_plain (hplain c hc)⟩
  have hevery : ∀ sha ∈ log.map fun c => c.sha,
      runGitArgs run (showArgs sha) = .ok (showText sha) := by
    intro sha hsha
    obtain ⟨c, hc, rfl⟩ := List.mem_map.mp hsha
    exact (hshow c hc).1
  refine ⟨_, resolveFileLists_eq hevery, fun c hc => ?_⟩
  have hmem : c.sha ∈ log.map fun c => c.sha := List.mem_map_of_mem hc
  have hlogged := fileListsFromNameOnlyLog_eq hnodup hplain hc
  unfold resolveFileListsWithFallback
  rw [if_neg hskip]
  dsimp only
  rw [if_pos hmem, Option.getD_some]
  split_ifs with hneed
  · exact (hshow c hc).2
  · rw [hlogged]
    refine if_neg fun hmerge => hneed ?_
    rw [if_pos hmerge] at hlogged
    exact List.mem_filter.mpr ⟨hmem, decide_eq_true hlogged⟩

end Files

section Reported

variable {py : Interpreter} {run : GitRunner} {r : Repository} {a : Analysis}

/-- A commit is passed over if every path of it is under a prefix. -/
theorem allPathsOnlySkipped_paths_iff
    {paths skipPrefixes : List Str} (hskip : skipPrefixes ≠ []) :
    allPathsOnlySkippedFromFileList (some paths) skipPrefixes = true ↔
      ∀ path ∈ paths, ∃ pre ∈ skipPrefixes, Under pre (withSlashes path) := by
  unfold allPathsOnlySkippedFromFileList
  rw [if_neg hskip]
  simp only [List.all_eq_true, pathMatchesSkip_iff]

/-- A turn of the loop keeps a commit that no rule removes. -/
theorem isMissing_spec
    (hserves : r.Serves run) (ha : a.Resolved r)
    {fileBy : FileMap} {nextIssues baseIssues : Finset Str}
    (hnext : ∀ id, id ∈ nextIssues ↔
      ∃ c ∈ r.log a.nextRef none a.nextSince, NamesIssue c.message id)
    (hbase : ∀ base ∈ a.baseRef, ∀ id, id ∈ baseIssues ↔
      ∃ c ∈ r.log base none a.baseSince, NamesIssue c.message id)
    {c : LoggedCommit} (hc : c ∈ r.range a)
    (hfiles : a.skipPrefixes ≠ [] → (fileBy c.sha).getD [] = c.paths) :
    ∃ missing, isMissing run a fileBy nextIssues baseIssues c.info = .ok missing ∧
      (missing = true ↔ r.Missing a c) := by
  have hids : extractIssueIds c.info.message = extractIssueIds c.message :=
    extractIssueIds_universalNewlines c.message
  have hsha : c.info.sha = c.sha := rfl
  unfold isMissing
  rw [hids, hsha]
  dsimp only
  by_cases hskipped : a.skipPrefixes ≠ [] ∧
      allPathsOnlySkippedFromFileList (some ((fileBy c.sha).getD [])) a.skipPrefixes = true
  · rw [if_pos hskipped]
    refine ⟨false, rfl, iff_of_false Bool.false_ne_true fun h => ?_⟩
    obtain ⟨path, hpath, hunder⟩ := h.touches hskipped.1
    rw [hfiles hskipped.1] at hskipped
    obtain ⟨pre, hpre, hin⟩ := (allPathsOnlySkipped_paths_iff hskipped.1).mp hskipped.2 path hpath
    exact hunder pre hpre hin
  rw [if_neg hskipped]
  have htouches : a.skipPrefixes ≠ [] →
      ∃ path ∈ c.paths, ∀ pre ∈ a.skipPrefixes, ¬ Under pre (withSlashes path) := by
    intro hskip
    by_contra hall
    refine hskipped ⟨hskip, ?_⟩
    rw [hfiles hskip, allPathsOnlySkipped_paths_iff hskip]
    simpa using hall
  by_cases hlisted : allListed (extractIssueIds c.message) nextIssues = true
  · rw [if_pos hlisted]
    refine ⟨false, rfl, iff_of_false Bool.false_ne_true fun h => h.unlisted ?_⟩
    exact (allListed_iff hnext).mp hlisted
  rw [if_neg hlisted]
  have hunlisted : ¬ Squelched (r.log a.nextRef none a.nextSince) c.message :=
    mt (allListed_iff hnext).mpr hlisted
  cases hbaseRef : a.baseRef with
  | none =>
      refine ⟨true, rfl, iff_of_true rfl ⟨htouches, hunlisted, fun base hmem => ?_⟩⟩
      rw [hbaseRef] at hmem
      cases hmem
  | some base =>
      have hmem : base ∈ a.baseRef := hbaseRef
      dsimp only
      rw [isAncestor_spec hserves hc (ha.base base hmem)]
      cases hreaches : r.reaches base c.sha with
      | true =>
          refine ⟨false, rfl, iff_of_false Bool.false_ne_true fun h => ?_⟩
          rw [(h.notOnBase base hmem).1] at hreaches
          cases hreaches
      | false =>
          refine ⟨_, rfl, ?_⟩
          rw [Bool.not_eq_true', ← Bool.not_eq_true, allListed_iff (hbase base hmem)]
          constructor
          · intro hbaseUnlisted
            refine ⟨htouches, hunlisted, fun base' hmem' => ?_⟩
            obtain rfl : base = base' := Option.some.inj (hmem.symm.trans hmem')
            exact ⟨hreaches, hbaseUnlisted⟩
          · exact fun h => (h.notOnBase base hmem).2

/-- The loop keeps the commits that its turns keep. -/
theorem keepMissing_spec
    {turn : CommitInfo → Except Nat Bool} {P : LoggedCommit → Prop} {log : List LoggedCommit}
    (hturn : ∀ c ∈ log, ∃ missing, turn c.info = .ok missing ∧ (missing = true ↔ P c)) :
    ∃ kept : List LoggedCommit, keepMissing turn (log.map LoggedCommit.info) =
        .ok (kept.map LoggedCommit.info) ∧
      kept.Sublist log ∧ ∀ c, c ∈ kept ↔ c ∈ log ∧ P c := by
  induction log with
  | nil => exact ⟨[], rfl, List.Sublist.refl _, by simp⟩
  | cons c log ih =>
      obtain ⟨missing, hmissing, hP⟩ := hturn c List.mem_cons_self
      obtain ⟨kept, hkept, hsub, hmem⟩ := ih fun d hd => hturn d (List.mem_cons_of_mem _ hd)
      rw [List.map_cons, keepMissing, hmissing, hkept]
      cases missing with
      | true =>
          refine ⟨c :: kept, rfl, hsub.cons_cons c, fun d => ?_⟩
          rw [List.mem_cons, List.mem_cons, hmem]
          constructor
          · rintro (rfl | ⟨hd, hPd⟩)
            · exact ⟨Or.inl rfl, hP.mp rfl⟩
            · exact ⟨Or.inr hd, hPd⟩
          · rintro ⟨rfl | hd, hPd⟩
            · exact Or.inl rfl
            · exact Or.inr ⟨hd, hPd⟩
      | false =>
          refine ⟨kept, rfl, hsub.cons c, fun d => ?_⟩
          rw [List.mem_cons, hmem]
          constructor
          · exact fun ⟨hd, hPd⟩ => ⟨Or.inr hd, hPd⟩
          · rintro ⟨rfl | hd, hPd⟩
            · exact absurd (hP.mpr hPd) Bool.false_ne_true
            · exact ⟨hd, hPd⟩

theorem doBase_spec
    (hserves : r.Serves run) (ha : a.Resolved r) :
    ∃ issues, doBase run a = .ok issues ∧
      ∀ base ∈ a.baseRef, ∀ id, id ∈ issues ↔
        ∃ c ∈ r.log base none a.baseSince, NamesIssue c.message id := by
  unfold doBase
  cases hbaseRef : a.baseRef with
  | none => exact ⟨∅, rfl, fun base hmem => by cases hmem⟩
  | some base =>
      obtain ⟨issues, heq, hissues⟩ :=
        buildRefIssueSet_spec hserves (ha.base base hbaseRef) a.baseSince
      refine ⟨issues, heq, fun base' hmem => ?_⟩
      obtain rfl := Option.some.inj hmem
      exact hissues

theorem doCommits_eq
    (py : Interpreter) (hserves : r.Serves run) (ha : a.Resolved r) :
    doCommits py run a = .ok ((r.range a).map LoggedCommit.info) := by
  rw [doCommits, listCommits_printLog (hserves.commits _ _ _ ha.previous ha.next), List.map_map]
  rfl

/-- The files of the range are read, if they are asked for. -/
theorem doNameMap_spec
    (hserves : r.Serves run) (ha : a.Resolved r) (hplain : r.PlainPaths a) :
    ∃ fileMap fileBy, doNameMap run a = .ok fileMap ∧
      resolveFileLists run ((r.range a).map fun c => c.sha) fileMap a.skipPrefixes =
        .ok fileBy ∧
      (a.skipPrefixes ≠ [] → ∀ c ∈ r.range a, (fileBy c.sha).getD [] = c.paths) := by
  unfold doNameMap
  by_cases hskip : a.skipPrefixes = []
  · exact ⟨_, _, if_pos hskip, if_pos hskip, fun hne => absurd hskip hne⟩
  · obtain ⟨fileBy, heq, hfiles⟩ := resolveFileLists_spec
      (r.log_nodup a.previousRef (some a.nextRef) (some a.since)) (hplain hskip)
      (fun c hc => hserves.shows _ _ _ c hc) hskip
    refine ⟨_, fileBy, ?_, heq, fun _ => hfiles⟩
    have hnames := (runGitArgs_ok (hserves.names _ _ a.since ha.previous ha.next)).trans
      (congrArg Except.ok (universalNewlines_printNames (hplain hskip)))
    rw [if_neg hskip, fileListMapForSameRange, hnames]
    rfl

/-- What is reported are the commits of the range that no rule removes, sorted by their
times and ids. -/
theorem findProbableMissing_spec
    (py : Interpreter) (hserves : r.Serves run) (ha : a.Resolved r) (hplain : r.PlainPaths a) :
    ∃ out : List LoggedCommit, findProbableMissing py run a = .ok (out.map LoggedCommit.info) ∧
      Ascending reportKey (out.map LoggedCommit.info) ∧
      (out.map fun c => c.sha).Nodup ∧
      ∀ c, c ∈ out ↔ c ∈ r.range a ∧ r.Missing a c := by
  have hnodup := r.log_nodup a.previousRef (some a.nextRef) (some a.since)
  obtain ⟨nextIssues, hnextEq, hnext⟩ := buildRefIssueSet_spec hserves ha.next a.nextSince
  obtain ⟨baseIssues, hbaseEq, hbase⟩ := doBase_spec hserves ha
  obtain ⟨fileMap, fileBy, hmapEq, hfileEq, hfiles⟩ := doNameMap_spec hserves ha hplain
  obtain ⟨kept, hkept, hsub, hmem⟩ := keepMissing_spec fun c hc =>
    isMissing_spec hserves ha hnext hbase hc fun hskip => hfiles hskip c hc
  have hperm : (sortedBy (fun c => reportKey c.info) kept).Perm kept := sortedBy_perm _ _
  have hsorted : sortedBy reportKey (kept.map LoggedCommit.info) =
      (sortedBy (fun c => reportKey c.info) kept).map LoggedCommit.info :=
    (map_sortedBy LoggedCommit.info reportKey kept).symm
  refine ⟨sortedBy (fun c => reportKey c.info) kept, ?_, ?_, ?_, ?_⟩
  · rw [findProbableMissing, hnextEq, hbaseEq, doCommits_eq py hserves ha, hmapEq]
    have hshas : ((r.range a).map LoggedCommit.info).map CommitInfo.sha =
        (r.range a).map fun c => c.sha := by
      rw [List.map_map]
      rfl
    simp only [bind, Except.bind, hshas, hfileEq, hkept, pure, Except.pure, hsorted]
  · rw [← hsorted]
    exact ascending_sortedBy _ _
  · exact (hperm.map fun c => c.sha).nodup_iff.mpr (hnodup.sublist (hsub.map _))
  · intro c
    rw [hperm.mem_iff, hmem]

end Reported

end Commits
end YdbSnippets
