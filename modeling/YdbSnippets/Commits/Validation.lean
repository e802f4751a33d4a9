import YdbSnippets.Commits.Missing
import YdbSnippets.Commits.Refs

/-!
# The report and its validation

`main` of `find_missing_commits.py` from its arguments to the printed report, and
`main` of `validate_find_missing_output.py`, which checks a report with commands of
its own.  The validator accepts exactly the reports whose commits it would report
itself, and it accepts what the tool prints.
-/

namespace YdbSnippets
namespace Commits

open Matching Python Sorting Text

section Tool

/-- The arguments that both scripts take.  `skipFile` is the text of the file, or
`some none` if there is no such file. -/
structure CommonArgs where
  remote : Str
  previous : Str
  next : Str
  since : Str
  skipFile : Option (Option Str)
  nextSince : Option Str
  allNextIssues : Bool
  base : Option Str
  baseSince : Option Str
  allBaseIssues : Bool

/-- `next_for_issues` and `base_for_issues` -/
def issuesSince (all : Bool) (own : Option Str) (since : Str) : Option Str :=
  if all then none else some (own.getD since)

/-- The prefixes of `--skip-file`. -/
def skipPrefixesOf : Option (Option Str) → Except Nat (List Str)
  | none => .ok []
  | some none => .error 1
  | some (some text) => .ok (loadSkipPrefixes text)

variable {Repo Oid : Type} (py : Interpreter) (git : Git Repo Oid) (run : Repo → GitRunner)

/-- The ref of `--base`. -/
def resolveBase (repo : Repo) (remote : Str) : Option Str → Except Nat (Option Str)
  | none => .ok none
  | some base => some <$> resolveRef git repo remote base

/-- What both scripts make of their arguments. -/
def analysisOf (repo : Repo) (args : CommonArgs) (skip : List Str) : Except Nat Analysis := do
  let previousRef ← resolveRef git repo args.remote args.previous
  let nextRef ← resolveRef git repo args.remote args.next
  let baseRef ← resolveBase git repo args.remote args.base
  return {
    previousRef := previousRef
    nextRef := nextRef
    since := args.since
    nextSince := issuesSince args.allNextIssues args.nextSince args.since
    skipPrefixes := skip
    baseRef := baseRef
    baseSince := baseRef.bind fun _ =>
      issuesSince args.allBaseIssues args.baseSince args.since }

/-- The repository after the fetch, if there is one. -/
def fetchUnless (noFetch : Bool) (repo : Repo) (args : CommonArgs) : Except Nat Repo :=
  if noFetch then .ok repo
  else fetchBranchesForAnalysis py git repo args.remote args.previous args.next args.base

/-- `main` of `find_missing_commits.py`: what it prints.  `isRepository` says that there
is a `.git`; a time that cannot be printed is an uncaught `ValueError`. -/
def findMain (isRepository noFetch : Bool) (repo : Repo) (args : CommonArgs) :
    Except Nat Str :=
  if !isRepository then .error 1
  else do
    let skip ← skipPrefixesOf args.skipFile
    let repo ← fetchUnless py git noFetch repo args
    let a ← analysisOf git repo args skip
    let missing ← findProbableMissing py (run repo) a
    (printReport missing).elim (.error 1) .ok

end Tool

section Validator

/-- `errs`: why an id is not accepted. -/
inductive Complaint
  | notCandidate (sha : Str)
  | ancestorOfNext (sha : Str)
  | notOnPrevious (sha : Str)
  | onBase (sha : Str)
deriving DecidableEq, Repr

/-- `bad`: what the self-check notes. -/
inductive Note
  | allSkipped (sha : Str)
  | issuesOnNext (sha : Str) (ids : Finset Str)
  | issuesOnBase (sha : Str) (ids : Finset Str)
deriving DecidableEq

/-- How the validator gives up.  `differs` has up to ten ids that are only in the file,
and up to ten that are only in the recomputed set. -/
inductive Failure
  | exit (status : Nat)
  | complaints (errs : List Complaint)
  | differs (onlyOutput onlyExpected : List Str)

variable (run : GitRunner)

/-- A step that exits by itself. -/
def orExit {α : Type} : Except Nat α → Except Failure α
  | .ok a => .ok a
  | .error status => .error (.exit status)

/-- `is_ancestor` of the validator.  It writes the bytes of `stderr` to a text stream,
which is a `TypeError` if there are any. -/
def isAncestorExternal (commit ref : Str) : Except Nat Bool :=
  let p := run (ancestorArgs commit ref)
  if p.returncode = 0 then .ok true
  else if p.returncode = 1 then .ok false
  else if p.stderr = [] then .error (exitStatus p.returncode)
  else .error 1

def candidatesArgs (previousRef nextRef since : Str) : List Str :=
  rangeArgs previousRef nextRef since ++ ["--format=%H".toList]

/-- `candidate_shas` -/
def candidateShas (previousRef nextRef since : Str) : Except Nat (Finset Str) := do
  let out ← runGitArgs run (candidatesArgs previousRef nextRef since)
  return (((splitlines out).map strip).filter fun sha => 7 ≤ sha.length).toFinset

def revParseArgs (sha : Str) : List Str := ["rev-parse".toList, sha]

/-- One turn of the loop of `load_output_shas`. -/
def fullSha (sha : Str) : Except Nat Str := do
  let out ← runGitArgs run (revParseArgs sha)
  return strip out

/-- `load_output_shas`, from the text of the file. -/
def loadOutputShas (py : Interpreter) (text : Str) : Except Nat (List Str) :=
  match parseOutputLines py text with
  | .error _ => .error 1
  | .ok shas => shas.mapM (fullSha run)

/-- The check with `--base`. -/
def baseComplaints (a : Analysis) (sha : Str) : Except Nat (List Complaint) :=
  match a.baseRef with
  | none => .ok []
  | some base => do
      let onBase ← isAncestorExternal run sha base
      return if onBase then [.onBase sha] else []

/-- One turn of the loop over the ids. -/
def complaintsOf (a : Analysis) (cand : Finset Str) (sha : Str) :
    Except Nat (List Complaint) := do
  let inNext ← isAncestorExternal run sha a.nextRef
  let inPrevious ← isAncestorExternal run sha a.previousRef
  let onBase ← baseComplaints run a sha
  return (if sha ∈ cand then [] else [.notCandidate sha]) ++
    (if inNext then [.ancestorOfNext sha] else []) ++
    (if inPrevious then [] else [.notOnPrevious sha]) ++ onBase

/-- `--recompute-expected` -/
def recompute (py : Interpreter) (a : Analysis) (outShas : List Str) : Except Failure Unit := do
  let expect ← orExit (findProbableMissing py run a)
  let expected := (expect.map CommitInfo.sha).toFinset
  let output := outShas.toFinset
  if expected ≠ output then
    throw (.differs
      ((sortedBy id (outShas.dedup.filter (· ∉ expected))).take 10)
      ((sortedBy id ((expect.map CommitInfo.sha).dedup.filter (· ∉ output))).take 10))

def messageArgs (sha : Str) : List Str :=
  ["show".toList, "-s".toList, "--format=%B".toList, sha]

/-- `skip and all_paths_match_skip(file_list_from_show(repo, sha), skip)` -/
def showsSkipped (a : Analysis) (sha : Str) : Except Nat Bool :=
  if a.skipPrefixes = [] then .ok false
  else do
    let out ← runGitArgs run (showArgs sha)
    return allPathsMatchSkip (fileListFromShow out) a.skipPrefixes

/-- One turn of the self-check. -/
def notesOf (a : Analysis) (nextIssues baseIssues : Finset Str) (sha : Str) :
    Except Nat (List Note) := do
  let skipped ← showsSkipped run a sha
  let message ← runGitArgs run (messageArgs sha)
  let ids := extractIssueIds message
  return (if skipped then [.allSkipped sha] else []) ++
    (if allListed ids nextIssues then [.issuesOnNext sha ids] else []) ++
    (if a.baseRef.isSome && allListed ids baseIssues then [.issuesOnBase sha ids] else [])

/-- `--self-check-outputs` -/
def selfCheck (a : Analysis) (outShas : List Str) : Except Nat (List Note) :=
  if a.skipPrefixes = [] ∧ a.baseRef = none then .ok []
  else do
    let nextIssues ← buildRefIssueSet run a.nextRef a.nextSince
    let baseIssues ← doBase run a
    let notes ← outShas.mapM (notesOf run a nextIssues baseIssues)
    return notes.flatten

/-- The loop over the ids, and what becomes of its complaints. -/
def checkIds (a : Analysis) (cand : Finset Str) (outShas : List Str) : Except Failure Unit := do
  let errs ← orExit (outShas.mapM (complaintsOf run a cand))
  if errs.flatten ≠ [] then throw (.complaints errs.flatten)

/-- The checks of a report: the notes of the self-check. -/
def checkReport (py : Interpreter) (recomputeExpected selfCheckOutputs : Bool)
    (a : Analysis) (outShas : List Str) : Except Failure (List Note) := do
  let cand ← orExit (candidateShas run a.previousRef a.nextRef a.since)
  checkIds run a cand outShas
  if recomputeExpected then recompute run py a outShas
  orExit (if selfCheckOutputs then selfCheck run a outShas else .ok [])

/-- `main` of `validate_find_missing_output.py`. -/
def validateMain {Repo Oid : Type} (py : Interpreter) (git : Git Repo Oid)
    (run : Repo → GitRunner) (recomputeExpected selfCheckOutputs : Bool) (repo : Repo)
    (args : CommonArgs) (text : Str) : Except Failure (List Note) := do
  let skip ← orExit (skipPrefixesOf args.skipFile)
  let outShas ← orExit (loadOutputShas (run repo) py text)
  let a ← orExit (analysisOf git repo args skip)
  checkReport (run repo) py recomputeExpected selfCheckOutputs a outShas

end Validator

/-! ## What the validator is told -/

section Served

/-- The commands of the validator print what they are documented to print.  `revParse` is
the id that an id or the start of one stands for. -/
structure Repository.ServesValidator (r : Repository) (run : GitRunner)
    (revParse : Str → Option Str) : Prop extends r.Serves run where
  candidates : ∀ previous next since, r.isRef previous → r.isRef next →
    (run (candidatesArgs previous next since)).Prints
      ((r.log previous (some next) (some since)).flatMap fun c => c.sha ++ ['\n'])
  known : ∀ sha id, revParse sha = some id →
    IsSha id ∧ (run (revParseArgs sha)).Prints (id ++ ['\n'])
  unknown : ∀ sha, revParse sha = none → (run (revParseArgs sha)).returncode ≠ 0
  self : ∀ ref excluded since, ∀ c ∈ r.log ref excluded since, revParse c.sha = some c.sha
  messageOf : ∀ ref excluded since, ∀ c ∈ r.log ref excluded since,
    (run (messageArgs c.sha)).Prints (c.message ++ ['\n'])

variable {py : Interpreter} {run : GitRunner} {revParse : Str → Option Str}
variable {r : Repository} {a : Analysis}

/-- An id is its own line. -/
theorem IsSha.line
    {sha : Str} (h : IsSha sha) :
    strip (universalNewlines (sha ++ ['\n'])) = sha := by
  obtain ⟨-, -, hne, hspace⟩ := h.spec
  have hreturn : '\r' ∉ sha ++ ['\n'] := by
    intro hmem
    rcases List.mem_append.mp hmem with hmem | hmem
    · exact absurd (hspace _ hmem) (by decide)
    · exact absurd (List.mem_singleton.mp hmem) (by decide)
  have hnewline : isSpace '\n' = true := by decide
  rw [universalNewlines_eq_self_iff.mpr hreturn]
  have hdrop : (sha ++ ['\n']).dropWhile isSpace = sha ++ ['\n'] := by
    obtain ⟨c, rest, rfl⟩ := List.exists_cons_of_ne_nil hne
    refine List.dropWhile_cons_of_neg ?_
    rw [hspace c List.mem_cons_self]
    decide
  rw [strip, hdrop, List.rdropWhile_concat_pos _ _ _ hnewline]
  exact List.rdropWhile_eq_self_iff.mpr fun hlast => by
    rw [hspace _ (List.getLast_mem hlast)]
    decide

/-- `rev-parse` gives the full id, or there is none. -/
theorem fullSha_ok_iff
    (hserves : r.ServesValidator run revParse) {sha id : Str} :
    fullSha run sha = .ok id ↔ revParse sha = some id := by
  cases hid : revParse sha with
  | none =>
      have hfail : fullSha run sha = .error 1 := by
        rw [fullSha, runGitArgs, runGit_of_failed (hserves.unknown sha hid)]
        rfl
      rw [hfail]
      constructor <;> (intro h; cases h)
  | some full =>
      obtain ⟨hsha, hout⟩ := hserves.known sha full hid
      have hread : fullSha run sha = .ok full := by
        rw [fullSha, runGitArgs_ok hout]
        exact congrArg Except.ok hsha.line
      rw [hread, Except.ok.injEq, Option.some.injEq]

theorem loadOutputShas_ok_iff
    (hserves : r.ServesValidator run revParse) {text : Str} {ids : List Str} :
    loadOutputShas run py text = .ok ids ↔
      ∃ shas, parseOutputLines py text = .ok shas ∧
        List.Forall₂ (fun sha id => revParse sha = some id) shas ids := by
  unfold loadOutputShas
  cases hparse : parseOutputLines py text with
  | error e =>
      constructor
      · intro h
        cases h
      · rintro ⟨shas, hshas, -⟩
        cases hshas
  | ok shas =>
      have hiff : (fun sha id => fullSha run sha = .ok id) =
          fun sha id => revParse sha = some id := by
        funext sha id
        exact propext (fullSha_ok_iff hserves)
      change shas.mapM (fullSha run) = .ok ids ↔ _
      rw [mapM_ok_iff, hiff]
      constructor
      · exact fun h => ⟨shas, rfl, h⟩
      · rintro ⟨shas', hshas, h⟩
        cases hshas
        exact h

/-- The candidates are the commits of the range. -/
theorem candidateShas_spec
    (hserves : r.ServesValidator run revParse) (ha : a.Resolved r) :
    ∃ cand, candidateShas run a.previousRef a.nextRef a.since = .ok cand ∧
      ∀ sha, sha ∈ cand ↔ ∃ c ∈ r.range a, c.sha = sha := by
  have hlines : ∀ log : List LoggedCommit,
      splitlines (universalNewlines (log.flatMap fun c => c.sha ++ ['\n'])) =
        log.map fun c => c.sha := by
    intro log
    have hreturn : '\r' ∉ log.flatMap fun c => c.sha ++ ['\n'] := by
      intro hmem
      obtain ⟨c, -, hchar⟩ := List.mem_flatMap.mp hmem
      rcases List.mem_append.mp hchar with hchar | hchar
      · exact absurd (c.isSha.spec.2.2.2 _ hchar) (by decide)
      · exact absurd (List.mem_singleton.mp hchar) (by decide)
    rw [universalNewlines_eq_self_iff.mpr hreturn]
    clear hreturn
    induction log with
    | nil => rfl
    | cons c log ih =>
        rw [List.flatMap_cons, List.append_assoc, List.singleton_append,
          splitlines_append_break _ (fun d hd => isLineBreak_of_not_isSpace
            (c.isSha.spec.2.2.2 d hd)) (by decide) (by decide), ih, List.map_cons]
  have hread : candidateShas run a.previousRef a.nextRef a.since =
      .ok ((((r.range a).map fun c => c.sha).map strip).filter fun sha =>
        7 ≤ sha.length).toFinset := by
    rw [candidateShas, runGitArgs_ok (hserves.candidates _ _ _ ha.previous ha.next),
      Repository.range, ← hlines]
    rfl
  refine ⟨_, hread, fun sha => ?_⟩
  have hstrip : ∀ c : LoggedCommit, strip c.sha = c.sha :=
    fun c => strip_of_no_spaces c.isSha.spec.2.2.2
  rw [List.mem_toFinset, List.mem_filter, List.map_map, List.mem_map, decide_eq_true_eq]
  constructor
  · rintro ⟨⟨c, hc, rfl⟩, -⟩
    exact ⟨c, hc, (hstrip c).symm⟩
  · rintro ⟨c, hc, rfl⟩
    exact ⟨⟨c, hc, hstrip c⟩, by rw [c.isSha.1]; decide⟩

theorem isAncestorExternal_spec
    (hserves : r.Serves run) {ref : Str} {excluded since : Option Str} {c : LoggedCommit}
    (hc : c ∈ r.log ref excluded since) {other : Str} (hother : r.isRef other) :
    isAncestorExternal run c.sha other = .ok (r.reaches other c.sha) := by
  have hcode := hserves.ancestor ref excluded since c hc other hother
  unfold isAncestorExternal
  dsimp only
  rw [hcode]
  cases r.reaches other c.sha with
  | true => rfl
  | false => rfl

/-- An id is accepted if it is one of the range that the base does not reach. -/
theorem complaintsOf_eq_nil_iff
    (hserves : r.ServesValidator run revParse) (ha : a.Resolved r)
    {cand : Finset Str} (hcand : ∀ sha, sha ∈ cand ↔ ∃ c ∈ r.range a, c.sha = sha)
    {sha : Str} :
    complaintsOf run a cand sha = .ok [] ↔
      (∃ c ∈ r.range a, c.sha = sha) ∧ ∀ base ∈ a.baseRef, r.reaches base sha = false := by
  by_cases hsha : ∃ c ∈ r.range a, c.sha = sha
  · obtain ⟨c, hc, rfl⟩ := hsha
    obtain ⟨hprevious, hnext⟩ := r.reaches_of_log _ _ _ c hc
    have hbase : baseComplaints run a c.sha =
        .ok (if ∃ base ∈ a.baseRef, r.reaches base c.sha = true then [.onBase c.sha] else []) := by
      unfold baseComplaints
      cases hbaseRef : a.baseRef with
      | none => simp
      | some base =>
          have hmem : base ∈ a.baseRef := hbaseRef
          dsimp only
          rw [isAncestorExternal_spec hserves.toServes hc (ha.base base hmem)]
          simp [bind, Except.bind, pure, Except.pure]
    have heq : complaintsOf run a cand c.sha =
        .ok (if ∃ base ∈ a.baseRef, r.reaches base c.sha = true then [.onBase c.sha] else []) := by
      rw [complaintsOf, isAncestorExternal_spec hserves.toServes hc ha.next,
        isAncestorExternal_spec hserves.toServes hc ha.previous, hbase, hprevious,
        hnext a.nextRef rfl]
      simp [bind, Except.bind, pure, Except.pure, (hcand c.sha).mpr ⟨c, hc, rfl⟩]
    rw [heq, Except.ok.injEq]
    constructor
    · intro h
      refine ⟨⟨c, hc, rfl⟩, fun base hmem => ?_⟩
      by_contra hreaches
      rw [if_pos ⟨base, hmem, by simpa using hreaches⟩] at h
      cases h
    · rintro ⟨-, h⟩
      refine if_neg ?_
      rintro ⟨base, hmem, hreaches⟩
      rw [h base hmem] at hreaches
      cases hreaches
  · refine iff_of_false (fun h => ?_) fun h => hsha h.1
    rw [complaintsOf] at h
    obtain ⟨inNext, -, h⟩ := bind_ok_iff.mp h
    obtain ⟨inPrevious, -, h⟩ := bind_ok_iff.mp h
    obtain ⟨onBase, -, h⟩ := bind_ok_iff.mp h
    rw [if_neg (mt (hcand sha).mp hsha)] at h
    cases h

end Served

section Accepted

variable {py : Interpreter} {run : GitRunner} {revParse : Str → Option Str}
variable {r : Repository} {a : Analysis}

@[simp] theorem orExit_eq_ok_iff
    {α : Type} {x : Except Nat α} {b : α} :
    orExit x = .ok b ↔ x = .ok b := by
  cases x with
  | ok b' => rw [orExit, Except.ok.injEq, Except.ok.injEq]
  | error e => constructor <;> (intro h; cases h)

/-- Nothing is said of the items if nothing is said of each. -/
theorem mapM_flatten_nil_iff
    {α β : Type} {f : α → Except Nat (List β)} {items : List α} :
    (∃ found, items.mapM f = .ok found ∧ found.flatten = []) ↔ ∀ item ∈ items, f item = .ok [] := by
  induction items with
  | nil => simp [pure, Except.pure]
  | cons item items ih =>
      rw [List.forall_mem_cons, ← ih]
      constructor
      · rintro ⟨found, hfound, hnil⟩
        rw [List.mapM_cons] at hfound
        obtain ⟨first, hfirst, hfound⟩ := bind_ok_iff.mp hfound
        obtain ⟨rest, hrest, hfound⟩ := bind_ok_iff.mp hfound
        obtain rfl : first :: rest = found := Except.ok.inj hfound
        rw [List.flatten_cons, List.append_eq_nil_iff] at hnil
        rw [hnil.1] at hfirst
        exact ⟨hfirst, rest, hrest, hnil.2⟩
      · rintro ⟨hfirst, rest, hrest, hnil⟩
        refine ⟨[] :: rest, ?_, hnil⟩
        rw [List.mapM_cons, hfirst, hrest]
        rfl

/-- The recomputation agrees if the ids are those of the missing commits. -/
theorem recompute_eq_ok_iff
    (hserves : r.Serves run) (ha : a.Resolved r) (hplain : r.PlainPaths a) {ids : List Str} :
    recompute run py a ids = .ok () ↔
      ∀ sha, sha ∈ ids ↔ ∃ c ∈ r.range a, r.Missing a c ∧ c.sha = sha := by
  obtain ⟨out, hout, -, -, hmem⟩ := findProbableMissing_spec py hserves ha hplain
  have hshas : ∀ sha, sha ∈ ((out.map LoggedCommit.info).map CommitInfo.sha).toFinset ↔
      ∃ c ∈ r.range a, r.Missing a c ∧ c.sha = sha := by
    intro sha
    rw [List.mem_toFinset, List.map_map, List.mem_map]
    refine exists_congr fun c => ?_
    rw [hmem, and_assoc]
    exact Iff.rfl
  have hiff : recompute run py a ids = .ok () ↔
      ((out.map LoggedCommit.info).map CommitInfo.sha).toFinset = ids.toFinset := by
    rw [recompute, hout]
    change (if ((out.map LoggedCommit.info).map CommitInfo.sha).toFinset ≠ ids.toFinset then _
      else _) = _ ↔ _
    split
    · next hne => exact iff_of_false (fun h => by cases h) hne
    · next heq => exact iff_of_true rfl (not_not.mp heq)
  rw [hiff, Finset.ext_iff]
  refine forall_congr' fun sha => ?_
  rw [hshas, List.mem_toFinset]
  exact iff_comm

theorem allPathsMatchSkip_iff
    {paths skipPrefixes : List Str} :
    allPathsMatchSkip paths skipPrefixes = true ↔
      ∀ path ∈ paths, ∃ pre ∈ skipPrefixes, Under pre (withSlashes path) := by
  unfold allPathsMatchSkip
  split
  · next hnil => simp [hnil]
  · simp only [List.all_eq_true, any_prefix_iff]
    rfl

/-- Of a commit that the tool reports there is nothing to note. -/
theorem notesOf_spec
    (hserves : r.ServesValidator run revParse) (hplain : r.PlainPaths a)
    {nextIssues baseIssues : Finset Str}
    (hnext : ∀ id, id ∈ nextIssues ↔
      ∃ c ∈ r.log a.nextRef none a.nextSince, NamesIssue c.message id)
    (hbase : ∀ base ∈ a.baseRef, ∀ id, id ∈ baseIssues ↔
      ∃ c ∈ r.log base none a.baseSince, NamesIssue c.message id)
    {c : LoggedCommit} (hc : c ∈ r.range a) :
    ∃ notes, notesOf run a nextIssues baseIssues c.sha = .ok notes ∧
      (r.Missing a c → notes = []) := by
  have hids : extractIssueIds (universalNewlines (c.message ++ ['\n'])) =
      extractIssueIds c.message := by
    rw [extractIssueIds_universalNewlines, extractIssueIds, findIssueIds_append_newline,
      findIssueIds, List.append_nil, extractIssueIds]
  have hskipped : ∃ skipped, showsSkipped run a c.sha = .ok skipped ∧
      (skipped = true → ¬ r.Missing a c) := by
    unfold showsSkipped
    by_cases hskip : a.skipPrefixes = []
    · exact ⟨false, if_pos hskip, fun h => absurd h Bool.false_ne_true⟩
    · rw [if_neg hskip, runGitArgs_ok (hserves.shows _ _ _ c hc)]
      refine ⟨_, rfl, fun hall h => ?_⟩
      rw [fileListFromShow_plain (hplain hskip c hc), allPathsMatchSkip_iff] at hall
      obtain ⟨path, hpath, hunder⟩ := h.touches hskip
      obtain ⟨pre, hpre, hin⟩ := hall path hpath
      exact hunder pre hpre hin
  obtain ⟨skipped, hskippedEq, hskipped⟩ := hskipped
  rw [notesOf, hskippedEq, runGitArgs_ok (hserves.messageOf _ _ _ c hc)]
  refine ⟨_, rfl, fun h => ?_⟩
  have hunskipped : ¬ skipped = true := fun hs => hskipped hs h
  have hunlisted : ¬ allListed (extractIssueIds c.message) nextIssues = true :=
    mt (allListed_iff hnext).mp h.unlisted
  have hunbased : ¬ (a.baseRef.isSome && allListed (extractIssueIds c.message) baseIssues) =
      true := by
    rw [Bool.and_eq_true]
    rintro ⟨hsome, hlisted⟩
    obtain ⟨base, hmem⟩ := Option.isSome_iff_exists.mp hsome
    exact (h.notOnBase base hmem).2 ((allListed_iff (hbase base hmem)).mp hlisted)
  rw [hids, if_neg hunskipped, if_neg hunlisted, if_neg hunbased]
  rfl

/-- The self-check goes through, and notes nothing of what the tool reports. -/
theorem selfCheck_spec
    (hserves : r.ServesValidator run revParse) (ha : a.Resolved r) (hplain : r.PlainPaths a)
    {ids : List Str}
    (hids : ∀ id ∈ ids, ∃ c ∈ r.range a, c.sha = id) :
    ∃ notes, selfCheck run a ids = .ok notes ∧
      ((∀ id ∈ ids, ∃ c ∈ r.range a, r.Missing a c ∧ c.sha = id) → notes = []) := by
  unfold selfCheck
  by_cases hnone : a.skipPrefixes = [] ∧ a.baseRef = none
  · exact ⟨[], if_pos hnone, fun _ => rfl⟩
  rw [if_neg hnone]
  obtain ⟨nextIssues, hnextEq, hnext⟩ :=
    buildRefIssueSet_spec hserves.toServes ha.next a.nextSince
  obtain ⟨baseIssues, hbaseEq, hbase⟩ := doBase_spec hserves.toServes ha
  rw [hnextEq, hbaseEq]
  have hnotes : ∃ found, ids.mapM (notesOf run a nextIssues baseIssues) = .ok found := by
    cases hfound : ids.mapM (notesOf run a nextIssues baseIssues) with
    | ok found => exact ⟨found, rfl⟩
    | error e =>
        obtain ⟨id, hid, e, herror⟩ := mapM_error_iff.mp ⟨e, hfound⟩
        obtain ⟨c, hc, rfl⟩ := hids id hid
        obtain ⟨notes, heq, -⟩ := notesOf_spec hserves hplain hnext hbase hc
        rw [heq] at herror
        cases herror
  obtain ⟨found, hfound⟩ := hnotes
  refine ⟨found.flatten, ?_, fun hmissing => ?_⟩
  · change (ids.mapM (notesOf run a nextIssues baseIssues) >>= fun notes =>
      pure notes.flatten) = _
    rw [hfound]
    rfl
  · have hnil : ∀ id ∈ ids, notesOf run a nextIssues baseIssues id = .ok [] := by
      intro id hid
      obtain ⟨c, hc, hm, rfl⟩ := hmissing id hid
      obtain ⟨notes, heq, hnotes⟩ := notesOf_spec hserves hplain hnext hbase hc
      rw [heq, hnotes hm]
    obtain ⟨found', hfound', hflat⟩ := mapM_flatten_nil_iff.mpr hnil
    rw [hfound] at hfound'
    rw [Except.ok.inj hfound']
    exact hflat

theorem checkIds_eq_ok_iff
    (hserves : r.ServesValidator run revParse) (ha : a.Resolved r)
    {cand : Finset Str} (hcand : ∀ sha, sha ∈ cand ↔ ∃ c ∈ r.range a, c.sha = sha)
    {ids : List Str} :
    checkIds run a cand ids = .ok () ↔
      ∀ id ∈ ids, (∃ c ∈ r.range a, c.sha = id) ∧
        ∀ base ∈ a.baseRef, r.reaches base id = false := by
  have hnil : (∀ id ∈ ids, complaintsOf run a cand id = .ok []) ↔
      ∀ id ∈ ids, (∃ c ∈ r.range a, c.sha = id) ∧
        ∀ base ∈ a.baseRef, r.reaches base id = false :=
    forall₂_congr fun id _ => complaintsOf_eq_nil_iff hserves ha hcand
  rw [← hnil, ← mapM_flatten_nil_iff]
  unfold checkIds
  rw [bind_ok_iff]
  refine exists_congr fun errs => ?_
  rw [orExit_eq_ok_iff]
  refine and_congr_right fun _ => ?_
  by_cases herrs : errs.flatten = []
  · exact iff_of_true (if_neg (not_not.mpr herrs)) herrs
  · rw [if_pos herrs]
    exact iff_of_false (fun h => by cases h) herrs

/-- What passes the checks; nothing is noted of what the tool reports. -/
theorem checkReport_ok
    (py : Interpreter) (hserves : r.ServesValidator run revParse) (ha : a.Resolved r)
    (hplain : r.PlainPaths a)
    (recomputeExpected selfCheckOutputs : Bool) (ids : List Str)
    (hids : ∀ id ∈ ids, (∃ c ∈ r.range a, c.sha = id) ∧
      ∀ base ∈ a.baseRef, r.reaches base id = false)
    (hrecompute : recomputeExpected = true →
      ∀ id, id ∈ ids ↔ ∃ c ∈ r.range a, r.Missing a c ∧ c.sha = id) :
    ∃ notes, checkReport run py recomputeExpected selfCheckOutputs a ids = .ok notes ∧
      ((∀ id ∈ ids, ∃ c ∈ r.range a, r.Missing a c ∧ c.sha = id) → notes = []) := by
  obtain ⟨cand, hcandEq, hcand⟩ := candidateShas_spec hserves ha
  obtain ⟨notes, hnotes, hnil⟩ := selfCheck_spec hserves ha hplain fun id hid => (hids id hid).1
  have hpassed : ∀ notes,
      orExit (if selfCheckOutputs then selfCheck run a ids else .ok []) = .ok notes →
      checkReport run py recomputeExpected selfCheckOutputs a ids = .ok notes := by
    intro notes hnotes
    refine bind_ok_iff.mpr ⟨cand, orExit_eq_ok_iff.mpr hcandEq, bind_ok_iff.mpr
      ⟨(), (checkIds_eq_ok_iff hserves ha hcand).mpr hids, ?_⟩⟩
    by_cases h : recomputeExpected = true
    · refine (if_pos h).trans (bind_ok_iff.mpr ⟨(), ?_, hnotes⟩)
      exact (recompute_eq_ok_iff hserves.toServes ha hplain).mpr (hrecompute h)
    · exact (if_neg h).trans hnotes
  cases selfCheckOutputs with
  | true => exact ⟨notes, hpassed notes (orExit_eq_ok_iff.mpr hnotes), hnil⟩
  | false => exact ⟨[], hpassed [] rfl, fun _ => rfl⟩

/-- The checks of a report: what is listed is of the range and not on the base, and with
the recomputation it is what is missing. -/
theorem checkReport_ok_iff
    (py : Interpreter) (hserves : r.ServesValidator run revParse) (ha : a.Resolved r)
    (hplain : r.PlainPaths a)
    (recomputeExpected selfCheckOutputs : Bool) {ids : List Str} :
    (∃ notes, checkReport run py recomputeExpected selfCheckOutputs a ids = .ok notes) ↔
      (∀ id ∈ ids, (∃ c ∈ r.range a, c.sha = id) ∧
        ∀ base ∈ a.baseRef, r.reaches base id = false) ∧
      (recomputeExpected = true →
        ∀ id, id ∈ ids ↔ ∃ c ∈ r.range a, r.Missing a c ∧ c.sha = id) := by
  obtain ⟨cand, hcandEq, hcand⟩ := candidateShas_spec hserves ha
  constructor
  · rintro ⟨notes, h⟩
    unfold checkReport at h
    obtain ⟨cand', hcand', h⟩ := bind_ok_iff.mp h
    rw [orExit_eq_ok_iff, hcandEq] at hcand'
    obtain rfl := Except.ok.inj hcand'
    obtain ⟨⟨⟩, hids, h⟩ := bind_ok_iff.mp h
    refine ⟨(checkIds_eq_ok_iff hserves ha hcand).mp hids, fun hrecompute => ?_⟩
    rw [if_pos hrecompute] at h
    obtain ⟨⟨⟩, hrecomputed, -⟩ := bind_ok_iff.mp h
    exact (recompute_eq_ok_iff hserves.toServes ha hplain).mp hrecomputed
  · rintro ⟨hids, hrecompute⟩
    obtain ⟨notes, hnotes, -⟩ :=
      checkReport_ok py hserves ha hplain recomputeExpected selfCheckOutputs ids hids
        hrecompute
    exact ⟨notes, hnotes⟩

end Accepted

section Example

theorem isFullSha_fix :
    isFullSha (List.replicate 40 'a') = true := by
  decide

theorem isSha_fix :
    IsSha (List.replicate 40 'a') := by
  simp [IsSha]

theorem isFullSha_docs :
    isFullSha (List.replicate 40 'b') = true := by
  decide

theorem isSha_docs :
    IsSha (List.replicate 40 'b') := by
  simp [IsSha]

theorem nul_not_mem_fix :
    nul ∉ "Fix #1\n".toList := by
  decide

/-- A commit on `refs/p` that names an issue. -/
def fixCommit : LoggedCommit where
  sha := List.replicate 40 'a'
  isFullSha := isFullSha_fix
  message := "Fix #1\n".toList
  nul_not_mem := nul_not_mem_fix
  time := 1700000000
  isSha := isSha_fix
  isMerge := false
  paths := [['a'], "docs/a".toList]

/-- A commit on `refs/p` that changes documents only. -/
def docsCommit : LoggedCommit where
  sha := List.replicate 40 'b'
  isFullSha := isFullSha_docs
  message := "Fix #1\n".toList
  nul_not_mem := nul_not_mem_fix
  time := 1700000100
  isSha := isSha_docs
  isMerge := false
  paths := ["docs/a".toList]

/-- What `git log` lists: `refs/p` reaches the commits, `refs/n` nothing. -/
def fixLog (ref : Str) (excluded : Option Str) : List LoggedCommit :=
  if ref = "refs/p".toList ∧ excluded ≠ some "refs/p".toList then [fixCommit, docsCommit] else []

theorem mem_fixLog
    {ref : Str} {excluded : Option Str} {c : LoggedCommit}
    (hc : c ∈ fixLog ref excluded) :
    (c = fixCommit ∨ c = docsCommit) ∧ ref = "refs/p".toList ∧
      excluded ≠ some "refs/p".toList := by
  unfold fixLog at hc
  split at hc
  · next h => exact ⟨List.mem_pair.mp hc, h⟩
  · cases hc

def fixRepository : Repository where
  isRef ref := ref = "refs/p".toList ∨ ref = "refs/n".toList
  log ref excluded _ := fixLog ref excluded
  reaches ref _ := decide (ref = "refs/p".toList)
  log_nodup ref excluded _ := by
    unfold fixLog
    split
    · decide
    · exact List.nodup_nil
  reaches_of_log ref excluded _ c hc := by
    obtain ⟨-, href, hexcluded⟩ := mem_fixLog hc
    refine ⟨decide_eq_true href, fun other hother => decide_eq_false ?_⟩
    rintro rfl
    exact hexcluded hother

/-- `rev-parse` knows the full ids only. -/
def fixRevParse (sha : Str) : Option Str :=
  if sha = fixCommit.sha ∨ sha = docsCommit.sha then some sha else none

/-- A process that fails. -/
def fails (returncode : Int) : CompletedProcess :=
  ⟨returncode, [], []⟩

/-- What is printed of the commit with this id. -/
def printsCommit (sha : Str) (text : LoggedCommit → Str) : CompletedProcess :=
  if sha = fixCommit.sha then succeeds (text fixCommit)
  else if sha = docsCommit.sha then succeeds (text docsCommit)
  else fails 128

/-- The commands of the two scripts in this repository, by the number of their
arguments. -/
def fixGit : GitRunner
  | [_, sha] => printsCommit sha fun c => c.sha ++ ['\n']
  | [_, ref, _] => succeeds (printMessages ((fixLog ref none).map fun c => c.message))
  | [command, ref, _, other] =>
      if command = "log".toList then
        succeeds (printMessages ((fixLog ref none).map fun c => c.message))
      else if command = "show".toList then printsCommit other fun c => c.message ++ ['\n']
      else if other = "refs/p".toList then succeeds [] else fails 1
  | [command, ref, third, _, last] =>
      if command = "log".toList then
        succeeds ((fixLog ref (some third.tail)).flatMap fun c => c.sha ++ ['\n'])
      else printsCommit last fun c => printPaths c.paths
  | [_, ref, third, _, _, _] =>
      succeeds (printLog ((fixLog ref (some third.tail)).map LoggedCommit.toLogEntry))
  | [_, ref, third, _, _, _, _, _] =>
      succeeds (printNames ((fixLog ref (some third.tail)).map LoggedCommit.commit))
  | _ => fails 1

theorem prints_printsCommit
    {c : LoggedCommit} (text : LoggedCommit → Str)
    (hc : c = fixCommit ∨ c = docsCommit) :
    (printsCommit c.sha text).Prints (text c) := by
  rcases hc with rfl | rfl
  · exact prints_succeeds _
  · exact prints_succeeds _

theorem fixGit_serves :
    fixRepository.ServesValidator fixGit fixRevParse where
  commits _ _ _ _ _ := prints_succeeds _
  names _ _ _ _ _ := prints_succeeds _
  messages _ since _ := by
    cases since with
    | none => exact prints_succeeds _
    | some since => exact prints_succeeds _
  shows _ _ _ c hc := prints_printsCommit (fun c => printPaths c.paths) (mem_fixLog hc).1
  ancestor ref excluded since c hc other _ := by
    by_cases hother : other = "refs/p".toList
    · subst hother
      rfl
    · have hreaches : fixRepository.reaches other c.sha = false := decide_eq_false hother
      have hreply : fixGit (ancestorArgs c.sha other) = fails 1 := if_neg hother
      rw [hreaches, hreply]
      rfl
  candidates _ _ _ _ _ := prints_succeeds _
  known sha id h := by
    unfold fixRevParse at h
    split at h
    · next hsha =>
        obtain rfl := Option.some.inj h
        rcases hsha with rfl | rfl
        · exact ⟨fixCommit.isSha, prints_printsCommit (fun c => c.sha ++ ['\n']) (Or.inl rfl)⟩
        · exact ⟨docsCommit.isSha, prints_printsCommit (fun c => c.sha ++ ['\n']) (Or.inr rfl)⟩
    · cases h
  unknown sha h := by
    have hsha : ¬ (sha = fixCommit.sha ∨ sha = docsCommit.sha) := by
      intro hsha
      cases (if_pos hsha).symm.trans h
    obtain ⟨hfix, hdocs⟩ := not_or.mp hsha
    have hreply : fixGit (revParseArgs sha) = fails 128 := (if_neg hfix).trans (if_neg hdocs)
    rw [hreply]
    decide
  self _ _ _ c hc := by
    rcases (mem_fixLog hc).1 with rfl | rfl
    · exact if_pos (Or.inl rfl)
    · exact if_pos (Or.inr rfl)
  messageOf _ _ _ c hc := prints_printsCommit (fun c => c.message ++ ['\n']) (mem_fixLog hc).1

/-- `refs/p` and `refs/n` point to commits. -/
def fixRefs (ref : Str) : Option Nat :=
  if ref = "refs/p".toList then some 1 else if ref = "refs/n".toList then some 2 else none

def fixArgs : CommonArgs where
  remote := "origin".toList
  previous := "refs/p".toList
  next := "refs/n".toList
  since := "2023-01-01".toList
  skipFile := some (some "docs/".toList)
  nextSince := none
  allNextIssues := false
  base := none
  baseSince := none
  allBaseIssues := false

def fixAnalysis : Analysis where
  previousRef := "refs/p".toList
  nextRef := "refs/n".toList
  since := "2023-01-01".toList
  nextSince := some "2023-01-01".toList
  skipPrefixes := ["docs/".toList]
  baseRef := none
  baseSince := none

theorem fixAnalysis_resolved :
    fixAnalysis.Resolved fixRepository where
  previous := Or.inl rfl
  next := Or.inr rfl
  base _ h := by cases h

theorem mem_range_fix
    {c : LoggedCommit}
    (hc : c ∈ fixRepository.range fixAnalysis) :
    c = fixCommit ∨ c = docsCommit := by
  have hlog : c ∈ fixLog "refs/p".toList (some "refs/n".toList) := hc
  exact (mem_fixLog hlog).1

/-- Only one of the commits is missing on `refs/n`. -/
theorem fixRepository_missing_iff
    {c : LoggedCommit} :
    c ∈ fixRepository.range fixAnalysis ∧ fixRepository.Missing fixAnalysis c ↔
      c = fixCommit := by
  constructor
  · rintro ⟨hc, hmissing⟩
    refine (mem_range_fix hc).resolve_right ?_
    rintro rfl
    obtain ⟨path, hpath, hunder⟩ := hmissing.touches (by decide)
    obtain rfl := List.mem_singleton.mp hpath
    exact hunder "docs/".toList List.mem_cons_self (by decide)
  · rintro rfl
    refine ⟨List.mem_cons_self, fun _ => ⟨['a'], List.mem_cons_self, ?_⟩, ?_, fun _ h => by cases h⟩
    · intro pre hpre
      rw [List.mem_singleton.mp hpre]
      decide
    · rintro ⟨⟨id, hid⟩, hall⟩
      obtain ⟨c, hc, -⟩ := hall id hid
      have hlog : c ∈ fixLog "refs/n".toList none := hc
      exact absurd (mem_fixLog hlog).2.1 (by decide)

theorem fixRepository_plainPaths :
    fixRepository.PlainPaths fixAnalysis := by
  intro _ c hc path hpath
  have hmem : path ∈ [['a'], "docs/a".toList] := by
    rcases mem_range_fix hc with rfl | rfl
    · exact hpath
    · exact List.mem_cons_of_mem _ hpath
  have hchars : ∀ c ∈ path,
      (32 ≤ c.toNat ∧ c.toNat ≠ 127 ∧ c ≠ '"' ∧ c ≠ '\\') ∧ isSpace c = false := by
    intro c hc
    have hin : c ∈ "docs/a".toList := by
      rcases List.mem_pair.mp hmem with rfl | rfl
      · rw [List.mem_singleton.mp hc]
        decide
      · exact hc
    rcases (by simpa using hin : c = 'd' ∨ c = 'o' ∨ c = 'c' ∨ c = 's' ∨ c = '/' ∨ c = 'a') with
      rfl | rfl | rfl | rfl | rfl | rfl <;> decide
  have hspace : ∀ c ∈ path, isSpace c = false := fun c hc => (hchars c hc).2
  exact
    { unquoted := ⟨(by decide : ∀ p ∈ [['a'], "docs/a".toList], p ≠ []) path hmem,
        fun c hc => (hchars c hc).1⟩
      oneLine := fun c hc => isLineBreak_of_not_isSpace (hspace c hc)
      head := fun c hc => hspace c (List.mem_of_mem_head? hc)
      last := fun c hc => hspace c (List.mem_of_getLast? hc)
      notSha := (by decide : ∀ p ∈ [['a'], "docs/a".toList], isFullSha p = false) path hmem }

end Example

/-! ## The two scripts -/

section Scripts

variable {Repo Oid : Type} {py : Interpreter} {git : Git Repo Oid} {run : Repo → GitRunner}
variable {revParse : Str → Option Str} {r : Repository} {a : Analysis}
variable {repo fetched : Repo} {args : CommonArgs} {skip : List Str} {noFetch : Bool}

/-- The commits of the report are found in the repository after the fetch. -/
theorem findMain_eq_ok_iff
    (hskip : skipPrefixesOf args.skipFile = .ok skip)
    (hfetch : fetchUnless py git noFetch repo args = .ok fetched)
    (ha : analysisOf git fetched args skip = .ok a)
    {missing : List CommitInfo} (hmissing : findProbableMissing py (run fetched) a = .ok missing)
    {text : Str} :
    findMain py git run true noFetch repo args = .ok text ↔ printReport missing = some text := by
  have hprint : findMain py git run true noFetch repo args = .ok text ↔
      (printReport missing).elim (.error 1) .ok = (.ok text : Except Nat Str) := by
    unfold findMain
    rw [if_neg (by decide), hskip]
    constructor
    · intro h
      obtain ⟨skip', hskip', h⟩ := bind_ok_iff.mp h
      obtain rfl := Except.ok.inj hskip'
      obtain ⟨repo', hrepo', h⟩ := bind_ok_iff.mp h
      obtain rfl := Except.ok.inj (hfetch.symm.trans hrepo')
      obtain ⟨a', ha', h⟩ := bind_ok_iff.mp h
      obtain rfl := Except.ok.inj (ha.symm.trans ha')
      obtain ⟨missing', hmissing', h⟩ := bind_ok_iff.mp h
      obtain rfl := Except.ok.inj (hmissing.symm.trans hmissing')
      exact h
    · exact fun h => bind_ok_iff.mpr ⟨skip, rfl, bind_ok_iff.mpr ⟨fetched, hfetch,
        bind_ok_iff.mpr ⟨a, ha, bind_ok_iff.mpr ⟨missing, hmissing, h⟩⟩⟩⟩
  rw [hprint]
  cases printReport missing with
  | none => constructor <;> (intro h; cases h)
  | some printed =>
      rw [Option.elim_some, Except.ok.injEq, Option.some.injEq]

/-- The subject of a commit is a line. -/
theorem LoggedCommit.printable
    (c : LoggedCommit) (hfuture : (c.time : Int) < 253402300800) :
    c.info.Printable where
  isSha := c.isSha
  past := Int.natCast_nonneg _
  future := hfuture
  noNewline := newline_not_mem_firstLine _
  noReturn := fun hmem => return_not_mem_universalNewlines c.message
    ((List.takeWhile_prefix _).subset hmem)

/-- What is printed lists the commits of the range that no rule removes, by their times
and ids. -/
theorem report_lists_missing
    (py : Interpreter) (git : Git Repo Oid) (run : Repo → GitRunner) (noFetch : Bool)
    (repo fetched : Repo) (args : CommonArgs) (skip : List Str) (a : Analysis) (r : Repository)
    (hskip : skipPrefixesOf args.skipFile = .ok skip)
    (hfetch : fetchUnless py git noFetch repo args = .ok fetched)
    (ha : analysisOf git fetched args skip = .ok a)
    (hresolved : a.Resolved r)
    (hserves : r.Serves (run fetched))
    (hplain : r.PlainPaths a) :
    ∃ out : List LoggedCommit,
      (∀ c, c ∈ out ↔ c ∈ r.range a ∧ r.Missing a c) ∧
      (out.map fun c => c.sha).Nodup ∧
      Ascending reportKey (out.map LoggedCommit.info) ∧
      ∀ text, findMain py git run true noFetch repo args = .ok text ↔
        printReport (out.map LoggedCommit.info) = some text := by
  obtain ⟨out, hout, hsorted, hnodup, hmem⟩ := findProbableMissing_spec py hserves hresolved hplain
  exact ⟨out, hmem, hnodup, hsorted, fun text => findMain_eq_ok_iff hskip hfetch ha hout⟩

theorem report_lists_missing_fix :
    findMain asciiInterpreter cloneGit (fun _ => fixGit) true true fixRefs fixArgs =
      .ok ("2023-11-14T22:13:20Z\t".toList ++ fixCommit.sha ++ "\tFix #1\n".toList) := by
  obtain ⟨out, hmem, hnodup, -, htext⟩ := report_lists_missing asciiInterpreter cloneGit
    (fun _ => fixGit) true fixRefs fixRefs fixArgs ["docs/".toList] fixAnalysis fixRepository
    (by decide) rfl rfl fixAnalysis_resolved fixGit_serves.toServes fixRepository_plainPaths
  have hout : out.Perm [fixCommit] := by
    refine (List.perm_ext_iff_of_nodup (List.Nodup.of_map _ hnodup)
      (List.nodup_singleton _)).mpr fun c => ?_
    rw [hmem, fixRepository_missing_iff, List.mem_singleton]
  rw [List.perm_singleton.mp hout] at htext
  exact (htext _).mpr (by decide +kernel)

/-- The validator accepts a report iff its lines are ids of commits of the range that the
base does not reach; if it recomputes, iff they are the ids of the missing commits. -/
theorem validator_accepts_iff
    (py : Interpreter) (git : Git Repo Oid) (run : Repo → GitRunner)
    (revParse : Str → Option Str) (recomputeExpected selfCheckOutputs : Bool)
    (repo : Repo) (args : CommonArgs) (skip : List Str) (a : Analysis) (r : Repository)
    (text : Str)
    (hskip : skipPrefixesOf args.skipFile = .ok skip)
    (ha : analysisOf git repo args skip = .ok a)
    (hresolved : a.Resolved r)
    (hserves : r.ServesValidator (run repo) revParse)
    (hplain : r.PlainPaths a) :
    (∃ notes, validateMain py git run recomputeExpected selfCheckOutputs repo args text =
      .ok notes) ↔
      ∃ shas ids, parseOutputLines py text = .ok shas ∧
        List.Forall₂ (fun sha id => revParse sha = some id) shas ids ∧
        (∀ id ∈ ids, (∃ c ∈ r.range a, c.sha = id) ∧
          ∀ base ∈ a.baseRef, r.reaches base id = false) ∧
        (recomputeExpected = true →
          ∀ id, id ∈ ids ↔ ∃ c ∈ r.range a, r.Missing a c ∧ c.sha = id) := by
  constructor
  · rintro ⟨notes, h⟩
    obtain ⟨skip', hskip', h⟩ := bind_ok_iff.mp h
    rw [orExit_eq_ok_iff, hskip] at hskip'
    obtain rfl := Except.ok.inj hskip'
    obtain ⟨ids, hids, h⟩ := bind_ok_iff.mp h
    obtain ⟨a', ha', h⟩ := bind_ok_iff.mp h
    rw [orExit_eq_ok_iff, ha] at ha'
    obtain rfl := Except.ok.inj ha'
    obtain ⟨shas, hshas, hread⟩ := (loadOutputShas_ok_iff hserves).mp (orExit_eq_ok_iff.mp hids)
    exact ⟨shas, ids, hshas, hread, (checkReport_ok_iff py hserves hresolved hplain _ _).mp
      ⟨notes, h⟩⟩
  · rintro ⟨shas, ids, hshas, hread, hchecked⟩
    obtain ⟨notes, h⟩ := (checkReport_ok_iff py hserves hresolved hplain recomputeExpected
      selfCheckOutputs).mpr hchecked
    exact ⟨notes, bind_ok_iff.mpr ⟨skip, orExit_eq_ok_iff.mpr hskip, bind_ok_iff.mpr
      ⟨ids, orExit_eq_ok_iff.mpr ((loadOutputShas_ok_iff hserves).mpr ⟨shas, hshas, hread⟩),
        bind_ok_iff.mpr ⟨a, orExit_eq_ok_iff.mpr ha, h⟩⟩⟩⟩

theorem validator_accepts_iff_fix :
    (∃ notes, validateMain asciiInterpreter cloneGit (fun _ => fixGit) true true fixRefs fixArgs
      fixCommit.sha = .ok notes) ∧
    ¬ ∃ notes, validateMain asciiInterpreter cloneGit (fun _ => fixGit) true true fixRefs fixArgs
      docsCommit.sha = .ok notes := by
  have hiff := fun text => validator_accepts_iff asciiInterpreter cloneGit (fun _ => fixGit)
    fixRevParse true true fixRefs fixArgs ["docs/".toList] fixAnalysis fixRepository text
    (by decide) rfl fixAnalysis_resolved fixGit_serves fixRepository_plainPaths
  have hmissing : ∀ {c}, c = fixCommit ↔
      c ∈ fixRepository.range fixAnalysis ∧ fixRepository.Missing fixAnalysis c :=
    fixRepository_missing_iff.symm
  constructor
  · refine (hiff _).mpr ⟨[fixCommit.sha], [fixCommit.sha], by decide +kernel,
      .cons (if_pos (Or.inl rfl)) .nil, ?_, fun _ id => ?_⟩
    · intro id hid
      exact ⟨⟨fixCommit, (hmissing.mp rfl).1, (List.mem_singleton.mp hid).symm⟩,
        fun base hbase => by cases hbase⟩
    · rw [List.mem_singleton]
      constructor
      · rintro rfl
        exact ⟨fixCommit, (hmissing.mp rfl).1, (hmissing.mp rfl).2, rfl⟩
      · rintro ⟨c, hc, hm, rfl⟩
        rw [hmissing.mpr ⟨hc, hm⟩]
  · intro h
    obtain ⟨shas, ids, hshas, hids, -, hall⟩ := (hiff _).mp h
    have hparsed : parseOutputLines asciiInterpreter docsCommit.sha = .ok [docsCommit.sha] := by
      decide +kernel
    obtain rfl := Except.ok.inj (hparsed.symm.trans hshas)
    obtain ⟨id, rest, hid, hrest, rfl⟩ := List.forall₂_cons_left_iff.mp hids
    obtain rfl := List.forall₂_nil_left_iff.mp hrest
    obtain rfl : docsCommit.sha = id := Option.some.inj ((if_pos (Or.inr rfl)).symm.trans hid)
    obtain ⟨c, hc, hm, hsha⟩ := (hall rfl _).mp (List.mem_singleton.mpr rfl)
    rw [hmissing.mpr ⟨hc, hm⟩] at hsha
    exact absurd hsha (by decide)

/-- What the tool prints passes all checks of the validator, if every subject is one line
and every time can be printed. -/
theorem report_validates
    (py : Interpreter) (git : Git Repo Oid) (run : Repo → GitRunner) (noFetch : Bool)
    (revParse : Str → Option Str)
    (repo fetched : Repo) (args : CommonArgs) (skip : List Str) (a : Analysis) (r : Repository)
    (hskip : skipPrefixesOf args.skipFile = .ok skip)
    (hfetch : fetchUnless py git noFetch repo args = .ok fetched)
    (ha : analysisOf git fetched args skip = .ok a)
    (hresolved : a.Resolved r)
    (hserves : r.ServesValidator (run fetched) revParse)
    (hplain : r.PlainPaths a)
    (hprintable : ∀ c ∈ r.range a, (c.time : Int) < 253402300800 ∧ IsOneLine c.info.subject) :
    ∃ text, findMain py git run true noFetch repo args = .ok text ∧
      ∀ recomputeExpected selfCheckOutputs,
        validateMain py git run recomputeExpected selfCheckOutputs fetched args text =
          .ok [] := by
  obtain ⟨out, hout, -, -, hmem⟩ := findProbableMissing_spec py hserves.toServes hresolved
    hplain
  have hrange : ∀ c ∈ out, c ∈ r.range a := fun c hc => ((hmem c).mp hc).1
  obtain ⟨text, htext, -, hread⟩ := @printReport_spec py (out.map LoggedCommit.info) (by
    intro i hi
    obtain ⟨c, hc, rfl⟩ := List.mem_map.mp hi
    exact c.printable (hprintable c (hrange c hc)).1)
  refine ⟨text, (findMain_eq_ok_iff hskip hfetch ha hout).mpr htext,
    fun recomputeExpected selfCheckOutputs => ?_⟩
  have hshas : parseOutputLines py text = .ok (out.map fun c => c.sha) := by
    have hlines := (hread 1).mpr (by
      intro i hi
      obtain ⟨c, hc, rfl⟩ := List.mem_map.mp hi
      exact (hprintable c (hrange c hc)).2)
    rw [List.map_map] at hlines
    exact hlines
  have hload : loadOutputShas (run fetched) py text = .ok (out.map fun c => c.sha) := by
    refine (loadOutputShas_ok_iff hserves).mpr ⟨_, hshas, ?_⟩
    rw [List.forall₂_map_left_iff, List.forall₂_map_right_iff, List.forall₂_same]
    exact fun c hc => hserves.self _ _ _ c (hrange c hc)
  have hmissing : ∀ id, id ∈ out.map (fun c => c.sha) ↔
      ∃ c ∈ r.range a, r.Missing a c ∧ c.sha = id := by
    intro id
    rw [List.mem_map]
    refine exists_congr fun c => ?_
    rw [hmem, and_assoc]
  obtain ⟨notes, hnotes, hnil⟩ := checkReport_ok py hserves hresolved hplain recomputeExpected
    selfCheckOutputs (out.map fun c => c.sha) (by
      intro id hid
      obtain ⟨c, hc, hm, rfl⟩ := (hmissing id).mp hid
      exact ⟨⟨c, hc, rfl⟩, fun base hbase => (hm.notOnBase base hbase).1⟩)
    fun _ => hmissing
  rw [hnil fun id hid => (hmissing id).mp hid] at hnotes
  exact bind_ok_iff.mpr ⟨skip, orExit_eq_ok_iff.mpr hskip, bind_ok_iff.mpr
    ⟨_, orExit_eq_ok_iff.mpr hload, bind_ok_iff.mpr ⟨a, orExit_eq_ok_iff.mpr ha, hnotes⟩⟩⟩

theorem report_validates_fix :
    ∃ text, findMain asciiInterpreter cloneGit (fun _ => fixGit) true true fixRefs fixArgs =
        .ok text ∧
      ∀ recomputeExpected selfCheckOutputs,
        validateMain asciiInterpreter cloneGit (fun _ => fixGit) recomputeExpected
          selfCheckOutputs fixRefs fixArgs text = .ok [] :=
  report_validates asciiInterpreter cloneGit (fun _ => fixGit) true fixRevParse fixRefs fixRefs
    fixArgs ["docs/".toList] fixAnalysis fixRepository (by decide) rfl rfl
    fixAnalysis_resolved fixGit_serves fixRepository_plainPaths (by
      intro c hc
      have hline : "Fix #1".toList.dropWhile (fun c => !isLineBreak c) = [] := by decide
      have honeLine : IsOneLine "Fix #1".toList := by
        intro d hd
        rw [hline] at hd
        cases hd
      rcases mem_range_fix hc with rfl | rfl
      · exact ⟨by decide, honeLine⟩
      · exact ⟨by decide, honeLine⟩)

end Scripts

end Commits
end YdbSnippets
