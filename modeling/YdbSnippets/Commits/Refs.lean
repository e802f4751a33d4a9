import YdbSnippets.Commits.Processes
import YdbSnippets.Lists.Matching
import YdbSnippets.Lists.Sorting
import YdbSnippets.Python.Text
import YdbSnippets.Text.Search
import Mathlib.Data.Char
import Mathlib.Data.List.Dedup
import Mathlib.Data.List.Infix
import Mathlib.Data.List.Lex

/-!
# The refs that are fetched and the refs that are analysed

`fetch_branches_for_analysis` updates the remote-tracking refs of the branches that
are given, and `resolve_ref` chooses the ref that is read for each of them.
-/

namespace YdbSnippets
namespace Commits

open Matching Python Sorting Text

section Git

/-- A finished `git fetch`, and the repository it leaves. -/
structure FetchReply (Repo : Type) extends CompletedProcess where
  repo : Repo

/-- What the tool uses of `git`. -/
structure Git (Repo Oid : Type) where
  /-- The refs of a repository, by their full names. -/
  refs : Repo → Str → Option Oid
  /-- The commit that an object is peeled to. -/
  peel : Repo → Oid → Option Oid
  /-- What a name stands for that no ref has. -/
  other : Repo → Str → Option Oid
  hasRemote : Repo → Str → Bool
  /-- `git fetch <remote> --prune` -/
  fetchPrune : Repo → Str → FetchReply Repo
  /-- `git fetch <remote> +refs/heads/<name>:refs/remotes/<remote>/<name>` -/
  fetchBranch : Repo → Str → Str → FetchReply Repo

/-- The refs that a name may stand for; the first that exists is taken. -/
def refRules (name : Str) : List Str :=
  [name, "refs/".toList ++ name, "refs/tags/".toList ++ name, "refs/heads/".toList ++ name,
    "refs/remotes/".toList ++ name, "refs/remotes/".toList ++ name ++ "/HEAD".toList]

variable {Repo Oid : Type}

/-- `git rev-parse --verify <name>^{commit}` -/
def Git.revParse (git : Git Repo Oid) (repo : Repo) (name : Str) : Option Oid :=
  match (refRules name).findSome? (git.refs repo) with
  | some object => git.peel repo object
  | none => git.other repo name

end Git

section Names

/-- `refs/remotes/<remote>/<name>` -/
def trackingRef (remote name : Str) : Str :=
  "refs/remotes/".toList ++ (remote ++ '/' :: name)

/-- The part of `_server_branch_name_for_fetch` for a ref of a remote, where `rest`
follows `refs/remotes/`. -/
def branchOfRemote (remote rest : Str) : Option Str :=
  if '/' ∉ rest then none
  else
    let r := rest.takeWhile (· != '/')
    let name := rest.drop (r.length + 1)
    if r = remote then some name else none

/-- `_server_branch_name_for_fetch`.  The call for `remotes/...` passes on a text that
starts with `refs/remotes/`. -/
def serverBranchNameForFetch (remote branch : Str) : Option Str :=
  let s := strip branch
  if s = [] then none
  else if "refs/heads/".toList.isPrefixOf s then some (s.drop "refs/heads/".length)
  else if "refs/tags/".toList.isPrefixOf s then none
  else if "refs/remotes/".toList.isPrefixOf s then
    branchOfRemote remote (s.drop "refs/remotes/".length)
  else if "remotes/".toList.isPrefixOf s then branchOfRemote remote (s.drop "remotes/".length)
  else if "refs/".toList.isPrefixOf s then none
  else if (remote ++ ['/']).isPrefixOf s then some (s.drop (remote.length + 1))
  else some s

/-- The test at the start of `resolve_ref`. -/
def isFullName (branch : Str) : Bool :=
  "refs/".toList.isPrefixOf branch || "remotes/".toList.isPrefixOf branch ||
    occurs "/remotes/".toList branch

end Names

section Steps

variable {Repo Oid : Type} (py : Interpreter) (git : Git Repo Oid)

/-- The reply says that the server has no such branch. -/
def saysMissing (stdout stderr : Str) : Bool :=
  let err := if stderr.isEmpty then stdout else stderr
  occurs "couldn't find remote ref".toList err ||
    occurs "could not find".toList (py.lower err)

/-- `fetch_one_remote_branch`; an error is the exit status, as it is for `run_git`. -/
def fetchOneRemoteBranch (remote : Str) (repo : Repo) (name : Str) : Except Nat Repo :=
  let p := git.fetchBranch repo remote name
  match p.texts with
  | none => .error 1
  | some (out, err) =>
      if p.returncode = 0 then .ok p.repo
      else if saysMissing py out err &&
          ["refs/heads/".toList ++ name, trackingRef remote name].any
            (fun fallback => (git.revParse p.repo fallback).isSome) then .ok p.repo
      else .error 1

/-- The set `names` of `fetch_branches_for_analysis`, sorted. -/
def namesToFetch (remote previous next : Str) (base : Option Str) : List Str :=
  sortedBy id
    (([previous, next] ++ base.toList).filterMap (serverBranchNameForFetch remote)).dedup

/-- `fetch_branches_for_analysis` -/
def fetchBranchesForAnalysis (repo : Repo) (remote previous next : Str) (base : Option Str) :
    Except Nat Repo :=
  if !git.hasRemote repo remote then .error 1
  else do
    let p := git.fetchPrune repo remote
    let _ ← runGit p.toCompletedProcess
    (namesToFetch remote previous next base).foldlM (fetchOneRemoteBranch py git remote) p.repo

/-- `resolve_ref` -/
def resolveRef (repo : Repo) (remote branch : Str) : Except Nat Str :=
  if isFullName branch then
    if (git.revParse repo branch).isSome then .ok branch else .error 1
  else
    match [trackingRef remote branch, branch, "refs/heads/".toList ++ branch].find?
        (fun candidate => (git.revParse repo candidate).isSome) with
    | some candidate => .ok candidate
    | none =>
        if (git.revParse repo (remote ++ '/' :: branch)).isSome then
          .ok (remote ++ '/' :: branch)
        else .error 1

/-- What is documented of `git fetch` with an explicit refspec.  A fetch that succeeds
leaves the tracking ref at the server's tip, and moves no tracking ref away from it; a
fetch that fails does not report a branch as missing that the server has. -/
structure FetchDocumented (server : Str → Option Oid) (remote : Str) : Prop where
  fetched : ∀ repo name tip, server name = some tip →
    (git.fetchBranch repo remote name).returncode = 0 →
    git.refs (git.fetchBranch repo remote name).repo (trackingRef remote name) = some tip
  kept : ∀ repo name other tip, server other = some tip →
    git.refs repo (trackingRef remote other) = some tip →
    git.refs (git.fetchBranch repo remote name).repo (trackingRef remote other) = some tip
  reported : ∀ repo name tip, server name = some tip →
    (git.fetchBranch repo remote name).returncode ≠ 0 →
    ∀ out err, (git.fetchBranch repo remote name).texts = some (out, err) →
      saysMissing py out err = false
  commit : ∀ repo name tip, server name = some tip →
    git.refs repo (trackingRef remote name) = some tip → git.peel repo tip = some tip

/-- `resolve_ref` returns a ref that points to the tip. -/
def AnalysesTip (repo : Repo) (remote branch : Str) (tip : Oid) : Prop :=
  ∃ ref, resolveRef git repo remote branch = .ok ref ∧ git.revParse repo ref = some tip

/-- The first of these refs that the repository has points to the commit. -/
def Git.LeadsTo (repo : Repo) (names : List Str) (commit : Oid) : Prop :=
  ∃ before ref after object, names = before ++ ref :: after ∧
    (∀ earlier ∈ before, git.refs repo earlier = none) ∧
    git.refs repo ref = some object ∧ git.peel repo object = some commit

/-- The repository has none of these refs. -/
def Git.HasNone (repo : Repo) (names : List Str) : Prop :=
  ∀ ref ∈ names, git.refs repo ref = none

/-- The name stands for the commit: through the first ref that it may stand for, or
otherwise if there is no such ref. -/
def Git.StandsFor (repo : Repo) (name : Str) (commit : Oid) : Prop :=
  git.LeadsTo repo (refRules name) commit ∨
    git.HasNone repo (refRules name) ∧ git.other repo name = some commit

/-- The name stands for no commit. -/
def Git.NoCommit (repo : Repo) (name : Str) : Prop :=
  ∀ commit, ¬ git.StandsFor repo name commit

/-- `<remote>/<name>` -/
def remoteName (remote name : Str) : Str :=
  remote ++ '/' :: name

/-- The refs that git takes for a name before it takes the ref of a remote. -/
def ownRefs (name : Str) : List Str :=
  [name, "refs/".toList ++ name, "refs/tags/".toList ++ name, "refs/heads/".toList ++ name]

/-- When the tip of a branch is read, by the ways in which the branch can be given. -/
inductive ReadsTip (repo : Repo) (remote branch name : Str) (tip : Oid) : Prop
  /-- The short name. -/
  | shortName : branch = name → isFullName branch = false → ReadsTip repo remote branch name tip
  /-- `refs/remotes/<remote>/<name>` -/
  | tracking : branch = trackingRef remote name → ReadsTip repo remote branch name tip
  /-- `remotes/<remote>/<name>`, where no ref of just this name is elsewhere. -/
  | remotes : branch = "remotes/".toList ++ remoteName remote name →
      (∀ object, git.refs repo branch = some object → git.peel repo object = some tip) →
      ReadsTip repo remote branch name tip
  /-- `refs/heads/<name>`, or any other text that is read as it stands.  It stands for
  the tip in this repository. -/
  | asItStands : isFullName branch = true → git.StandsFor repo branch tip →
      ReadsTip repo remote branch name tip
  /-- `<remote>/<name>`, where the remote has no branch of this name or one that is at
  the tip.  In the first case the clone has no ref of its own for the name, or the first
  of them is at the tip, or it is no commit and one that is tried later is at the tip. -/
  | ofRemote : branch = remoteName remote name → isFullName branch = false →
      (git.StandsFor repo (trackingRef remote branch) tip ∨
        git.NoCommit repo (trackingRef remote branch) ∧
          (git.HasNone repo (ownRefs branch) ∨ git.LeadsTo repo (ownRefs branch) tip ∨
            git.NoCommit repo branch ∧
              (git.StandsFor repo ("refs/heads/".toList ++ branch) tip ∨
                git.NoCommit repo ("refs/heads/".toList ++ branch) ∧
                  git.StandsFor repo (remoteName remote branch) tip))) →
      ReadsTip repo remote branch name tip
  /-- White space around the name, which is part of the name that is read. -/
  | spaced : strip branch ≠ branch → isFullName branch = false →
      (git.StandsFor repo (trackingRef remote branch) tip ∨
        git.NoCommit repo (trackingRef remote branch) ∧
          (git.StandsFor repo branch tip ∨
            git.NoCommit repo branch ∧
              (git.StandsFor repo ("refs/heads/".toList ++ branch) tip ∨
                git.NoCommit repo ("refs/heads/".toList ++ branch) ∧
                  git.StandsFor repo (remoteName remote branch) tip))) →
      ReadsTip repo remote branch name tip

end Steps

section Resolving

variable {Repo Oid : Type} {git : Git Repo Oid}

theorem leadsTo_iff
    {repo : Repo} {names : List Str} {commit : Oid} :
    git.LeadsTo repo names commit ↔
      ∃ object, names.findSome? (git.refs repo) = some object ∧
        git.peel repo object = some commit := by
  unfold Git.LeadsTo
  simp only [List.findSome?_eq_some_iff]
  constructor
  · rintro ⟨before, ref, after, object, hnames, hbefore, href, hpeel⟩
    exact ⟨object, ⟨before, ref, after, hnames, href, hbefore⟩, hpeel⟩
  · rintro ⟨object, ⟨before, ref, after, hnames, href, hbefore⟩, hpeel⟩
    exact ⟨before, ref, after, object, hnames, hbefore, href, hpeel⟩

theorem hasNone_iff
    {repo : Repo} {names : List Str} :
    git.HasNone repo names ↔ names.findSome? (git.refs repo) = none := by
  rw [List.findSome?_eq_none_iff]
  rfl

/-- A name is read by the documented rules. -/
theorem revParse_eq_some_iff
    {repo : Repo} {name : Str} {commit : Oid} :
    git.revParse repo name = some commit ↔ git.StandsFor repo name commit := by
  rw [Git.StandsFor, leadsTo_iff, hasNone_iff, Git.revParse]
  cases (refRules name).findSome? (git.refs repo) with
  | none => simp
  | some object => simp

theorem revParse_eq_none_iff
    {repo : Repo} {name : Str} :
    git.revParse repo name = none ↔ git.NoCommit repo name := by
  simp only [Git.NoCommit, ← revParse_eq_some_iff]
  exact Option.eq_none_iff_forall_ne_some

/-- A text that is read as it stands is at the tip if it stands for it. -/
theorem analysesTip_of_full
    {repo : Repo} {remote branch : Str} {tip : Oid}
    (hfull : isFullName branch = true) :
    AnalysesTip git repo remote branch tip ↔ git.StandsFor repo branch tip := by
  rw [← revParse_eq_some_iff, AnalysesTip, resolveRef, if_pos hfull]
  cases hread : git.revParse repo branch with
  | none => simp
  | some commit =>
      rw [Option.isSome_some, if_pos rfl]
      constructor
      · rintro ⟨ref, href, htip⟩
        rcases Except.ok.inj href with rfl
        exact hread.symm.trans htip
      · exact fun htip => ⟨branch, rfl, hread.trans htip⟩

/-- Any other text is tried in four ways, each of them if those before it stand for no
commit. -/
theorem analysesTip_of_short
    {repo : Repo} {remote branch : Str} {tip : Oid}
    (hshort : isFullName branch = false) :
    AnalysesTip git repo remote branch tip ↔
      git.StandsFor repo (trackingRef remote branch) tip ∨
        git.NoCommit repo (trackingRef remote branch) ∧
          (git.StandsFor repo branch tip ∨
            git.NoCommit repo branch ∧
              (git.StandsFor repo ("refs/heads/".toList ++ branch) tip ∨
                git.NoCommit repo ("refs/heads/".toList ++ branch) ∧
                  git.StandsFor repo (remoteName remote branch) tip)) := by
  simp only [← revParse_eq_some_iff, ← revParse_eq_none_iff]
  rw [AnalysesTip, resolveRef, hshort, if_neg Bool.false_ne_true]
  simp only [List.find?_cons, List.find?_nil]
  rw [show remote ++ '/' :: branch = remoteName remote branch from rfl]
  generalize "refs/heads/".toList ++ branch = heads
  cases htracking : git.revParse repo (trackingRef remote branch) with
  | some commit => simp [htracking]
  | none =>
      cases hbranch : git.revParse repo branch with
      | some commit => simp [hbranch]
      | none =>
          cases hheads : git.revParse repo heads with
          | some commit => simp [hheads]
          | none =>
              cases hremote : git.revParse repo (remoteName remote branch) with
              | some commit => simp [hremote]
              | none => simp

/-- A tracking ref that is at the tip is found under its full name. -/
theorem revParse_trackingRef
    {repo : Repo} {remote name : Str} {tip : Oid}
    (href : git.refs repo (trackingRef remote name) = some tip)
    (hcommit : git.peel repo tip = some tip) :
    git.revParse repo (trackingRef remote name) = some tip := by
  unfold Git.revParse refRules
  rw [List.findSome?_cons, href]
  exact hcommit

theorem isFullName_trackingRef (remote name : Str) :
    isFullName (trackingRef remote name) = true := by
  have hrefs : "refs/".toList.isPrefixOf (trackingRef remote name) = true :=
    List.isPrefixOf_iff_prefix.mpr ⟨"remotes/".toList ++ (remote ++ '/' :: name), rfl⟩
  rw [isFullName, hrefs, Bool.true_or, Bool.true_or]

theorem isFullName_remotes (rest : Str) :
    isFullName ("remotes/".toList ++ rest) = true := by
  have hremotes : "remotes/".toList.isPrefixOf ("remotes/".toList ++ rest) = true :=
    List.isPrefixOf_iff_prefix.mpr (List.prefix_append _ _)
  rw [isFullName, hremotes, Bool.or_true, Bool.true_or]

/-- The name stands for the tip if the clone has no ref of its own for it, or the first
of them is at the tip: the next ref is the tracking ref. -/
theorem standsFor_remoteName_iff
    {repo : Repo} {remote name : Str} {tip : Oid}
    (href : git.refs repo (trackingRef remote name) = some tip)
    (hcommit : git.peel repo tip = some tip) :
    git.StandsFor repo (remoteName remote name) tip ↔
      git.HasNone repo (ownRefs (remoteName remote name)) ∨
        git.LeadsTo repo (ownRefs (remoteName remote name)) tip := by
  have hrules : refRules (remoteName remote name) = ownRefs (remoteName remote name) ++
      [trackingRef remote name, trackingRef remote name ++ "/HEAD".toList] := rfl
  rw [← revParse_eq_some_iff, Git.revParse, hrules, List.findSome?_append,
    List.findSome?_cons, href, leadsTo_iff, hasNone_iff]
  cases (ownRefs (remoteName remote name)).findSome? (git.refs repo) with
  | none => simp [hcommit]
  | some object => simp

/-- A text that is not read as it stands is the short name, or the name behind that of
the remote, unless there is white space around it. -/
theorem spelling_of_short
    {remote branch name : Str}
    (hname : serverBranchNameForFetch remote branch = some name)
    (hshort : isFullName branch = false)
    (hstrip : strip branch = branch) :
    branch = name ∨ branch = remoteName remote name := by
  rw [isFullName, Bool.or_eq_false_iff, Bool.or_eq_false_iff] at hshort
  obtain ⟨⟨hrefs, hremotes⟩, -⟩ := hshort
  have hnot : ∀ rest : Str, ("refs/".toList ++ rest).isPrefixOf branch = false := by
    intro rest
    rw [Bool.eq_false_iff]
    intro h
    rw [List.isPrefixOf_iff_prefix.mpr
      ((List.prefix_append _ _).trans (List.isPrefixOf_iff_prefix.mp h))] at hrefs
    cases hrefs
  unfold serverBranchNameForFetch at hname
  simp only [hstrip, hrefs, hremotes, show "refs/heads/".toList.isPrefixOf branch = false from
    hnot "heads/".toList, show "refs/tags/".toList.isPrefixOf branch = false from
    hnot "tags/".toList, show "refs/remotes/".toList.isPrefixOf branch = false from
    hnot "remotes/".toList, Bool.false_eq_true, if_false] at hname
  split_ifs at hname with hempty hremote
  · obtain ⟨rest, rfl⟩ := List.isPrefixOf_iff_prefix.mp hremote
    rcases Option.some.inj hname with rfl
    right
    simp [remoteName]
  · exact Or.inl (Option.some.inj hname)

theorem readsTip_iff
    {repo : Repo} {remote branch name : Str} {tip : Oid}
    (hname : serverBranchNameForFetch remote branch = some name)
    (href : git.refs repo (trackingRef remote name) = some tip)
    (hcommit : git.peel repo tip = some tip) :
    AnalysesTip git repo remote branch tip ↔ ReadsTip git repo remote branch name tip := by
  have hfound := revParse_trackingRef href hcommit
  constructor
  · intro h
    cases hfull : isFullName branch with
    | true => exact .asItStands hfull ((analysesTip_of_full hfull).mp h)
    | false =>
        have htried := (analysesTip_of_short hfull).mp h
        by_cases hstrip : strip branch = branch
        · rcases spelling_of_short hname hfull hstrip with hshort | hremote
          · exact .shortName hshort hfull
          · refine .ofRemote hremote hfull ?_
            rw [hremote, standsFor_remoteName_iff href hcommit, ← hremote, or_assoc] at htried
            exact htried
        · exact .spaced hstrip hfull htried
  · rintro (⟨rfl, hshort⟩ | rfl | ⟨rfl, hown⟩ | ⟨hfull, hstands⟩ | ⟨hremote, hshort, htried⟩ |
      ⟨-, hshort, htried⟩)
    · exact (analysesTip_of_short hshort).mpr (Or.inl (revParse_eq_some_iff.mp hfound))
    · exact (analysesTip_of_full (isFullName_trackingRef remote name)).mpr
        (revParse_eq_some_iff.mp hfound)
    · rw [analysesTip_of_full (isFullName_remotes _), ← revParse_eq_some_iff, Git.revParse,
        refRules, List.findSome?_cons]
      cases hobject : git.refs repo ("remotes/".toList ++ remoteName remote name) with
      | some object => exact hown object hobject
      | none =>
          rw [List.findSome?_cons, show "refs/".toList ++ ("remotes/".toList ++
            remoteName remote name) = trackingRef remote name from rfl, href]
          exact hcommit
    · exact (analysesTip_of_full hfull).mpr hstands
    · rw [analysesTip_of_short hshort, hremote, standsFor_remoteName_iff href hcommit, ← hremote,
        or_assoc]
      exact htried
    · exact (analysesTip_of_short hshort).mpr htried

end Resolving

section Fetching

variable {Repo Oid : Type} {py : Interpreter} {git : Git Repo Oid}
variable {server : Str → Option Oid} {remote : Str}

theorem fetchOne_cases
    {repo fetched : Repo} {name : Str}
    (h : fetchOneRemoteBranch py git remote repo name = .ok fetched) :
    fetched = (git.fetchBranch repo remote name).repo ∧
      ((git.fetchBranch repo remote name).returncode = 0 ∨
        (git.fetchBranch repo remote name).returncode ≠ 0 ∧
          ∃ out err, (git.fetchBranch repo remote name).texts = some (out, err) ∧
            saysMissing py out err = true) := by
  unfold fetchOneRemoteBranch at h
  dsimp only at h
  split at h
  · cases h
  · next out err htexts =>
      by_cases hcode : (git.fetchBranch repo remote name).returncode = 0
      · rw [if_pos hcode] at h
        exact ⟨(Except.ok.inj h).symm, Or.inl hcode⟩
      · rw [if_neg hcode] at h
        split_ifs at h with hmissing
        exact ⟨(Except.ok.inj h).symm, Or.inr ⟨hcode, out, err, htexts,
          (Bool.and_eq_true_iff.mp hmissing).1⟩⟩

/-- After the fetch of a branch that the server has its tracking ref is at the tip. -/
theorem tip_of_fetchOne
    (hgit : FetchDocumented py git server remote)
    {repo fetched : Repo} {name : Str} {tip : Oid}
    (htip : server name = some tip)
    (h : fetchOneRemoteBranch py git remote repo name = .ok fetched) :
    git.refs fetched (trackingRef remote name) = some tip := by
  obtain ⟨rfl, hcode | ⟨hcode, out, err, htexts, hmissing⟩⟩ := fetchOne_cases h
  · exact hgit.fetched repo name tip htip hcode
  · rw [hgit.reported repo name tip htip hcode out err htexts] at hmissing
    cases hmissing

/-- The fetches of other branches leave it there. -/
theorem tip_of_fetches
    (hgit : FetchDocumented py git server remote)
    {name : Str} {tip : Oid} (htip : server name = some tip)
    {names : List Str} {repo fetched : Repo}
    (h : names.foldlM (fetchOneRemoteBranch py git remote) repo = .ok fetched)
    (hstart : name ∈ names ∨ git.refs repo (trackingRef remote name) = some tip) :
    git.refs fetched (trackingRef remote name) = some tip := by
  induction names generalizing repo with
  | nil =>
      rw [List.foldlM_nil] at h
      rcases Except.ok.inj h with rfl
      rcases hstart with hmem | hstart
      · cases hmem
      · exact hstart
  | cons first rest ih =>
      rw [List.foldlM_cons] at h
      obtain ⟨middle, hfirst, hrest⟩ := bind_ok_iff.mp h
      refine ih hrest ?_
      rcases hstart with hmem | hstart
      · rcases List.mem_cons.mp hmem with rfl | hmem
        · exact Or.inr (tip_of_fetchOne hgit htip hfirst)
        · exact Or.inl hmem
      · obtain ⟨rfl, -⟩ := fetchOne_cases hfirst
        exact Or.inr (hgit.kept repo first name tip htip hstart)

theorem mem_namesToFetch
    {previous next branch name : Str} {base : Option Str}
    (hbranch : branch = previous ∨ branch = next ∨ base = some branch)
    (hname : serverBranchNameForFetch remote branch = some name) :
    name ∈ namesToFetch remote previous next base := by
  have hmem : branch ∈ [previous, next] ++ base.toList := by
    rcases hbranch with rfl | rfl | rfl <;> simp
  unfold namesToFetch
  rw [(sortedBy_perm id _).mem_iff, List.mem_dedup]
  exact List.mem_filterMap.mpr ⟨branch, hmem, hname⟩

theorem tip_of_fetchBranches
    (hgit : FetchDocumented py git server remote)
    {repo fetched : Repo} {previous next branch name : Str} {base : Option Str} {tip : Oid}
    (hfetch : fetchBranchesForAnalysis py git repo remote previous next base = .ok fetched)
    (hbranch : branch = previous ∨ branch = next ∨ base = some branch)
    (hname : serverBranchNameForFetch remote branch = some name)
    (htip : server name = some tip) :
    git.refs fetched (trackingRef remote name) = some tip := by
  unfold fetchBranchesForAnalysis at hfetch
  split_ifs at hfetch with hremote
  obtain ⟨-, -, hfetch⟩ := bind_ok_iff.mp hfetch
  exact tip_of_fetches hgit htip hfetch (Or.inl (mem_namesToFetch hbranch hname))

/-- The ref that is analysed is at the server's tip of the branch that was fetched iff
the branch is given by its short name or its tracking ref, or the refs that come first
for another way to give it are not elsewhere. -/
theorem analysed_ref_iff
    (hgit : FetchDocumented py git server remote)
    (repo fetched : Repo)
    (previous next : Str)
    (base : Option Str)
    (hfetch : fetchBranchesForAnalysis py git repo remote previous next base = .ok fetched)
    (branch name : Str)
    (tip : Oid)
    (hbranch : branch = previous ∨ branch = next ∨ base = some branch)
    (hname : serverBranchNameForFetch remote branch = some name)
    (htip : server name = some tip) :
    AnalysesTip git fetched remote branch tip ↔
      ReadsTip git fetched remote branch name tip := by
  have href := tip_of_fetchBranches hgit hfetch hbranch hname htip
  exact readsTip_iff hname href (hgit.commit fetched name tip htip href)

end Fetching

section Clones

/-- A server with one branch `main`, whose tip is 2. -/
def mainServer (name : Str) : Option Nat :=
  if name = "main".toList then some 2 else none

/-- A clone of it, in which every object is a commit. -/
def cloneGit : Git (Str → Option Nat) Nat where
  refs repo := repo
  peel _ object := some object
  other _ _ := none
  hasRemote _ _ := true
  fetchPrune repo _ := ⟨succeeds [], repo⟩
  fetchBranch repo remote name :=
    match mainServer name with
    | some tip => ⟨succeeds [], fun ref => if ref = trackingRef remote name then some tip
        else repo ref⟩
    | none => ⟨⟨128, [], encode ("fatal: couldn't find remote ref refs/heads/".toList ++ name)⟩,
        repo⟩

theorem trackingRef_injective (remote : Str) :
    Function.Injective (trackingRef remote) := by
  intro name other h
  have htail := List.append_cancel_left (List.append_cancel_left h)
  exact (List.cons.inj htail).2

theorem fetchDocumented_cloneGit (remote : Str) :
    FetchDocumented asciiInterpreter cloneGit mainServer remote where
  fetched repo name tip htip _ := by
    simp [cloneGit, htip]
  kept repo name other tip htip href := by
    by_cases hsame : other = name
    · subst hsame
      simp [cloneGit, htip]
    · have hne : trackingRef remote other ≠ trackingRef remote name :=
        fun h => hsame (trackingRef_injective remote h)
      cases hserver : mainServer name with
      | some moved =>
          simp only [cloneGit, hserver, if_neg hne]
          exact href
      | none =>
          simp only [cloneGit, hserver]
          exact href
  reported repo name tip htip hcode := by
    have hzero : (cloneGit.fetchBranch repo remote name).returncode = 0 := by
      simp only [cloneGit, htip]
      rfl
    exact absurd hzero hcode
  commit _ _ _ _ _ := rfl

/-- A clone whose own branch `main` is behind. -/
def staleClone (ref : Str) : Option Nat :=
  if ref = "refs/heads/main".toList then some 1 else none

/-- The clone after the fetch. -/
def fetchedClone (ref : Str) : Option Nat :=
  if ref = "refs/remotes/origin/main".toList then some 2 else staleClone ref

theorem serverBranchName_main :
    serverBranchNameForFetch "origin".toList "main".toList = some "main".toList := by
  decide

theorem serverBranchName_heads_main :
    serverBranchNameForFetch "origin".toList "refs/heads/main".toList =
      some "main".toList := by
  decide

/-- Both spellings of the branch make one fetch. -/
theorem fetchBranches_staleClone :
    fetchBranchesForAnalysis asciiInterpreter cloneGit staleClone "origin".toList
        "refs/heads/main".toList "main".toList none =
      .ok fetchedClone := by
  have hnames : namesToFetch "origin".toList "refs/heads/main".toList "main".toList none =
      ["main".toList] := by
    unfold namesToFetch
    rw [Option.toList_none, List.append_nil, List.filterMap_cons, serverBranchName_heads_main,
      List.filterMap_cons, serverBranchName_main, List.filterMap_nil]
    simp [sortedBy]
  unfold fetchBranchesForAnalysis
  rw [hnames]
  rfl

theorem analysed_main :
    AnalysesTip cloneGit fetchedClone "origin".toList "main".toList 2 :=
  (analysed_ref_iff (fetchDocumented_cloneGit "origin".toList) staleClone fetchedClone
    "refs/heads/main".toList "main".toList none fetchBranches_staleClone
    "main".toList "main".toList 2 (Or.inr (Or.inl rfl)) serverBranchName_main rfl).mpr
    (.shortName rfl rfl)

/-- A branch that is given as `refs/heads/main` is fetched into the tracking ref and read
from the clone's own branch, which is behind. -/
theorem not_analysed_heads_main :
    FetchDocumented asciiInterpreter cloneGit mainServer "origin".toList ∧
    fetchBranchesForAnalysis asciiInterpreter cloneGit staleClone "origin".toList
        "refs/heads/main".toList "main".toList none = .ok fetchedClone ∧
    serverBranchNameForFetch "origin".toList "refs/heads/main".toList =
      some "main".toList ∧
    mainServer "main".toList = some 2 ∧
    ¬ AnalysesTip cloneGit fetchedClone "origin".toList "refs/heads/main".toList 2 := by
  refine ⟨fetchDocumented_cloneGit _, fetchBranches_staleClone, serverBranchName_heads_main,
    rfl, ?_⟩
  rintro ⟨ref, href, htip⟩
  have hread : resolveRef cloneGit fetchedClone "origin".toList "refs/heads/main".toList =
      .ok "refs/heads/main".toList := rfl
  rcases Except.ok.inj (hread.symm.trans href) with rfl
  have hstale : cloneGit.revParse fetchedClone "refs/heads/main".toList = some 1 := rfl
  rw [hstale] at htip
  cases htip

end Clones

end Commits
end YdbSnippets
