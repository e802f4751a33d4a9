import YdbSnippets.LegacyTables.Renaming
import YdbSnippets.LegacyTables.Repair

/-!
# One repair, step by step

`repairOne` executed against every answer the server may give.  In each state
reached the tree is one of the trees of the renaming, and the history shows
why a drop was issued.
-/

namespace YdbSnippets
namespace LegacyTables

open Effects Text

section History

variable {R : Type}

/-- The event is a describe of `path` that shows a repaired table. -/
def Event.showsRepaired (e : Event R) (path : GoString) : Prop :=
  e.describes path ∧
    ∃ resp, e.response = some resp ∧
      resp.getStatus = mStatusOK ∧ repairedIn path resp = .ok ()

/-- The event asks the server to drop the table at `loc`. -/
def Event.drops (e : Event R) (loc : Location) : Prop :=
  ∃ workingDir name, e.submits (.dropTable workingDir name) ∧
    resolve (joinPath workingDir name) = loc

/-- A drop of the table at `loc` was asked for. -/
def DropIssued (loc : Location) (log : List (Event R)) : Prop :=
  ∃ e ∈ log, e.drops loc

/-- `log'` is `log` with newer events, none of which asks for a drop. -/
inductive Quiet (log : List (Event R)) : List (Event R) → Prop
  | refl : Quiet log log
  | cons
      {log' : List (Event R)} (e : Event R)
      (hdrop : ∀ loc, ¬ e.drops loc)
      (hquiet : Quiet log log') :
      Quiet log (e :: log')

/-- The history right before the backup of `path` is dropped: a describe that
shows the path repaired, and before it both renames reported successful. -/
def Verified (opt : Options) (path : GoString) (log : List (Event R)) : Prop :=
  ∃ parent name look rest,
    splitPath path = .ok (parent, name) ∧
    log = look :: rest ∧
    look.showsRepaired path ∧
    ReportedOK (.moveTable path (joinPath parent (name ++ opt.backupSuffix))) rest ∧
    ReportedOK (.moveTable (joinPath parent (opt.tempPrefix ++ name)) path) rest

theorem Quiet.trans
    {log log' log'' : List (Event R)}
    (h : Quiet log log') (h' : Quiet log' log'') :
    Quiet log log'' := by
  induction h' with
  | refl => exact h
  | cons e hdrop _ ih => exact .cons e hdrop ih

theorem Quiet.suffix
    {log log' : List (Event R)}
    (h : Quiet log log') :
    log <:+ log' := by
  induction h with
  | refl => exact List.suffix_rfl
  | cons e _ _ ih => exact ih.trans (List.suffix_cons e _)

theorem Event.not_drops_of_call
    {e : Event R} {loc : Location}
    (h : ∀ req, e.call = .schemeOperation req →
      ∀ workingDir name, req.modifyScheme ≠ .dropTable workingDir name) :
    ¬ e.drops loc := by
  rintro ⟨workingDir, name, ⟨req, hcall, hms⟩, _⟩
  exact h req hcall workingDir name hms

theorem Looked.quiet
    {path : GoString} {s s' : Server R}
    (h : Looked path s s') :
    Quiet s.log s'.log := by
  obtain ⟨_, e, ⟨req, hcall, _⟩, _, hlog⟩ := h
  rw [hlog]
  refine .cons e (fun loc => Event.not_drops_of_call ?_) .refl
  intro req' hcall'
  rw [hcall] at hcall'
  cases hcall'

theorem Event.polls.not_drops
    {e : Event R} (loc : Location)
    (h : e.polls) :
    ¬ e.drops loc := by
  obtain ⟨req, hcall⟩ := h
  apply Event.not_drops_of_call
  intro req' hcall'
  rw [hcall] at hcall'
  cases hcall'

theorem Submitted.quiet
    {ms : TModifyScheme} {s s' : Server R}
    (h : Submitted ms s s')
    (hms : ∀ workingDir name, ms ≠ .dropTable workingDir name) :
    Quiet s.log s'.log := by
  obtain ⟨e, ⟨req, hcall, rfl⟩, _, hlog⟩ := h
  have hdrop : ∀ loc, ¬ e.drops loc := by
    intro loc
    apply Event.not_drops_of_call
    intro req' hcall'
    rw [hcall] at hcall'
    cases hcall'
    exact hms
  rcases hlog with hlog | ⟨p, hpoll, hlog⟩
  · rw [hlog]
    exact .cons e hdrop .refl
  · rw [hlog]
    exact .cons p hpoll.not_drops (.cons e hdrop .refl)

theorem DropIssued.mono
    {loc : Location} {log log' : List (Event R)}
    (h : DropIssued loc log) (hlog : log <:+ log') :
    DropIssued loc log' := by
  obtain ⟨e, hmem, hdrop⟩ := h
  exact ⟨e, hlog.mem hmem, hdrop⟩

theorem Submitted.dropIssued
    {workingDir name : GoString} {s s' : Server R}
    (h : Submitted (.dropTable workingDir name) s s') :
    DropIssued (resolve (joinPath workingDir name)) s'.log := by
  obtain ⟨e, hsub, _, hlog⟩ := h
  refine ⟨e, ?_, workingDir, name, hsub, rfl⟩
  rcases hlog with hlog | ⟨p, _, hlog⟩ <;>
    simp [hlog]

end History

/-! ## The steps of the repair -/

section Steps

variable {R : Type} {lossy : Bool}
variable {I : Server R → Prop}
variable {c : Client} {s : Server R}

/-- A submitted operation whose response is not looked at. -/
theorem safe_submit
    {Q : Except GoError Unit → Server R → Prop}
    {ms : TModifyScheme}
    (hs : I s)
    (herror : ∀ e s',
      Submitted ms s s' →
      Unreported lossy (some ms) s.tree s'.tree →
      e.isAlreadyRepaired = false →
      I s' ∧ Q (.error e) s')
    (hok : ∀ s',
      Submitted ms s s' →
      Applies ms s.tree s'.tree →
      ReportedOK ms s'.log →
      I s' ∧ Q (.ok ()) s') :
    Safe (Answers lossy) I Q
      ((c.schemeOperation ms).bind (fun _ => .pure ())) s := by
  apply Safe.bind
  apply safe_schemeOperation hs
  · exact herror
  · intro resp s' hsub happ hrep
    have hend := hok s' hsub happ hrep
    exact ⟨hend.1, hend⟩

/-- A describe that must succeed leaves the tree alone and tells the truth. -/
theorem safe_mustDescribeOK
    {Q : Except GoError TResponse → Server R → Prop}
    {path : GoString} {children : Bool}
    (hs : I s)
    (herror : ∀ e s',
      Looked path s s' → e.isAlreadyRepaired = false → I s' ∧ Q (.error e) s')
    (hok : ∀ resp look s',
      Looked path s s' →
      s'.log = look :: s.log → look.describes path → look.response = some resp →
      resp.getStatus = mStatusOK →
      (∀ t, s.tree (resolve path) = some (.table t) →
        ∃ td, resp.getTable = some td ∧ td.partitionConfig = t.partitionConfig) →
      I s' ∧ Q (.ok resp) s') :
    Safe (Answers lossy) I Q (c.mustDescribeOK path true children) s := by
  apply Safe.bind
  apply safe_describe hs
  · exact herror
  · intro resp req s' hlooked hreq hconfig hlog htrue
    by_cases hstatus : resp.getStatus = mStatusOK
    · have hend := hok resp _ s' hlooked hlog ⟨req, rfl, hreq⟩ rfl hstatus (by
        intro t ht
        have hshows := htrue hstatus
        unfold Shows at hshows
        rw [hreq, ht] at hshows
        obtain ⟨td, htd, hsame⟩ := hshows
        exact ⟨td, htd, hsame hconfig⟩)
      refine ⟨hend.1, ?_⟩
      simp only [Safe.bindPost, hstatus, ne_eq, not_true_eq_false, if_false]
      exact hend
    · have hend := herror
        (.schemeDescribeStatus path resp.getStatus resp.getErrorReason) s' hlooked rfl
      refine ⟨hend.1, ?_⟩
      simp only [Safe.bindPost, ne_eq, hstatus, not_false_eq_true, if_true]
      exact hend

/-- `assertNeedsRepair` only passes a table that needs the repair. -/
theorem safe_assertNeedsRepair
    {Q : Except GoError Unit → Server R → Prop}
    {path : GoString} {t : Table R}
    (hs : I s)
    (hfound : s.tree (resolve path) = some (.table t))
    (herror : ∀ e s', Looked path s s' → I s' ∧ Q (.error e) s')
    (hok : ∀ s', Looked path s s' → t.status = .needsRepair → I s' ∧ Q (.ok ()) s') :
    Safe (Answers lossy) I Q (assertNeedsRepair c path) s := by
  apply Safe.bind
  apply safe_mustDescribeOK hs
  · intro e s' hlooked _
    exact herror e s' hlooked
  · intro resp look s' hlooked _ _ _ _ htrue
    obtain ⟨td, htable, hconfig⟩ := htrue t hfound
    have hstatus : (classifyPartitionConfig td.partitionConfig).status = t.status := by
      rw [hconfig]
      rfl
    refine ⟨(herror (.transport []) s' hlooked).1, ?_⟩
    simp only [Safe.bindPost, needsRepairIn, htable, hstatus]
    cases hcase : t.status with
    | needsRepair => exact hok s' hlooked hcase
    | alreadyRepaired => exact herror _ s' hlooked
    | unsafeToRepair => exact herror _ s' hlooked

/-- `assertRepaired` only passes a repaired table. -/
theorem safe_assertRepaired
    {Q : Except GoError Unit → Server R → Prop}
    {path : GoString}
    (hs : I s)
    (herror : ∀ e s',
      Looked path s s' → e.isAlreadyRepaired = false → I s' ∧ Q (.error e) s')
    (hok : ∀ look s',
      Looked path s s' →
      s'.log = look :: s.log → look.showsRepaired path →
      (∀ t, s.tree (resolve path) = some (.table t) → t.status = .alreadyRepaired) →
      I s' ∧ Q (.ok ()) s') :
    Safe (Answers lossy) I Q (assertRepaired c path) s := by
  apply Safe.bind
  apply safe_mustDescribeOK hs
  · exact herror
  · intro resp look s' hlooked hlog hdescribes hresponse hstatus htrue
    refine ⟨(herror (.transport []) s' hlooked rfl).1, ?_⟩
    simp only [Safe.bindPost]
    cases hrep : repairedIn path resp with
    | error e =>
        refine herror e s' hlooked ?_
        unfold repairedIn at hrep
        split at hrep
        · cases hrep
          rfl
        · simp only at hrep
          split_ifs at hrep
          cases hrep
          rfl
    | ok u =>
        refine hok look s' hlooked hlog ⟨hdescribes, resp, hresponse, hstatus, hrep⟩ ?_
        intro t ht
        obtain ⟨td, htable, hconfig⟩ := htrue t ht
        have hstatus : (classifyPartitionConfig td.partitionConfig).status = t.status := by
          rw [hconfig]
          rfl
        simp only [repairedIn, htable, hstatus] at hrep
        split_ifs at hrep with hnot
        exact not_not.mp hnot

/-- Looking for helper paths changes nothing. -/
theorem safe_refuseExisting
    {Q : Except GoError Unit → Server R → Prop}
    {toLower : GoString → GoString} {path : GoString} {extras : List GoString}
    (hs : I s)
    (hend : ∀ s', s'.tree = s.tree → Quiet s.log s'.log →
      I s' ∧ (∀ e, Q (.error e) s') ∧ Q (.ok ()) s') :
    Safe (Answers lossy) I Q (refuseExisting c toLower path extras) s := by
  induction extras generalizing s with
  | nil =>
      have hnow := hend s rfl .refl
      exact ⟨hs, hnow.2.2⟩
  | cons extra rest ih =>
      apply Safe.bind
      apply Safe.bind
      apply safe_describe hs
      · intro e s' hlooked _
        have hnow := hend s' hlooked.1 hlooked.quiet
        exact ⟨hnow.1, hnow.2.1 e⟩
      · intro resp req s' hlooked _ _ _ _
        have hnow := hend s' hlooked.1 hlooked.quiet
        refine ⟨hnow.1, ?_⟩
        simp only [Safe.bindPost]
        cases Client.pathExistsIn toLower extra resp with
        | error e => exact ⟨hnow.1, hnow.2.1 e⟩
        | ok found =>
            refine ⟨hnow.1, ?_⟩
            cases found with
            | true => exact ⟨hnow.1, hnow.2.1 _⟩
            | false =>
                refine ih hnow.1 ?_
                intro s'' htree hquiet
                exact hend s'' (htree.trans hlooked.1) (hlooked.quiet.trans hquiet)

end Steps

/-! ## The whole repair -/

section Whole

variable {R : Type}

/-- The trees and the history in which a repair of `path` may be cut. -/
inductive RepairState
    (opt : Options) (path : GoString) (d : Course R) (log : List (Event R)) :
    Server R → Prop
  | inPhase
      {s : Server R}
      (hphase : d.Phase s.tree)
      (hquiet : Quiet log s.log) :
      RepairState opt path d log s
  | dropping
      {s s' : Server R} {workingDir name : GoString} {copy : Table R}
      (hrenamed : d.Renamed copy)
      (hrepaired : copy.status = .alreadyRepaired)
      (hbefore : s.tree = d.afterReplace copy)
      (hquiet : Quiet log s.log)
      (hverified : Verified opt path s.log)
      (hloc : resolve (joinPath workingDir name) = d.backup)
      (hsubmitted : Submitted (.dropTable workingDir name) s s')
      (hafter : s'.tree = d.afterReplace copy ∨ s'.tree = d.afterDrop copy) :
      RepairState opt path d log s'

/-- How a repair of `path` may end. -/
def RepairOutcome
    (lossy : Bool) (path : GoString) (d : Course R) :
    Except GoError Bool → Server R → Prop
  | .ok _, s =>
      s.tree = d.tree ∨
        ∃ copy, d.Renamed copy ∧ copy.status = .alreadyRepaired ∧
          (s.tree = d.afterReplace copy ∨
            (s.tree = d.afterDrop copy ∧ DropIssued d.backup s.log))
  | .error e, s =>
      (e.isAlreadyRepaired = true → s.tree = d.tree) ∧
      (lossy = false →
        (∃ t, s.tree d.path = some (.table t) ∧ t.rows = d.original.rows) ∨
          ((∃ cause, e = .repairStep path .renameTempToOriginal cause) ∧
            ∃ copy, d.Renamed copy ∧ s.tree = d.afterBackup copy))

/-- An error after the tree began to change, in a phase that keeps a table
with the rows at the path. -/
theorem RepairOutcome.error_of_rows
    {lossy : Bool} {path : GoString} {d : Course R}
    {e : GoError} {s : Server R} {t : Table R}
    (he : e.isAlreadyRepaired = false)
    (hpath : s.tree d.path = some (.table t)) (hrows : t.rows = d.original.rows) :
    RepairOutcome lossy path d (.error e) s := by
  refine ⟨?_, fun _ => Or.inl ⟨t, hpath, hrows⟩⟩
  intro htrue
  rw [he] at htrue
  cases htrue

/-- An error before the tree began to change. -/
theorem RepairOutcome.error_of_start
    {lossy : Bool} {path : GoString} {d : Course R}
    {e : GoError} {s : Server R}
    (htree : s.tree = d.tree) :
    RepairOutcome lossy path d (.error e) s := by
  refine ⟨fun _ => htree, fun _ => Or.inl ⟨d.original, ?_, rfl⟩⟩
  rw [htree, d.found]

/-- The course of a repair of `path` with the given options. -/
def repairCourse
    (opt : Options) (path : GoString) (s : Server R) (t : Table R)
    (hfound : s.tree (resolve path) = some (.table t)) : Course R where
  tree := s.tree
  path := resolve path
  temp := tempLocation opt.tempPrefix (resolve path)
  backup := backupLocation opt.backupSuffix (resolve path)
  original := t
  found := hfound

/-- The drop of the backup, once both renames were reported and the path was
seen repaired. -/
theorem safe_dropBackup
    {lossy : Bool} {c : Client} {opt : Options} {path backupPath : GoString}
    {d : Course R} {log : List (Event R)} {s : Server R} {copy : Table R}
    (hrenamed : d.Renamed copy)
    (hrepaired : copy.status = .alreadyRepaired)
    (htree : s.tree = d.afterReplace copy)
    (hquiet : Quiet log s.log)
    (hverified : Verified opt path s.log)
    (hloc : resolve backupPath = d.backup) :
    Safe (Answers lossy) (RepairState opt path d log)
      (fun r s =>
        RepairOutcome lossy path d
          (r.map (fun _ => true) |>.mapError (.repairStep path .dropBackup)) s)
      (c.dropTable backupPath) s := by
  have hnow : RepairState opt path d log s :=
    .inPhase (htree ▸ .replaced copy hrenamed) hquiet
  unfold Client.dropTable
  cases hsplit : splitPath backupPath with
  | error e =>
      refine ⟨hnow, ?_⟩
      refine RepairOutcome.error_of_rows ?_ (htree ▸ hrenamed.afterReplace_path) hrenamed.rows
      unfold splitPath at hsplit
      simp only at hsplit
      split_ifs at hsplit
      · cases hsplit
        rfl
      · split at hsplit
        · cases hsplit
          rfl
        · split_ifs at hsplit
          cases hsplit
          rfl
  | ok parts =>
      obtain ⟨parent, name⟩ := parts
      have htarget : resolve (joinPath parent name) = d.backup := by
        rw [resolve_splitPath hsplit, hloc]
      refine safe_submit hnow ?_ ?_
      · intro e s' hsub heffect he
        have hafter : s'.tree = d.afterReplace copy ∨ s'.tree = d.afterDrop copy := by
          rcases heffect with h | ⟨_, ms, hms, happ⟩
          · exact Or.inl (h.trans htree)
          · cases hms
            rw [htree] at happ
            exact Or.inr (Course.dropped_of_applies htarget happ)
        refine ⟨.dropping hrenamed hrepaired htree hquiet hverified htarget hsub hafter, ?_⟩
        refine RepairOutcome.error_of_rows (t := copy) he ?_ hrenamed.rows
        rcases hafter with h | h
        · rw [h, hrenamed.afterReplace_path]
        · rw [h, hrenamed.afterDrop_path]
      · intro s' hsub happ _
        rw [htree] at happ
        have hdrop := Course.dropped_of_applies htarget happ
        refine ⟨.dropping hrenamed hrepaired htree hquiet hverified htarget hsub
          (Or.inr hdrop), ?_⟩
        refine Or.inr ⟨copy, hrenamed, hrepaired, Or.inr ⟨hdrop, ?_⟩⟩
        rw [← htarget]
        exact hsub.dropIssued

section Stages

variable {lossy : Bool} {c : Client} {opt : Options} {path : GoString}
variable {d : Course R} {log : List (Event R)} {s : Server R} {copy : Table R}
variable {next : Unit → GoProgram Bool}

/-- The copy. -/
theorem safe_copyStage
    {parent tempName : GoString}
    (hpath : resolve path = d.path)
    (htemp : resolve (joinPath parent tempName) = d.temp)
    (hneeded : d.original.status = .needsRepair)
    (htree : s.tree = d.tree) (hquiet : Quiet log s.log)
    (hnext : ∀ copy s',
      d.Copied copy → s'.tree = d.afterCopy copy → Quiet log s'.log →
      Safe (Answers lossy) (RepairState opt path d log)
        (RepairOutcome lossy path d) (next ()) s') :
    Safe (Answers lossy) (RepairState opt path d log) (RepairOutcome lossy path d)
      ((wrapError (.repairStep path .copy)
        (c.copyWithStorage path parent tempName opt.poolKind)).bind next) s := by
  apply Safe.bind
  apply safe_wrapError
  refine safe_submit (.inPhase (htree ▸ .start) hquiet) ?_ ?_
  · intro e s' hsub heffect he
    have hquiet' := hquiet.trans (hsub.quiet (fun _ _ h => by cases h))
    rcases heffect with h | ⟨_, ms, hms, happ⟩
    · rw [htree] at h
      exact ⟨.inPhase (h ▸ .start) hquiet', RepairOutcome.error_of_start h⟩
    · cases hms
      rw [htree] at happ
      obtain ⟨copy, hcopied, h⟩ := Course.copied_of_applies hneeded hpath htemp happ
      exact ⟨.inPhase (h ▸ .copied copy hcopied) hquiet',
        RepairOutcome.error_of_rows he (h ▸ hcopied.afterCopy_path) rfl⟩
  · intro s' hsub happ _
    have hquiet' := hquiet.trans (hsub.quiet (fun _ _ h => by cases h))
    rw [htree] at happ
    obtain ⟨copy, hcopied, h⟩ := Course.copied_of_applies hneeded hpath htemp happ
    exact ⟨.inPhase (h ▸ .copied copy hcopied) hquiet',
      hnext copy s' hcopied h hquiet'⟩

/-- The check of the copy. -/
theorem safe_checkStage
    {tempPath : GoString}
    (htemp : resolve tempPath = d.temp)
    (hcopied : d.Copied copy)
    (htree : s.tree = d.afterCopy copy) (hquiet : Quiet log s.log)
    (hnext : ∀ s',
      copy.status = .alreadyRepaired →
      s'.tree = d.afterCopy copy → Quiet log s'.log →
      Safe (Answers lossy) (RepairState opt path d log)
        (RepairOutcome lossy path d) (next ()) s') :
    Safe (Answers lossy) (RepairState opt path d log) (RepairOutcome lossy path d)
      ((wrapError (.repairStep path .tempCopyCheck)
        (assertRepaired c tempPath)).bind next) s := by
  apply Safe.bind
  apply safe_wrapError
  refine safe_assertRepaired (.inPhase (htree ▸ .copied copy hcopied) hquiet) ?_ ?_
  · intro e s' hlooked he
    have h := hlooked.1.trans htree
    exact ⟨.inPhase (h ▸ .copied copy hcopied) (hquiet.trans hlooked.quiet),
      RepairOutcome.error_of_rows he (h ▸ hcopied.afterCopy_path) rfl⟩
  · intro look s' hlooked _ _ hstatus
    have h := hlooked.1.trans htree
    have hrepaired : copy.status = .alreadyRepaired := by
      apply hstatus
      rw [htemp, htree, Course.afterCopy_temp]
    exact ⟨.inPhase (h ▸ .copied copy hcopied) (hquiet.trans hlooked.quiet),
      hnext s' hrepaired h (hquiet.trans hlooked.quiet)⟩

/-- The rename of the original to the backup. -/
theorem safe_backupStage
    {backupPath : GoString}
    (hpath : resolve path = d.path)
    (hbackup : resolve backupPath = d.backup)
    (hcopied : d.Copied copy)
    (htree : s.tree = d.afterCopy copy) (hquiet : Quiet log s.log)
    (hnext : ∀ s',
      d.Renamed copy → s'.tree = d.afterBackup copy → Quiet log s'.log →
      ReportedOK (.moveTable path backupPath) s'.log →
      Safe (Answers lossy) (RepairState opt path d log)
        (RepairOutcome lossy path d) (next ()) s') :
    Safe (Answers lossy) (RepairState opt path d log) (RepairOutcome lossy path d)
      ((wrapError (.repairStep path .renameToBackup)
        (c.moveTable path backupPath)).bind next) s := by
  apply Safe.bind
  apply safe_wrapError
  refine safe_submit (.inPhase (htree ▸ .copied copy hcopied) hquiet) ?_ ?_
  · intro e s' hsub heffect he
    have hquiet' := hquiet.trans (hsub.quiet (fun _ _ h => by cases h))
    have hfirst : (GoError.repairStep path .renameToBackup e).isAlreadyRepaired = false := he
    rcases heffect with h | ⟨hlossy, ms, hms, happ⟩
    · have h := h.trans htree
      exact ⟨.inPhase (h ▸ .copied copy hcopied) hquiet',
        RepairOutcome.error_of_rows hfirst (h ▸ hcopied.afterCopy_path) rfl⟩
    · cases hms
      rw [htree] at happ
      obtain ⟨hrenamed, h⟩ := Course.renamed_of_applies hcopied hpath hbackup happ
      refine ⟨.inPhase (h ▸ .backedUp copy hrenamed) hquiet', ?_, ?_⟩
      · intro htrue
        rw [hfirst] at htrue
        cases htrue
      · intro hnot
        rw [hnot] at hlossy
        cases hlossy
  · intro s' hsub happ hreported
    have hquiet' := hquiet.trans (hsub.quiet (fun _ _ h => by cases h))
    rw [htree] at happ
    obtain ⟨hrenamed, h⟩ := Course.renamed_of_applies hcopied hpath hbackup happ
    exact ⟨.inPhase (h ▸ .backedUp copy hrenamed) hquiet',
      hnext s' hrenamed h hquiet' hreported⟩

/-- The rename of the copy into place. -/
theorem safe_replaceStage
    {tempPath : GoString} {ms : TModifyScheme}
    (hpath : resolve path = d.path)
    (htemp : resolve tempPath = d.temp)
    (hrenamed : d.Renamed copy)
    (htree : s.tree = d.afterBackup copy) (hquiet : Quiet log s.log)
    (hreported : ReportedOK ms s.log)
    (hnext : ∀ s',
      s'.tree = d.afterReplace copy → Quiet log s'.log →
      ReportedOK ms s'.log → ReportedOK (.moveTable tempPath path) s'.log →
      Safe (Answers lossy) (RepairState opt path d log)
        (RepairOutcome lossy path d) (next ()) s') :
    Safe (Answers lossy) (RepairState opt path d log) (RepairOutcome lossy path d)
      ((wrapError (.repairStep path .renameTempToOriginal)
        (c.moveTable tempPath path)).bind next) s := by
  apply Safe.bind
  apply safe_wrapError
  refine safe_submit (.inPhase (htree ▸ .backedUp copy hrenamed) hquiet) ?_ ?_
  · intro e s' hsub heffect he
    have hquiet' := hquiet.trans (hsub.quiet (fun _ _ h => by cases h))
    have hsecond :
        (GoError.repairStep path .renameTempToOriginal e).isAlreadyRepaired = false := he
    rcases heffect with h | ⟨_, ms, hms, happ⟩
    · have h := h.trans htree
      refine ⟨.inPhase (h ▸ .backedUp copy hrenamed) hquiet', ?_, ?_⟩
      · intro htrue
        rw [hsecond] at htrue
        cases htrue
      · intro _
        exact Or.inr ⟨⟨e, rfl⟩, copy, hrenamed, h⟩
    · cases hms
      rw [htree] at happ
      have h := Course.replaced_of_applies hrenamed htemp hpath happ
      exact ⟨.inPhase (h ▸ .replaced copy hrenamed) hquiet',
        RepairOutcome.error_of_rows hsecond (h ▸ hrenamed.afterReplace_path) hrenamed.rows⟩
  · intro s' hsub happ hreported'
    have hquiet' := hquiet.trans (hsub.quiet (fun _ _ h => by cases h))
    rw [htree] at happ
    have h := Course.replaced_of_applies hrenamed htemp hpath happ
    exact ⟨.inPhase (h ▸ .replaced copy hrenamed) hquiet',
      hnext s' h hquiet' (hreported.mono hsub.log_suffix) hreported'⟩

/-- The final check and the drop. -/
theorem safe_finalStage
    {parent name : GoString}
    (hsplit : splitPath path = .ok (parent, name))
    (hbackup : resolve (joinPath parent (name ++ opt.backupSuffix)) = d.backup)
    (hrenamed : d.Renamed copy) (hrepaired : copy.status = .alreadyRepaired)
    (htree : s.tree = d.afterReplace copy) (hquiet : Quiet log s.log)
    (hfirst : ReportedOK
      (.moveTable path (joinPath parent (name ++ opt.backupSuffix))) s.log)
    (hsecond : ReportedOK
      (.moveTable (joinPath parent (opt.tempPrefix ++ name)) path) s.log) :
    Safe (Answers lossy) (RepairState opt path d log) (RepairOutcome lossy path d)
      ((wrapError (.repairStep path .postCheck) (assertRepaired c path)).bind
        (fun _ =>
          if opt.dropBackup then
            (wrapError (.repairStep path .dropBackup)
              (c.dropTable (joinPath parent (name ++ opt.backupSuffix)))).bind
              (fun _ => .pure true)
          else
            .pure false)) s := by
  apply Safe.bind
  apply safe_wrapError
  refine safe_assertRepaired (.inPhase (htree ▸ .replaced copy hrenamed) hquiet) ?_ ?_
  · intro e s' hlooked he
    have h := hlooked.1.trans htree
    exact ⟨.inPhase (h ▸ .replaced copy hrenamed) (hquiet.trans hlooked.quiet),
      RepairOutcome.error_of_rows he (h ▸ hrenamed.afterReplace_path) hrenamed.rows⟩
  · intro look s' hlooked hlog hshows _
    have h := hlooked.1.trans htree
    have hquiet' := hquiet.trans hlooked.quiet
    have hnow : RepairState opt path d log s' :=
      .inPhase (h ▸ .replaced copy hrenamed) hquiet'
    refine ⟨hnow, ?_⟩
    simp only [Safe.bindPost, Except.mapError]
    split
    · have hverified : Verified opt path s'.log :=
        ⟨parent, name, look, s.log, hsplit, hlog, hshows, hfirst, hsecond⟩
      apply Safe.bind
      apply safe_wrapError
      refine (safe_dropBackup hrenamed hrepaired h hquiet' hverified hbackup).weaken ?_
      intro r s'' hstate houtcome
      cases r with
      | ok u => exact ⟨hstate, houtcome⟩
      | error e => exact houtcome
    · exact ⟨hnow, Or.inr ⟨copy, hrenamed, hrepaired, Or.inl h⟩⟩

end Stages

/-- Every state in which a repair of an existing table may be cut, and every
way it may end. -/
theorem safe_repairOne
    {lossy : Bool} {c : Client} {toLower : GoString → GoString}
    {opt : Options} {path : GoString} {s : Server R} {t : Table R}
    (hfound : s.tree (resolve path) = some (.table t)) :
    Safe (Answers lossy)
      (RepairState opt path (repairCourse opt path s t hfound) s.log)
      (RepairOutcome lossy path (repairCourse opt path s t hfound))
      (repairOne c toLower path opt) s := by
  set d := repairCourse opt path s t hfound with hd
  have hstart : ∀ s' : Server R, s'.tree = s.tree → Quiet s.log s'.log →
      RepairState opt path d s.log s' := by
    intro s' htree hquiet
    exact .inPhase (htree ▸ .start) hquiet
  unfold repairOne
  apply Safe.bind
  refine safe_assertNeedsRepair (hstart s rfl .refl) hfound ?_ ?_
  · intro e s' hlooked
    exact ⟨hstart s' hlooked.1 hlooked.quiet, RepairOutcome.error_of_start hlooked.1⟩
  intro s1 hlooked hneeded
  refine ⟨hstart s1 hlooked.1 hlooked.quiet, ?_⟩
  apply Safe.bind
  cases hsplit : splitPath path with
  | error e =>
      exact ⟨hstart s1 hlooked.1 hlooked.quiet, RepairOutcome.error_of_start hlooked.1⟩
  | ok parts =>
      obtain ⟨parent, name⟩ := parts
      refine ⟨hstart s1 hlooked.1 hlooked.quiet, ?_⟩
      have htemp : resolve (joinPath parent (opt.tempPrefix ++ name)) = d.temp :=
        resolve_joinPath (fun name => opt.tempPrefix ++ name) hsplit
      have hbackup : resolve (joinPath parent (name ++ opt.backupSuffix)) = d.backup :=
        resolve_joinPath (fun name => name ++ opt.backupSuffix) hsplit
      apply Safe.bind
      refine safe_refuseExisting (hstart s1 hlooked.1 hlooked.quiet) ?_
      intro s2 htree2 hquiet2
      have htree := htree2.trans hlooked.1
      have hquiet := hlooked.quiet.trans hquiet2
      refine ⟨hstart s2 htree hquiet, fun e => RepairOutcome.error_of_start htree, ?_⟩
      simp only [Safe.bindPost]
      split
      · exact ⟨hstart s2 htree hquiet, Or.inl htree⟩
      · refine safe_copyStage rfl htemp hneeded htree hquiet ?_
        intro copy s3 hcopied htree3 hquiet3
        refine safe_checkStage htemp hcopied htree3 hquiet3 ?_
        intro s4 hrepaired htree4 hquiet4
        refine safe_backupStage rfl hbackup hcopied htree4 hquiet4 ?_
        intro s5 hrenamed htree5 hquiet5 hfirst
        refine safe_replaceStage rfl htemp hrenamed htree5 hquiet5 hfirst ?_
        intro s6 htree6 hquiet6 hfirst6 hsecond6
        exact safe_finalStage hsplit hbackup hrenamed hrepaired htree6 hquiet6
          hfirst6 hsecond6

end Whole

end LegacyTables
end YdbSnippets
