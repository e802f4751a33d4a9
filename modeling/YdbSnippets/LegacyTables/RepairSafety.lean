import YdbSnippets.LegacyTables.RepairRun

/-!
# The batch never loses a table

Between two repairs every listed path holds a table with the rows it had at
the start: either its original, or a repaired copy whose original is at the
backup location or was dropped on purpose.  Within a repair the original is
never out of both places unless a drop was issued, and every drop was verified
first.
-/

namespace YdbSnippets
namespace LegacyTables

open Effects

section Batch

variable {R : Type}
variable {opt : Options} {paths : List GoString} {start : Tree R}

/-- Every listed table is where it was or at its backup location, unless a
drop of that backup was issued. -/
def TablesKept
    (opt : Options) (paths : List GoString) (start : Tree R) (s : Server R) : Prop :=
  ∀ path ∈ paths, ∀ t, start (resolve path) = some (.table t) →
    s.tree (resolve path) = some (.table t) ∨
      s.tree (backupLocation opt.backupSuffix (resolve path)) = some (.table t) ∨
      DropIssued (backupLocation opt.backupSuffix (resolve path)) s.log

/-- A drop of the table at `loc` in the tree `before` with the history
`earlier` behind it is a drop of the backup of a listed path; both renames
were reported and the path was then seen repaired, and it does hold a repaired
table with all the rows. -/
def DropVerified
    (opt : Options) (paths : List GoString) (start : Tree R)
    (earlier : List (Event R)) (before : Tree R) (loc : Location) : Prop :=
  ∃ path ∈ paths,
    loc = backupLocation opt.backupSuffix (resolve path) ∧
    Verified opt path earlier ∧
    ∃ t copy, start (resolve path) = some (.table t) ∧
      before (resolve path) = some (.table copy) ∧
      copy.rows = t.rows ∧ copy.status = .alreadyRepaired

/-- Every drop in the history was verified first. -/
def DropsVerified
    (opt : Options) (paths : List GoString) (start : Tree R)
    (log : List (Event R)) : Prop :=
  ∀ e earlier, e :: earlier <:+ log → ∀ loc, e.drops loc →
    DropVerified opt paths start earlier e.before loc

theorem DropsVerified.cons
    {log : List (Event R)} {e : Event R}
    (h : DropsVerified opt paths start log)
    (he : ∀ loc, e.drops loc → DropVerified opt paths start log e.before loc) :
    DropsVerified opt paths start (e :: log) := by
  intro e' earlier hsuffix loc hdrop
  rcases List.suffix_cons_iff.mp hsuffix with heq | hsuffix
  · cases heq
    exact he loc hdrop
  · exact h e' earlier hsuffix loc hdrop

theorem DropsVerified.quiet
    {log log' : List (Event R)}
    (h : DropsVerified opt paths start log) (hquiet : Quiet log log') :
    DropsVerified opt paths start log' := by
  induction hquiet with
  | refl => exact h
  | cons e hdrop _ ih => exact ih.cons (fun loc hloc => absurd hloc (hdrop loc))

/-- A verified drop may be submitted. -/
theorem DropsVerified.submitted
    {workingDir name : GoString} {s s' : Server R}
    (h : DropsVerified opt paths start s.log)
    (hsubmitted : Submitted (.dropTable workingDir name) s s')
    (hverified : DropVerified opt paths start s.log s.tree
      (resolve (joinPath workingDir name))) :
    DropsVerified opt paths start s'.log := by
  obtain ⟨e, ⟨req, hcall, hms⟩, hbefore, hlog⟩ := hsubmitted
  have hcons : DropsVerified opt paths start (e :: s.log) := by
    refine h.cons ?_
    rintro loc ⟨workingDir', name', ⟨req', hcall', hms'⟩, rfl⟩
    rw [hcall] at hcall'
    cases hcall'
    rw [hms] at hms'
    cases hms'
    rw [hbefore]
    exact hverified
  rcases hlog with hlog | ⟨p, hpoll, hlog⟩
  · rw [hlog]
    exact hcons
  · rw [hlog]
    exact hcons.cons (fun loc hloc => absurd hloc (hpoll.not_drops loc))

/-- Where the original of a repaired path is: at a backup location that no
listed path leads to, or dropped. -/
def BackedUp
    (opt : Options) (paths : List GoString) (s : Server R)
    (path : GoString) (t : Table R) : Prop :=
  (s.tree (backupLocation opt.backupSuffix (resolve path)) = some (.table t) ∧
      ∀ other ∈ paths, resolve other ≠ backupLocation opt.backupSuffix (resolve path)) ∨
    DropIssued (backupLocation opt.backupSuffix (resolve path)) s.log

/-- A listed path holds its original, or a repaired copy of it. -/
def Settled
    (opt : Options) (paths : List GoString) (start : Tree R) (s : Server R)
    (path : GoString) : Prop :=
  ∃ t, start (resolve path) = some (.table t) ∧
    (s.tree (resolve path) = some (.table t) ∨
      ∃ copy, s.tree (resolve path) = some (.table copy) ∧
        copy.rows = t.rows ∧ copy.status = .alreadyRepaired ∧
        BackedUp opt paths s path t)

/-- The state between two repairs of the batch. -/
structure Boundary
    (opt : Options) (paths : List GoString) (start : Tree R) (s : Server R) : Prop where
  settled : ∀ path ∈ paths, Settled opt paths start s path
  drops : DropsVerified opt paths start s.log

/-- What holds in every state of the batch. -/
structure Guarded
    (opt : Options) (paths : List GoString) (start : Tree R) (s : Server R) : Prop where
  kept : TablesKept opt paths start s
  drops : DropsVerified opt paths start s.log

theorem Settled.occupied
    {s : Server R} {path : GoString}
    (h : Settled opt paths start s path) :
    ∃ t, s.tree (resolve path) = some (.table t) := by
  obtain ⟨t, _, htree | ⟨copy, hcopy, _⟩⟩ := h
  · exact ⟨t, htree⟩
  · exact ⟨copy, hcopy⟩

/-- Between two repairs nothing is lost. -/
theorem Boundary.guarded
    {s : Server R}
    (h : Boundary opt paths start s) :
    Guarded opt paths start s := by
  refine ⟨?_, h.drops⟩
  intro path hmem t ht
  obtain ⟨t', ht', hcase⟩ := h.settled path hmem
  rw [ht] at ht'
  cases ht'
  rcases hcase with htree | ⟨_, _, _, _, ⟨hbackup, _⟩ | hdrop⟩
  · exact Or.inl htree
  · exact Or.inr (Or.inl hbackup)
  · exact Or.inr (Or.inr hdrop)

section OneRepair

variable {s s' : Server R} {path : GoString} {t : Table R}
variable {hfound : s.tree (resolve path) = some (.table t)}

/-- A state of a repair that changed something: the table under repair is the
original, and the locations of the other tables are as they were. -/
theorem Settled.original_of_needed
    (h : Settled opt paths start s path)
    (hfound : s.tree (resolve path) = some (.table t))
    (hneeded : t.status = .needsRepair) :
    start (resolve path) = some (.table t) := by
  obtain ⟨t', ht', htree | ⟨copy, hcopy, _, hrepaired, _⟩⟩ := h
  · rw [hfound] at htree
    cases htree
    exact ht'
  · rw [hfound] at hcopy
    cases hcopy
    rw [hneeded] at hrepaired
    cases hrepaired

/-- The paths that are not under repair stay settled when every occupied
location other than the path under repair is left alone. -/
theorem Settled.frame
    {other : GoString}
    (h : Settled opt paths start s other)
    (hmem : path ∈ paths)
    (hne : resolve other ≠ resolve path)
    (hframe : ∀ loc, s.tree loc ≠ none → loc ≠ resolve path → s'.tree loc = s.tree loc)
    (hlog : s.log <:+ s'.log) :
    Settled opt paths start s' other := by
  obtain ⟨u, hu, hcase⟩ := h
  refine ⟨u, hu, ?_⟩
  rcases hcase with htree | ⟨copy, hcopy, hrows, hrepaired, hbacked⟩
  · left
    rw [hframe _ (by simp [htree]) hne, htree]
  · right
    refine ⟨copy, ?_, hrows, hrepaired, ?_⟩
    · rw [hframe _ (by simp [hcopy]) hne, hcopy]
    · rcases hbacked with ⟨hbackup, hunlisted⟩ | hdrop
      · left
        refine ⟨?_, hunlisted⟩
        rw [hframe _ (by simp [hbackup]) (hunlisted path hmem).symm, hbackup]
      · exact Or.inr (hdrop.mono hlog)

/-- A settled path under repair, when nothing was changed. -/
theorem Settled.of_tree_eq
    {other : GoString}
    (h : Settled opt paths start s other)
    (htree : s'.tree = s.tree) (hlog : s.log <:+ s'.log) :
    Settled opt paths start s' other := by
  obtain ⟨u, hu, hcase⟩ := h
  refine ⟨u, hu, ?_⟩
  rw [htree]
  rcases hcase with h | ⟨copy, hcopy, hrows, hrepaired, hbacked⟩
  · exact Or.inl h
  · refine Or.inr ⟨copy, hcopy, hrows, hrepaired, ?_⟩
    rcases hbacked with ⟨hbackup, hunlisted⟩ | hdrop
    · exact Or.inl ⟨htree ▸ hbackup, hunlisted⟩
    · exact Or.inr (hdrop.mono hlog)

theorem RepairState.suffix
    {d : Course R} {log : List (Event R)}
    (h : RepairState opt path d log s') :
    log <:+ s'.log := by
  cases h with
  | inPhase _ hquiet => exact hquiet.suffix
  | dropping _ _ _ hquiet _ _ hsubmitted _ =>
      exact hquiet.suffix.trans hsubmitted.log_suffix

/-- In every state of a repair the occupied locations other than its own are
left alone. -/
theorem RepairState.frame
    {d : Course R} {log : List (Event R)} {loc : Location}
    (h : RepairState opt path d log s')
    (hocc : d.tree loc ≠ none) (hne : loc ≠ d.path) :
    s'.tree loc = d.tree loc := by
  cases h with
  | inPhase hphase _ => exact hphase.other hocc hne
  | dropping hrenamed _ _ _ _ _ _ hafter =>
      rcases hafter with h | h
      · rw [h, hrenamed.afterReplace_other hocc hne]
      · rw [h, hrenamed.afterDrop_other hocc hne]

/-- Every drop stays verified within a repair. -/
theorem RepairState.drops
    (hboundary : Boundary opt paths start s)
    (hmem : path ∈ paths)
    (h : RepairState opt path (repairCourse opt path s t hfound) s.log s') :
    DropsVerified opt paths start s'.log := by
  cases h with
  | inPhase _ hquiet => exact hboundary.drops.quiet hquiet
  | dropping hrenamed hrepaired hbefore hquiet hverified hloc hsubmitted _ =>
      refine (hboundary.drops.quiet hquiet).submitted hsubmitted ?_
      refine ⟨path, hmem, hloc, hverified, t, _, ?_, ?_, hrenamed.rows, hrepaired⟩
      · exact (hboundary.settled path hmem).original_of_needed hfound hrenamed.needed
      · rw [hbefore]
        exact hrenamed.afterReplace_path

/-- No state of a repair loses a table. -/
theorem RepairState.guarded
    (hboundary : Boundary opt paths start s)
    (hmem : path ∈ paths)
    (h : RepairState opt path (repairCourse opt path s t hfound) s.log s') :
    Guarded opt paths start s' := by
  refine ⟨?_, h.drops hboundary hmem⟩
  intro other hother u hu
  by_cases hne : resolve other = resolve path
  · -- the table under repair
    have hkept := hboundary.guarded.kept other hother u hu
    cases h with
    | inPhase hphase hquiet =>
        rcases hphase.unchanged_or_needed with htree | hneeded
        · rw [htree]
          rcases hkept with h | h | h
          · exact Or.inl h
          · exact Or.inr (Or.inl h)
          · exact Or.inr (Or.inr (h.mono hquiet.suffix))
        · have ht := (hboundary.settled path hmem).original_of_needed hfound hneeded
          rw [hne] at hu ⊢
          rw [ht] at hu
          cases hu
          rcases hphase.original with h | h
          · exact Or.inl h
          · exact Or.inr (Or.inl h)
    | dropping hrenamed _ _ _ _ hloc hsubmitted _ =>
        right
        right
        have hdrop := hsubmitted.dropIssued
        rw [hloc] at hdrop
        rw [hne]
        exact hdrop
  · -- a table that is not under repair
    have hsettled := (hboundary.settled other hother).frame hmem hne
      (fun loc hocc hloc => h.frame hocc hloc) h.suffix
    obtain ⟨u', hu', hcase⟩ := hsettled
    rw [hu] at hu'
    cases hu'
    rcases hcase with h | ⟨_, _, _, _, ⟨hbackup, _⟩ | hdrop⟩
    · exact Or.inl h
    · exact Or.inr (Or.inl hbackup)
    · exact Or.inr (Or.inr hdrop)

/-- After a repair that left the tree alone or ran to its end, every listed
path is settled again. -/
theorem Boundary.next
    {lossy : Bool} {r : Except GoError Bool}
    (hboundary : Boundary opt paths start s)
    (hmem : path ∈ paths)
    (hstate : RepairState opt path (repairCourse opt path s t hfound) s.log s')
    (houtcome : RepairOutcome lossy path (repairCourse opt path s t hfound) r s')
    (hgoesOn : ∀ e, r = .error e → e.isAlreadyRepaired = true) :
    Boundary opt paths start s' := by
  refine ⟨?_, hstate.drops hboundary hmem⟩
  have hunchanged : s'.tree = s.tree →
      ∀ other ∈ paths, Settled opt paths start s' other := by
    intro htree other hother
    exact (hboundary.settled other hother).of_tree_eq htree hstate.suffix
  cases r with
  | error e => exact hunchanged (houtcome.1 (hgoesOn e rfl))
  | ok dropped =>
      rcases houtcome with htree | ⟨copy, hrenamed, hrepaired, hend⟩
      · exact hunchanged htree
      intro other hother
      by_cases hne : resolve other = resolve path
      · have ht := (hboundary.settled path hmem).original_of_needed hfound hrenamed.needed
        refine ⟨t, by rw [hne, ht], Or.inr ⟨copy, ?_, hrenamed.rows, hrepaired, ?_⟩⟩
        · rw [hne]
          rcases hend with h | ⟨h, _⟩
          · rw [h]
            exact hrenamed.afterReplace_path
          · rw [h]
            exact hrenamed.afterDrop_path
        · unfold BackedUp
          rw [hne]
          rcases hend with h | ⟨_, hdrop⟩
          · left
            refine ⟨?_, ?_⟩
            · rw [h]
              exact hrenamed.afterReplace_backup
            · intro q hq heq
              -- the backup location was free, the listed paths were not
              obtain ⟨u, hu⟩ := (hboundary.settled q hq).occupied
              have hfree := hrenamed.backup_free
              rw [heq] at hu
              exact absurd (hfree.symm.trans hu) (by simp)
          · exact Or.inr hdrop
      · exact (hboundary.settled other hother).frame hmem hne
          (fun loc hocc hloc => hstate.frame hocc hloc) hstate.suffix

end OneRepair

/-- Printing a path changes nothing. -/
theorem Boundary.printed
    {s : Server R} {tree' : Tree R}
    (h : Boundary opt paths start s)
    (pending : Option TModifyScheme) (path : GoString)
    (htree : tree' = s.tree) :
    Boundary opt paths start
      ⟨tree', pending, ⟨s.tree, .printPath path, none⟩ :: s.log⟩ := by
  refine ⟨?_, h.drops.quiet (.cons _ ?_ .refl)⟩
  · intro other hother
    exact (h.settled other hother).of_tree_eq htree (List.suffix_cons _ _)
  · intro loc
    apply Event.not_drops_of_call
    intro req hcall
    cases hcall

/-- The loop of the batch keeps every table. -/
theorem safe_runFrom
    {lossy : Bool} {c : Client} {toLower : GoString → GoString}
    {total i : Nat} {todo : List GoString} {res : Result} {s : Server R}
    (htodo : ∀ path ∈ todo, path ∈ paths)
    (hboundary : Boundary opt paths start s) :
    Safe (Answers lossy) (Guarded opt paths start) (fun _ _ => True)
      (runFrom c toLower opt total i todo res) s := by
  induction todo generalizing i res s with
  | nil => exact ⟨hboundary.guarded, trivial⟩
  | cons path rest ih =>
      have hmem : path ∈ paths := htodo path (by simp)
      have hrest : ∀ path ∈ rest, path ∈ paths :=
        fun path hpath => htodo path (by simp [hpath])
      obtain ⟨t, hfound⟩ := (hboundary.settled path hmem).occupied
      apply Safe.bind
      apply Safe.attempt
      refine Safe.mono (fun s' h => h.guarded hboundary hmem) ?_
        (safe_repairOne (t := t) hfound)
      intro r s' hstate houtcome
      simp only [Safe.bindPost]
      cases r with
      | error e =>
          simp only
          split
          · next hskip =>
              refine ih hrest (hboundary.next hmem hstate houtcome ?_)
              intro e' he'
              cases he'
              exact hskip
          · exact ⟨hstate.guarded hboundary hmem, trivial⟩
      | ok dropped =>
          have hnext := hboundary.next hmem hstate houtcome (fun e he => by cases he)
          simp only
          apply Safe.bind
          apply Safe.attempt
          apply Safe.perform hnext.guarded
          intro r s'' hprint
          cases hprint with
          | raised _ _ text tree' heffect =>
              have htree : tree' = s'.tree := by
                rcases heffect with h | ⟨_, m, hm, _⟩
                · exact h
                · cases hm
              have hlast := hnext.printed none path htree
              exact ⟨hlast.guarded, hlast.guarded, trivial⟩
          | printed =>
              have hlast := hnext.printed s'.pending path rfl
              exact ⟨hlast.guarded, ih hrest hlast⟩

end Batch

/-- In every state of a repair run each listed table is at its own path or at
its backup location, unless a drop of that backup was issued; and every drop
was verified first. -/
theorem run_keeps_tables
    {R : Type}
    (c : Client) (toLower : GoString → GoString)
    (opt : Options) (paths : List GoString)
    (s s' : Server R)
    (rest : GoProgram (Option Result × Option GoError))
    (hlisted : ∀ path ∈ paths, ∃ t, s.tree (resolve path) = some (.table t))
    (hlog : s.log = [])
    (hreach : Reaches (Answers true) s (run c toLower opt paths) s' rest) :
    TablesKept opt.withDefaults paths s.tree s' ∧
      DropsVerified opt.withDefaults paths s.tree s'.log := by
  have hboundary : Boundary opt.withDefaults paths s.tree s := by
    refine ⟨?_, ?_⟩
    · intro path hmem
      obtain ⟨t, ht⟩ := hlisted path hmem
      exact ⟨t, ht, Or.inl ht⟩
    · intro e earlier hsuffix
      rw [hlog] at hsuffix
      exact absurd (List.suffix_nil.mp hsuffix) (by simp)
  have hsafe : Safe (Answers true) (Guarded opt.withDefaults paths s.tree)
      (fun _ _ => True) (run c toLower opt paths) s := by
    unfold run
    split
    · exact ⟨hboundary.guarded, trivial⟩
    · apply Safe.bind
      refine (safe_runFrom (fun _ hpath => hpath) hboundary).weaken ?_
      intro r s' hguarded _
      cases r with
      | ok res => exact ⟨hguarded, trivial⟩
      | error e => trivial
  have hguarded := hsafe.inv_of_reaches hreach
  exact ⟨hguarded.kept, hguarded.drops⟩

section OneTable

/-- A server with one legacy table, "/db/t". -/
def oneLegacyTable : Server Nat where
  tree := Tree.set (fun _ => none) ["db".toList, "t".toList]
    (some (.table ⟨0, 7, none⟩))
  pending := none
  log := []

/-- The repair of that table, with the backup dropped. -/
def dropBackupOptions : Options where
  poolKind := "ssd".toList
  tempPrefix := []
  backupSuffix := []
  dropBackup := true
  dryRun := false

theorem run_keeps_tables_one :
    TablesKept dropBackupOptions.withDefaults ["/db/t".toList] oneLegacyTable.tree
        ((run ⟨[], 0⟩ id dropBackupOptions ["/db/t".toList]).run
          (answer (fun _ => false)) oneLegacyTable).2 ∧
      DropsVerified dropBackupOptions.withDefaults ["/db/t".toList] oneLegacyTable.tree
        ((run ⟨[], 0⟩ id dropBackupOptions ["/db/t".toList]).run
          (answer (fun _ => false)) oneLegacyTable).2.log := by
  refine run_keeps_tables ⟨[], 0⟩ id dropBackupOptions ["/db/t".toList] oneLegacyTable _ _
    ?_ rfl (Program.run_completes (answer_answers _ _) _ _)
  intro path hpath
  rw [List.mem_singleton] at hpath
  subst hpath
  exact ⟨⟨0, 7, none⟩, rfl⟩

end OneTable

end LegacyTables
end YdbSnippets
