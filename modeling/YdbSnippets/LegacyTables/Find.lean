import YdbSnippets.LegacyTables.Classify
import YdbSnippets.LegacyTables.Client
import YdbSnippets.LegacyTables.TablesFile
import YdbSnippets.Lists.Sorting
import YdbSnippets.Lists.Worklist
import Mathlib.Data.Char
import Mathlib.Data.List.Lex

/-!
# Finding the legacy tables

`internal/find/find.go` walks the scheme tree and writes a line for every table
that needs the repair.
-/

namespace YdbSnippets
namespace LegacyTables

open Effects Text Sorting

section Describing

/-- The outside of a walk: describes are answered, and nothing else is asked. -/
def answersHandler (answers : GoString → Except GoError TResponse) :
    Handler stub GoError Unit
  | (), .schemeDescribe req => (answers req.path, ())
  | (), .schemeOperation _ => (.error (.transport []), ())
  | (), .schemeOperationStatus _ => (.error (.transport []), ())
  | (), .printPath _ => (.ok (), ())

variable (c : Client) (answers : GoString → Except GoError TResponse)

/-- `c.MustDescribeOK(ctx, path, true, true)` -/
def describeOutcome (path : GoString) : Except GoError TResponse :=
  ((c.mustDescribeOK path true true).run (answersHandler answers) ()).1

/-- The description of a path, if it is described without an error. -/
def description (path : GoString) : Option TPathDescription :=
  match answers path with
  | .error _ => none
  | .ok resp => if resp.getStatus = mStatusOK then resp.pathDescription else none

end Describing

section Walk

/-- `find.Options` -/
structure FindOptions where
  startPath : GoString
  includeSys : Bool
deriving DecidableEq, Repr

/-- `strings.TrimRight(opt.StartPath, "/")` -/
def FindOptions.start (opt : FindOptions) : GoString :=
  opt.startPath.rdropWhile (· == '/')

/-- `TDirEntry.GetName` -/
def TDirEntry.getName (e : TDirEntry) : GoString :=
  e.name.getD []

/-- What the visit of one path adds to the result, to the output and to the
queue. -/
structure Visit where
  tablesChecked : Nat := 0
  legacy : Nat := 0
  errors : Nat := 0
  lines : List GoString := []
  next : List GoString := []
deriving DecidableEq, Repr

/-- The children that are looked at. -/
def listedChildren (opt : FindOptions) (pd : TPathDescription) : List TDirEntry :=
  pd.children.filter fun ch =>
    decide (ch.getName ≠ [] ∧ (opt.includeSys = true ∨ ch.getName.head? ≠ some '.'))

/-- The paths appended to the queue: tables as they are listed, and then the
directories in order. -/
def childPaths (opt : FindOptions) (path : GoString) (pd : TPathDescription) : List GoString :=
  let children := listedChildren opt pd
  let pathOf := fun ch : TDirEntry => joinPath path ch.getName
  let next := (children.filter fun ch => isDirectoryPathType ch.getPathType).map pathOf
  let tables := (children.filter fun ch =>
    !isDirectoryPathType ch.getPathType && isTablePathType ch.getPathType).map pathOf
  tables ++ sortedBy id next

/-- The body of the loop, from the outcome of the describe. -/
def visit (opt : FindOptions) (start path : GoString) : Except GoError TResponse → Visit
  | .error _ => { errors := 1 }
  | .ok resp =>
      match resp.pathDescription with
      | none => { errors := 1 }
      | some pd =>
          if isTablePathType pd.selfType then
            match pd.classify.status with
            | .needsRepair =>
                { tablesChecked := 1, legacy := 1
                  lines := [legacyLine path pd.classify.reason.toList] }
            | _ => { tablesChecked := 1 }
          else if isDirectoryPathType pd.selfType = false ∧ path ≠ start then {}
          else { next := childPaths opt path pd }

/-- The variables of `Run`; `seen` holds the described paths in their order. -/
structure FindState where
  queue : List GoString
  seen : List GoString
  lines : List GoString
  tablesChecked : Nat
  legacy : Nat
  errors : Nat
deriving DecidableEq, Repr

variable (c : Client) (answers : GoString → Except GoError TResponse)
  (opt : FindOptions) (start : GoString)

/-- The visit of a path. -/
def visitOf (path : GoString) : Visit :=
  visit opt start path (describeOutcome c answers path)

/-- One turn of the loop. -/
def findStep (s : FindState) : FindState :=
  match s.queue with
  | [] => s
  | path :: rest =>
      if path ∈ s.seen then { s with queue := rest }
      else
        let v := visitOf c answers opt start path
        { queue := rest ++ v.next
          seen := s.seen ++ [path]
          lines := s.lines ++ v.lines
          tablesChecked := s.tablesChecked + v.tablesChecked
          legacy := s.legacy + v.legacy
          errors := s.errors + v.errors }

/-- The loop, for at most this many turns. -/
def findLoop : Nat → FindState → Option FindState
  | 0, s => if s.queue = [] then some s else none
  | fuel + 1, s =>
      if s.queue = [] then some s else findLoop fuel (findStep c answers opt start s)

/-- The error `Run` returns before it asks for anything. -/
inductive FindError
  | emptyStartPath
deriving DecidableEq, Repr

/-- `find.Run`, or `none` if the loop is still running. -/
def findRun (fuel : Nat) : Except FindError (Option FindState) :=
  if opt.start = [] then .error .emptyStartPath
  else .ok (findLoop c answers opt opt.start fuel ⟨[opt.start], [], [], 0, 0, 0⟩)

variable {c answers opt start} in
/-- A loop that is over stays so with more turns. -/
theorem findLoop_mono
    {fuel fuel' : Nat} {s s' : FindState} (hle : fuel ≤ fuel')
    (h : findLoop c answers opt start fuel s = some s') :
    findLoop c answers opt start fuel' s = some s' := by
  induction fuel generalizing s fuel' with
  | zero =>
      rw [findLoop] at h
      split_ifs at h with hqueue
      cases fuel' <;> rwa [findLoop, if_pos hqueue]
  | succ fuel ih =>
      obtain ⟨fuel', rfl⟩ := Nat.exists_eq_add_of_le' (Nat.le_trans (Nat.le_add_left 1 fuel) hle)
      rw [findLoop] at h ⊢
      split_ifs at h ⊢ with hqueue
      · exact h
      · exact ih (Nat.le_of_succ_le_succ hle) h

/-- What is written to the output. -/
def FindState.output (s : FindState) : GoString :=
  s.lines.flatMap fun line => line ++ ['\n']

end Walk

section Outcomes

/-- What `MustDescribeOK` makes of an answer. -/
theorem describeOutcome_eq
    (c : Client) (answers : GoString → Except GoError TResponse) (path : GoString) :
    describeOutcome c answers path =
      match answers path with
      | .error e => .error (.schemeDescribe path e)
      | .ok resp =>
          if resp.getStatus ≠ mStatusOK then
            .error (.schemeDescribeStatus path resp.getStatus resp.getErrorReason)
          else .ok resp := by
  unfold describeOutcome Client.mustDescribeOK Client.describe wrapError
  cases hanswer : answers path with
  | error e =>
      simp [Program.perform, Program.tryCatch, Program.bind, Program.run, answersHandler,
        hanswer, Program.ofExcept]
  | ok resp =>
      by_cases hstatus : resp.getStatus = mStatusOK
      · simp [Program.perform, Program.tryCatch, Program.bind, Program.run, answersHandler,
          hanswer, Program.ofExcept, hstatus]
      · simp [Program.perform, Program.tryCatch, Program.bind, Program.run, answersHandler,
          hanswer, Program.ofExcept, hstatus]

/-- A visit without a description counts as an error; otherwise it depends on the
type of the object. -/
theorem visitOf_eq
    (c : Client) (answers : GoString → Except GoError TResponse) (opt : FindOptions)
    (start path : GoString) :
    visitOf c answers opt start path =
      match description answers path with
      | none => { errors := 1 }
      | some pd =>
          if isTablePathType pd.selfType then
            match pd.classify.status with
            | .needsRepair =>
                { tablesChecked := 1, legacy := 1
                  lines := [legacyLine path pd.classify.reason.toList] }
            | _ => { tablesChecked := 1 }
          else if isDirectoryPathType pd.selfType = false ∧ path ≠ start then {}
          else { next := childPaths opt path pd } := by
  unfold visitOf description
  rw [describeOutcome_eq]
  cases hanswer : answers path with
  | error e => rfl
  | ok resp =>
      by_cases hstatus : resp.getStatus = mStatusOK
      · cases hpd : resp.pathDescription with
        | none => simp [hstatus, visit, hpd]
        | some pd => simp only [hstatus, ne_eq, not_true_eq_false, if_false, if_true, visit, hpd]
      · simp [hstatus, visit]

end Outcomes

section Reports

variable {c : Client} {answers : GoString → Except GoError TResponse}
  {opt : FindOptions} {start : GoString}

/-- What the loop has gathered when it has described these paths. -/
def reportOf
    (c : Client) (answers : GoString → Except GoError TResponse) (opt : FindOptions)
    (start : GoString) (queue seen : List GoString) : FindState :=
  let visits := seen.map (visitOf c answers opt start)
  { queue := queue
    seen := seen
    lines := visits.flatMap Visit.lines
    tablesChecked := (visits.map Visit.tablesChecked).sum
    legacy := (visits.map Visit.legacy).sum
    errors := (visits.map Visit.errors).sum }

/-- What follows a path in the walk. -/
def followed
    (c : Client) (answers : GoString → Except GoError TResponse) (opt : FindOptions)
    (start path : GoString) : List GoString :=
  (visitOf c answers opt start path).next

/-- The loop is a walk with a queue that keeps a report of its visits. -/
theorem findStep_reportOf
    (w : Worklist.State GoString) :
    findStep c answers opt start (reportOf c answers opt start w.queue w.seen) =
      reportOf c answers opt start
        (Worklist.step (followed c answers opt start) w).queue
        (Worklist.step (followed c answers opt start) w).seen := by
  obtain ⟨queue, seen⟩ := w
  cases queue with
  | nil => rfl
  | cons path rest =>
      by_cases hseen : path ∈ seen
      · simp [findStep, reportOf, Worklist.step, hseen]
      · simp [findStep, reportOf, Worklist.step, hseen, followed]

theorem findLoop_reportOf
    (c : Client) (answers : GoString → Except GoError TResponse) (opt : FindOptions)
    (start : GoString) (fuel : Nat) (w : Worklist.State GoString) :
    findLoop c answers opt start fuel (reportOf c answers opt start w.queue w.seen) =
      (Worklist.run (followed c answers opt start) fuel w).map
        (reportOf c answers opt start []) := by
  induction fuel generalizing w with
  | zero =>
      by_cases hqueue : w.queue = []
      · simp [findLoop, Worklist.run, reportOf, hqueue]
      · simp [findLoop, Worklist.run, reportOf, hqueue]
  | succ fuel ih =>
      by_cases hqueue : w.queue = []
      · simp [findLoop, Worklist.run, reportOf, hqueue]
      · have hne : (reportOf c answers opt start w.queue w.seen).queue ≠ [] := hqueue
        rw [findLoop, if_neg hne, findStep_reportOf, ih, Worklist.run, if_neg hqueue]

end Reports

section Reachability

variable {c : Client} {answers : GoString → Except GoError TResponse}
  {opt : FindOptions} {start : GoString}

/-- The child is looked at: its name is not empty and, unless system objects are
included, does not start with a dot; it is listed as a directory, a sub-domain
or a row table. -/
structure IsFollowed (opt : FindOptions) (ch : TDirEntry) : Prop where
  name_ne : ch.getName ≠ []
  visible : opt.includeSys = true ∨ ch.getName.head? ≠ some '.'
  listed : isDirectoryPathType ch.getPathType = true ∨ isTablePathType ch.getPathType = true

/-- The children of the object are looked at: it is a directory or a sub-domain,
or the start of the walk if this is not a table. -/
def IsWalked (start path : GoString) (pd : TPathDescription) : Prop :=
  isTablePathType pd.selfType = false ∧
    (isDirectoryPathType pd.selfType = true ∨ path = start)

/-- The paths of the walk: the start, and the children of what is walked. -/
inductive Reachable
    (answers : GoString → Except GoError TResponse) (opt : FindOptions) (start : GoString) :
    GoString → Prop
  | start : Reachable answers opt start start
  | child
      {path : GoString} {pd : TPathDescription} {ch : TDirEntry}
      (hpath : Reachable answers opt start path)
      (hdescribes : description answers path = some pd)
      (hwalked : IsWalked start path pd)
      (hchild : ch ∈ pd.children)
      (hfollowed : IsFollowed opt ch) :
      Reachable answers opt start (joinPath path ch.getName)

theorem mem_childPaths
    {path child : GoString} {pd : TPathDescription} :
    child ∈ childPaths opt path pd ↔
      ∃ ch ∈ pd.children, IsFollowed opt ch ∧ child = joinPath path ch.getName := by
  unfold childPaths listedChildren
  simp only [List.mem_append, mem_sortedBy, List.mem_map, List.mem_filter, decide_eq_true_eq,
    Bool.and_eq_true, Bool.not_eq_true']
  constructor
  · rintro (⟨ch, ⟨⟨hmem, hname, hvisible⟩, _, htable⟩, rfl⟩ |
      ⟨ch, ⟨⟨hmem, hname, hvisible⟩, hdir⟩, rfl⟩)
    · exact ⟨ch, hmem, ⟨hname, hvisible, Or.inr htable⟩, rfl⟩
    · exact ⟨ch, hmem, ⟨hname, hvisible, Or.inl hdir⟩, rfl⟩
  · rintro ⟨ch, hmem, ⟨hname, hvisible, hlisted⟩, rfl⟩
    cases hdir : isDirectoryPathType ch.getPathType with
    | true => exact Or.inr ⟨ch, ⟨⟨hmem, hname, hvisible⟩, hdir⟩, rfl⟩
    | false =>
        have htable := hlisted.resolve_left (by simp [hdir])
        exact Or.inl ⟨ch, ⟨⟨hmem, hname, hvisible⟩, hdir, htable⟩, rfl⟩

theorem mem_followed_iff
    {path child : GoString} :
    child ∈ followed c answers opt start path ↔
      ∃ pd, description answers path = some pd ∧ IsWalked start path pd ∧
        ∃ ch ∈ pd.children, IsFollowed opt ch ∧ child = joinPath path ch.getName := by
  unfold followed
  rw [visitOf_eq]
  cases hpd : description answers path with
  | none => simp
  | some pd =>
      simp only [Option.some.injEq, exists_eq_left', ← mem_childPaths, IsWalked]
      cases htable : isTablePathType pd.selfType with
      | true =>
          refine iff_of_false ?_ (by simp)
          rw [if_pos rfl]
          split
          · exact List.not_mem_nil
          · exact List.not_mem_nil
      | false =>
          rw [if_neg (by simp)]
          by_cases hwalked : isDirectoryPathType pd.selfType = true ∨ path = start
          · have hnot : ¬ (isDirectoryPathType pd.selfType = false ∧ path ≠ start) := by
              rintro ⟨hdir, hstart⟩
              rcases hwalked with hwalked | hwalked
              · rw [hdir] at hwalked
                cases hwalked
              · exact hstart hwalked
            rw [if_neg hnot]
            simp [hwalked]
          · rw [not_or, Bool.not_eq_true] at hwalked
            rw [if_pos hwalked]
            simp [hwalked]

/-- The paths of the walk are what the queue leads to. -/
theorem reachable_iff
    {path : GoString} :
    Worklist.Reaches (followed c answers opt start) start path ↔
      Reachable answers opt start path := by
  constructor
  · intro h
    induction h with
    | refl => exact Reachable.start
    | tail _ hstep ih =>
        obtain ⟨pd, hpd, hwalked, ch, hchild, hfollowed, rfl⟩ := mem_followed_iff.mp hstep
        exact Reachable.child ih hpd hwalked hchild hfollowed
  · intro h
    induction h with
    | start => exact Relation.ReflTransGen.refl
    | child _ hpd hwalked hchild hfollowed ih =>
        exact ih.tail (mem_followed_iff.mpr ⟨_, hpd, hwalked, _, hchild, hfollowed, rfl⟩)

end Reachability

section Listing

variable {c : Client} {answers : GoString → Except GoError TResponse}
  {opt : FindOptions} {start : GoString}

/-- The path is a row table that needs the repair for this reason. -/
def IsLegacyTable
    (answers : GoString → Except GoError TResponse) (path reason : GoString) : Prop :=
  ∃ pd, description answers path = some pd ∧ isTablePathType pd.selfType = true ∧
    pd.classify.status = .needsRepair ∧ pd.classify.reason.toList = reason

/-- The reasons for a repair end their lines. -/
theorem isReason_classify
    {pc : Option TPartitionConfig}
    (h : (classifyPartitionConfig pc).status = .needsRepair) :
    IsReason (classifyPartitionConfig pc).reason.toList := by
  have hreasons : ∀ reason ∈ ["no PartitionConfig", "no ColumnFamilies entry with Id: 0",
      "family 0 has no StorageConfig"], IsReason reason.toList := by
    have hlast : ∀ reason : GoString,
        (reason.getLast?.all fun c => !isSpaceRune c) = true →
        ∀ c ∈ reason.getLast?, isSpaceRune c = false := by
      intro reason h c hc
      rw [Option.mem_def.mp hc] at h
      simpa using h
    intro reason hreason
    simp only [List.mem_cons, List.not_mem_nil, or_false] at hreason
    rcases hreason with rfl | rfl | rfl <;>
      exact ⟨by decide, by decide, hlast _ (by decide)⟩
  refine hreasons _ ?_
  cases pc with
  | none => simp [classifyPartitionConfig]
  | some pc =>
      simp only [classifyPartitionConfig] at h ⊢
      split at h
      · cases h
      · next hprofile =>
          rw [if_neg hprofile]
          split at h
          · next hempty =>
              rw [if_pos hempty]
              simp
          · next hempty =>
              rw [if_neg hempty]
              split at h
              · simp
              · split at h
                · cases h
                · next hstorage =>
                    simp only [if_neg hstorage]
                    simp

/-- The entry of a path in the output, if its visit writes one. -/
def legacyEntry
    (answers : GoString → Except GoError TResponse) (path : GoString) :
    Option (GoString × GoString) :=
  (description answers path).bind fun pd =>
    if isTablePathType pd.selfType = true ∧ pd.classify.status = .needsRepair then
      some (path, pd.classify.reason.toList)
    else none

theorem legacyEntry_eq_some_iff
    {path : GoString} {entry : GoString × GoString} :
    legacyEntry answers path = some entry ↔
      entry.1 = path ∧ IsLegacyTable answers path entry.2 := by
  unfold legacyEntry IsLegacyTable
  rw [Option.bind_eq_some_iff]
  constructor
  · rintro ⟨pd, hpd, h⟩
    split at h
    · next hlegacy =>
        cases h
        exact ⟨rfl, pd, hpd, hlegacy.1, hlegacy.2, rfl⟩
    · cases h
  · rintro ⟨rfl, pd, hpd, htable, hstatus, hreason⟩
    refine ⟨pd, hpd, ?_⟩
    rw [if_pos ⟨htable, hstatus⟩, hreason]

/-- What a visit adds to the output and to the errors. -/
theorem visitOf_spec
    (c : Client) (answers : GoString → Except GoError TResponse) (opt : FindOptions)
    (start path : GoString) :
    (visitOf c answers opt start path).lines =
        (legacyEntry answers path).toList.map (fun entry => legacyLine entry.1 entry.2) ∧
      (visitOf c answers opt start path).errors =
        if (description answers path).isNone then 1 else 0 := by
  rw [visitOf_eq]
  unfold legacyEntry
  cases hpd : description answers path with
  | none => exact ⟨rfl, rfl⟩
  | some pd =>
      simp only [Option.bind_some, Option.isNone_some, Bool.false_eq_true, if_false]
      cases htable : isTablePathType pd.selfType with
      | true =>
          rw [if_pos rfl]
          cases hstatus : pd.classify.status with
          | needsRepair => simp
          | alreadyRepaired => simp
          | unsafeToRepair => simp
      | false =>
          rw [if_neg (by simp)]
          split
          · simp
          · simp

/-- The entries of the output are those of the described paths. -/
theorem reportOf_lines
    (c : Client) (answers : GoString → Except GoError TResponse) (opt : FindOptions)
    (start : GoString) (queue seen : List GoString) :
    (reportOf c answers opt start queue seen).lines =
      (seen.filterMap (legacyEntry answers)).map fun entry => legacyLine entry.1 entry.2 := by
  induction seen with
  | nil => rfl
  | cons path rest ih =>
      have hpath := (visitOf_spec c answers opt start path).1
      have hrest : (reportOf c answers opt start queue (path :: rest)).lines =
          (visitOf c answers opt start path).lines ++
            (reportOf c answers opt start queue rest).lines := rfl
      rw [hrest, hpath, ih]
      cases hentry : legacyEntry answers path with
      | none => simp [hentry]
      | some entry => simp [hentry]

theorem reportOf_errors
    (c : Client) (answers : GoString → Except GoError TResponse) (opt : FindOptions)
    (start : GoString) (queue seen : List GoString) :
    (reportOf c answers opt start queue seen).errors =
      (seen.filter fun path => (description answers path).isNone).length := by
  induction seen with
  | nil => rfl
  | cons path rest ih =>
      have hpath := (visitOf_spec c answers opt start path).2
      have hrest : (reportOf c answers opt start queue (path :: rest)).errors =
          (visitOf c answers opt start path).errors +
            (reportOf c answers opt start queue rest).errors := rfl
      rw [hrest, hpath, ih, List.filter_cons]
      split
      · rw [List.length_cons, Nat.add_comm]
      · rw [Nat.zero_add]

/-- The entries stand in the order of their paths. -/
theorem entries_sublist
    (answers : GoString → Except GoError TResponse) (paths : List GoString) :
    ((paths.filterMap (legacyEntry answers)).map Prod.fst).Sublist paths := by
  induction paths with
  | nil => exact List.Sublist.refl _
  | cons path rest ih =>
      cases hentry : legacyEntry answers path with
      | none =>
          rw [List.filterMap_cons_none hentry]
          exact ih.cons path
      | some entry =>
          rw [List.filterMap_cons_some hentry, List.map_cons,
            (legacyEntry_eq_some_iff.mp hentry).1]
          exact ih.cons_cons path

/-- A finite scheme: the objects that can be described have paths without white
space.  An object may fail to be described. -/
structure SchemeTree where
  answers : GoString → Except GoError TResponse
  paths : List GoString
  mem_paths : ∀ path pd, description answers path = some pd → path ∈ paths
  noSpace : ∀ path ∈ paths, ∀ ch ∈ path, isSpaceRune ch = false

/-- Every path of a walk from an absolute path is absolute. -/
theorem Reachable.absolute
    {path : GoString}
    (h : Reachable answers opt start path)
    (hstart : start.head? = some '/') :
    path.head? = some '/' := by
  induction h with
  | start => exact hstart
  | @child path pd ch _ _ _ _ _ ih =>
      unfold joinPath
      obtain ⟨rest, hrest⟩ := List.rdropWhile_prefix (· == '/') path
      cases hdrop : path.rdropWhile (· == '/') with
      | nil => rfl
      | cons d tail =>
          rw [hdrop] at hrest
          rw [← hrest] at ih
          exact ih

/-- What is left of an absolute path without its trailing slashes is absolute. -/
theorem FindOptions.start_absolute
    (habsolute : opt.startPath.head? = some '/')
    (hname : ∃ ch ∈ opt.startPath, ch ≠ '/') :
    opt.start.head? = some '/' := by
  unfold FindOptions.start
  obtain ⟨rest, hrest⟩ := List.rdropWhile_prefix (· == '/') opt.startPath
  cases hdrop : opt.startPath.rdropWhile (· == '/') with
  | nil =>
      obtain ⟨ch, hch, hne⟩ := hname
      have hslash := List.rdropWhile_eq_nil_iff.mp hdrop ch hch
      exact absurd (by simpa using hslash) hne
  | cons d tail =>
      rw [hdrop] at hrest
      rw [← hrest] at habsolute
      exact habsolute

/-- `find` ends; it describes every path of the walk once, writes one line for
every legacy table among them and no other, and counts the paths that cannot be
described.  The paths of the file are read back in order unless a line does not
fit into the scanner. -/
theorem find_lists_legacy_tables
    (c : Client)
    (tree : SchemeTree)
    (opt : FindOptions)
    (habsolute : opt.startPath.head? = some '/')
    (hname : ∃ ch ∈ opt.startPath, ch ≠ '/') :
    ∃ (s : FindState) (listed : List (GoString × GoString)) (failed : List GoString)
        (enough : Nat),
      (∀ fuel, enough ≤ fuel → findRun c tree.answers opt fuel = .ok (some s)) ∧
      s.seen.Nodup ∧
      (∀ path, path ∈ s.seen ↔ Reachable tree.answers opt opt.start path) ∧
      s.lines = listed.map (fun entry => legacyLine entry.1 entry.2) ∧
      (listed.map Prod.fst).Nodup ∧
      (∀ path reason, (path, reason) ∈ listed ↔
        Reachable tree.answers opt opt.start path ∧ IsLegacyTable tree.answers path reason) ∧
      failed.Nodup ∧
      (∀ path, path ∈ failed ↔
        Reachable tree.answers opt opt.start path ∧ description tree.answers path = none) ∧
      s.errors = failed.length ∧
      ((∀ line ∈ s.lines, byteLength line < maxScanTokenSize) →
        loadTablePaths s.output = .ok (listed.map Prod.fst)) := by
  have hstart := FindOptions.start_absolute habsolute hname
  have hclosed : ∀ a ∈ opt.start :: tree.paths.flatMap (followed c tree.answers opt opt.start),
      ∀ b ∈ followed c tree.answers opt opt.start a,
      b ∈ opt.start :: tree.paths.flatMap (followed c tree.answers opt opt.start) := by
    intro a _ b hb
    obtain ⟨pd, hpd, -⟩ := mem_followed_iff.mp hb
    exact List.mem_cons_of_mem _ (List.mem_flatMap.mpr ⟨a, tree.mem_paths a pd hpd, hb⟩)
  obtain ⟨enough, seen, hrun⟩ := Worklist.exists_run (s := ⟨[opt.start], []⟩) hclosed
    (by simp)
  obtain ⟨hnodup, hseen⟩ := (Worklist.invariant_start _ _).of_run hrun
  have hreachable : ∀ path, path ∈ seen ↔ Reachable tree.answers opt opt.start path :=
    fun path => (hseen path).trans reachable_iff
  have hlisted : ∀ path reason, (path, reason) ∈ seen.filterMap (legacyEntry tree.answers) ↔
      Reachable tree.answers opt opt.start path ∧ IsLegacyTable tree.answers path reason := by
    intro path reason
    rw [List.mem_filterMap]
    constructor
    · rintro ⟨path', hpath', hentry⟩
      obtain ⟨rfl, hlegacy⟩ := legacyEntry_eq_some_iff.mp hentry
      exact ⟨(hreachable _).mp hpath', hlegacy⟩
    · rintro ⟨hpath, hlegacy⟩
      exact ⟨path, (hreachable path).mpr hpath, legacyEntry_eq_some_iff.mpr ⟨rfl, hlegacy⟩⟩
  have hentries := (entries_sublist tree.answers seen).nodup hnodup
  have hlines := reportOf_lines c tree.answers opt opt.start [] seen
  refine ⟨reportOf c tree.answers opt opt.start [] seen,
    seen.filterMap (legacyEntry tree.answers),
    seen.filter (fun path => (description tree.answers path).isNone), enough,
    ?_, hnodup, hreachable, hlines, hentries, hlisted, hnodup.filter _, ?_,
    reportOf_errors c tree.answers opt opt.start [] seen, ?_⟩
  · intro fuel hfuel
    have hne : opt.start ≠ [] := by
      intro hnil
      rw [hnil] at hstart
      cases hstart
    have hloop := findLoop_reportOf c tree.answers opt opt.start fuel ⟨[opt.start], []⟩
    rw [Worklist.run_mono hrun hfuel] at hloop
    rw [findRun, if_neg hne]
    exact congrArg _ hloop
  · intro path
    rw [List.mem_filter, hreachable, Option.isNone_iff_eq_none]
  · intro hshort
    have hplain : ∀ entry ∈ seen.filterMap (legacyEntry tree.answers), IsPlainPath entry.1 := by
      rintro ⟨path, reason⟩ hentry
      obtain ⟨hreach, pd, hpd, -⟩ := (hlisted path reason).mp hentry
      exact ⟨hreach.absolute hstart, tree.noSpace path (tree.mem_paths path pd hpd)⟩
    have hreasons : ∀ entry ∈ seen.filterMap (legacyEntry tree.answers), IsReason entry.2 := by
      rintro ⟨path, reason⟩ hentry
      obtain ⟨-, pd, -, -, hstatus, rfl⟩ := (hlisted path reason).mp hentry
      exact isReason_classify hstatus
    rw [hlines] at hshort
    unfold FindState.output
    rw [hlines]
    refine loadTablePaths_tablesFile hplain hreasons hentries ?_
    exact fun entry hentry => decide_eq_true (hshort _ (List.mem_map_of_mem hentry))

/-- A directory with one row table `t` that has no partition configuration. -/
def tableUnder (dir path : GoString) : Except GoError TResponse :=
  if path = dir then
    .ok ⟨some mStatusOK, none, none,
      some ⟨some ⟨none, some .dir⟩, [⟨some ['t'], some .table⟩], none⟩, none⟩
  else if path = joinPath dir ['t'] then
    .ok ⟨some mStatusOK, none, none,
      some ⟨some ⟨some ['t'], some .table⟩, [], some ⟨some ['t'], none, none⟩⟩, none⟩
  else .error (.transport [])

/-- The descriptions of a directory and of a table. -/
def directoryOf (children : List TDirEntry) : TResponse :=
  ⟨some mStatusOK, none, none, some ⟨some ⟨none, some .dir⟩, children, none⟩, none⟩

def tableOf (name : GoString) (config : Option TPartitionConfig) : TResponse :=
  ⟨some mStatusOK, none, none,
    some ⟨some ⟨some name, some .table⟩, [], some ⟨some name, config, none⟩⟩, none⟩

/-- Family 0 with a storage configuration. -/
def usableConfig : TPartitionConfig :=
  ⟨none, [⟨some 0, none, some ⟨some ⟨some "ssd".toList⟩, none, none, none⟩⟩]⟩

/-- Two legacy tables, one of them in a directory, a table that is not, and one that
cannot be described. -/
def smallAnswers (path : GoString) : Except GoError TResponse :=
  if path = "/a".toList then
    .ok (directoryOf
      [⟨some ['t'], some .table⟩, ⟨some ['d'], some .dir⟩, ⟨some ['u'], some .table⟩])
  else if path = "/a/d".toList then
    .ok (directoryOf [⟨some ['v'], some .table⟩, ⟨some ['w'], some .table⟩])
  else if path = "/a/t".toList then .ok (tableOf ['t'] none)
  else if path = "/a/u".toList then .ok (tableOf ['u'] (some usableConfig))
  else if path = "/a/d/v".toList then .ok (tableOf ['v'] none)
  else .error (.transport [])

def smallTree : SchemeTree where
  answers := smallAnswers
  paths := ["/a".toList, "/a/d".toList, "/a/t".toList, "/a/u".toList, "/a/d/v".toList]
  mem_paths := by
    intro path pd h
    by_contra hnot
    simp only [List.mem_cons, List.not_mem_nil, or_false, not_or] at hnot
    obtain ⟨ha, hd, ht, hu, hv⟩ := hnot
    rw [description, smallAnswers, if_neg ha, if_neg hd, if_neg ht, if_neg hu, if_neg hv] at h
    cases h
  noSpace := by simp [isSpaceRune]

/-- The end of the walk there. -/
def smallState : FindState where
  queue := []
  seen := ["/a".toList, "/a/t".toList, "/a/u".toList, "/a/d".toList, "/a/d/v".toList,
    "/a/d/w".toList]
  lines := [legacyLine "/a/t".toList "no PartitionConfig".toList,
    legacyLine "/a/d/v".toList "no PartitionConfig".toList]
  tablesChecked := 3
  legacy := 2
  errors := 1

theorem find_lists_legacy_tables_small :
    (∃ enough, ∀ fuel, enough ≤ fuel →
      findRun ⟨[], 0⟩ smallAnswers ⟨"/a//".toList, false⟩ fuel = .ok (some smallState)) ∧
    (∀ path, path ∈ smallState.seen ↔
      Reachable smallAnswers ⟨"/a//".toList, false⟩ "/a".toList path) ∧
    ∃ listed failed : List _,
      listed.map Prod.fst = ["/a/t".toList, "/a/d/v".toList] ∧
      (∀ path reason, (path, reason) ∈ listed ↔
        Reachable smallAnswers ⟨"/a//".toList, false⟩ "/a".toList path ∧
          IsLegacyTable smallAnswers path reason) ∧
      (∀ path, path ∈ failed ↔
        Reachable smallAnswers ⟨"/a//".toList, false⟩ "/a".toList path ∧
          description smallAnswers path = none) ∧
      failed.length = 1 := by
  obtain ⟨s, listed, failed, enough, hrun, -, hseen, -, -, hlisted, -, hfailed, herrors, hload⟩ :=
    find_lists_legacy_tables ⟨[], 0⟩ smallTree ⟨"/a//".toList, false⟩ (by decide)
      ⟨'a', by decide, by decide⟩
  have hten : findRun ⟨[], 0⟩ smallAnswers ⟨"/a//".toList, false⟩ 10 =
      .ok (some smallState) := by
    decide +kernel
  have hstart : FindOptions.start ⟨"/a//".toList, false⟩ ≠ [] := by
    decide
  have hsame : s = smallState := by
    have hlong := hrun (enough + 10) (Nat.le_add_right _ _)
    rw [findRun, if_neg hstart] at hten hlong
    have hdone := findLoop_mono (Nat.le_add_left 10 enough) (Except.ok.inj hten)
    exact Option.some.inj ((Except.ok.inj hlong).symm.trans hdone)
  subst hsame
  have hread : loadTablePaths smallState.output = .ok ["/a/t".toList, "/a/d/v".toList] := by
    decide +kernel
  exact ⟨⟨enough, hrun⟩, hseen, listed, failed,
    Except.ok.inj ((hload (by decide +kernel)).symm.trans hread), hlisted, hfailed, herrors.symm⟩

/-- A walk from the root is refused: without its slash the path is empty. -/
theorem root_start_refused :
    (∀ fuel, findRun ⟨[], 0⟩ (tableUnder ['/']) ⟨['/'], false⟩ fuel =
        .error .emptyStartPath) ∧
      Reachable (tableUnder ['/']) ⟨['/'], false⟩ ['/'] "/t".toList ∧
      IsLegacyTable (tableUnder ['/']) "/t".toList "no PartitionConfig".toList := by
  have hchild : IsFollowed ⟨['/'], false⟩ ⟨some ['t'], some .table⟩ :=
    ⟨by decide, Or.inr (by decide), Or.inr rfl⟩
  refine ⟨fun fuel => rfl, ?_, ⟨_, rfl, rfl, rfl, rfl⟩⟩
  exact Reachable.child Reachable.start rfl ⟨rfl, Or.inl rfl⟩ List.mem_cons_self hchild

end Listing

end LegacyTables
end YdbSnippets
