import YdbSnippets.LegacyTables.Server

/-!
# The trees of one repair

A repair copies a table to a temporary name, renames the table to a backup
name, renames the copy into place and may drop the backup.  Each of these
operations changes at most two locations.  This file fixes the trees the
repair passes through and shows what every one of them keeps.
-/

namespace YdbSnippets
namespace LegacyTables

open Text

section Locations

/-- The location next to `loc` whose name is made from the name of `loc`. -/
def siblingLocation (rename : GoString → GoString) (loc : Location) : Location :=
  match loc.getLast? with
  | none => []
  | some name => loc.dropLast ++ components '/' (rename name)

/-- Where `repairOne` puts the copy. -/
def tempLocation (tempPrefix : GoString) : Location → Location :=
  siblingLocation (fun name => tempPrefix ++ name)

/-- Where `repairOne` puts the original: `<name><suffix>`. -/
def backupLocation (backupSuffix : GoString) : Location → Location :=
  siblingLocation (fun name => name ++ backupSuffix)

/-- A joined helper path resolves to the sibling location. -/
theorem resolve_joinPath
    {path parent name : GoString} (rename : GoString → GoString)
    (h : splitPath path = .ok (parent, name)) :
    resolve (joinPath parent (rename name)) =
      siblingLocation rename (resolve path) := by
  obtain ⟨_, _, hpath⟩ := splitPath_components h
  unfold resolve siblingLocation
  rw [hpath, joinPath_components]
  simp

/-- Splitting a path and joining it again does not change where it leads. -/
theorem resolve_splitPath
    {path parent name : GoString}
    (h : splitPath path = .ok (parent, name)) :
    resolve (joinPath parent name) = resolve path := by
  obtain ⟨hne, hnot, hpath⟩ := splitPath_components h
  unfold resolve
  rw [joinPath_components, hpath, components_word hnot hne]

end Locations

section Course

variable {R : Type}

/-- How the configuration of a table is classified. -/
def Table.status (t : Table R) : Status :=
  (classifyPartitionConfig t.partitionConfig).status

/-- What one repair starts from: the tree, the three locations it works on and
the table found at the first. -/
structure Course (R : Type) where
  tree : Tree R
  path : Location
  temp : Location
  backup : Location
  original : Table R
  found : tree path = some (.table original)

namespace Course

variable (d : Course R) (copy : Table R)

/-- The tree after the copy. -/
def afterCopy : Tree R :=
  d.tree.set d.temp (some (.table copy))

/-- The tree after the original was renamed to the backup. -/
def afterBackup : Tree R :=
  ((d.afterCopy copy).set d.backup (some (.table d.original))).set d.path none

/-- The tree after the copy was renamed into place. -/
def afterReplace : Tree R :=
  ((d.afterBackup copy).set d.path (some (.table copy))).set d.temp none

/-- The tree after the backup was dropped. -/
def afterDrop : Tree R :=
  (d.afterReplace copy).set d.backup none

/-- What a copy that was carried out tells. -/
structure Copied : Prop where
  needed : d.original.status = .needsRepair
  temp_free : d.tree d.temp = none
  rows : copy.rows = d.original.rows

/-- What the first rename tells if it was carried out. -/
structure Renamed : Prop extends d.Copied copy where
  backup_free : d.tree d.backup = none
  backup_ne_temp : d.backup ≠ d.temp

/-- The trees of a repair before any drop. -/
inductive Phase : Tree R → Prop
  | start : Phase d.tree
  | copied (copy : Table R) (h : d.Copied copy) : Phase (d.afterCopy copy)
  | backedUp (copy : Table R) (h : d.Renamed copy) : Phase (d.afterBackup copy)
  | replaced (copy : Table R) (h : d.Renamed copy) : Phase (d.afterReplace copy)

variable {d copy}

theorem Copied.path_ne_temp (h : d.Copied copy) : d.path ≠ d.temp := by
  intro heq
  have hfound := d.found
  rw [heq, h.temp_free] at hfound
  cases hfound

theorem Renamed.path_ne_backup (h : d.Renamed copy) : d.path ≠ d.backup := by
  intro heq
  have hfound := d.found
  rw [heq, h.backup_free] at hfound
  cases hfound

theorem Copied.afterCopy_path (h : d.Copied copy) :
    d.afterCopy copy d.path = some (.table d.original) := by
  unfold afterCopy
  rw [Tree.set_other _ _ h.path_ne_temp, d.found]

theorem afterCopy_temp :
    d.afterCopy copy d.temp = some (.table copy) :=
  Tree.set_same _ _ _

theorem Renamed.afterBackup_backup (h : d.Renamed copy) :
    d.afterBackup copy d.backup = some (.table d.original) := by
  unfold afterBackup
  rw [Tree.set_other _ _ h.path_ne_backup.symm, Tree.set_same]

theorem Renamed.afterBackup_temp (h : d.Renamed copy) :
    d.afterBackup copy d.temp = some (.table copy) := by
  unfold afterBackup
  rw [Tree.set_other _ _ h.path_ne_temp.symm, Tree.set_other _ _ h.backup_ne_temp.symm,
    afterCopy_temp]

theorem Renamed.afterReplace_path (h : d.Renamed copy) :
    d.afterReplace copy d.path = some (.table copy) := by
  unfold afterReplace
  rw [Tree.set_other _ _ h.path_ne_temp, Tree.set_same]

theorem Renamed.afterReplace_backup (h : d.Renamed copy) :
    d.afterReplace copy d.backup = some (.table d.original) := by
  unfold afterReplace
  rw [Tree.set_other _ _ h.backup_ne_temp, Tree.set_other _ _ h.path_ne_backup.symm,
    h.afterBackup_backup]

theorem Renamed.afterDrop_path (h : d.Renamed copy) :
    d.afterDrop copy d.path = some (.table copy) := by
  unfold afterDrop
  rw [Tree.set_other _ _ h.path_ne_backup, h.afterReplace_path]

/-- The original is at its own path or at the backup. -/
theorem Phase.original
    {tree : Tree R}
    (h : d.Phase tree) :
    tree d.path = some (.table d.original) ∨
      tree d.backup = some (.table d.original) := by
  cases h with
  | start => exact Or.inl d.found
  | copied copy h => exact Or.inl h.afterCopy_path
  | backedUp copy h => exact Or.inr h.afterBackup_backup
  | replaced copy h => exact Or.inr h.afterReplace_backup

/-- Only a table that needs the repair is changed. -/
theorem Phase.unchanged_or_needed
    {tree : Tree R}
    (h : d.Phase tree) :
    tree = d.tree ∨ d.original.status = .needsRepair := by
  cases h with
  | start => exact Or.inl rfl
  | copied copy h => exact Or.inr h.needed
  | backedUp copy h => exact Or.inr h.needed
  | replaced copy h => exact Or.inr h.needed

section Frame

variable {loc : Location}

theorem Copied.afterCopy_other
    (h : d.Copied copy)
    (hocc : d.tree loc ≠ none) :
    d.afterCopy copy loc = d.tree loc := by
  apply Tree.set_other
  rintro rfl
  exact hocc h.temp_free

theorem Renamed.afterBackup_other
    (h : d.Renamed copy)
    (hocc : d.tree loc ≠ none) (hne : loc ≠ d.path) :
    d.afterBackup copy loc = d.tree loc := by
  have hbackup : loc ≠ d.backup := by
    rintro rfl
    exact hocc h.backup_free
  unfold afterBackup
  rw [Tree.set_other _ _ hne, Tree.set_other _ _ hbackup, h.afterCopy_other hocc]

theorem Renamed.afterReplace_other
    (h : d.Renamed copy)
    (hocc : d.tree loc ≠ none) (hne : loc ≠ d.path) :
    d.afterReplace copy loc = d.tree loc := by
  have htemp : loc ≠ d.temp := by
    rintro rfl
    exact hocc h.temp_free
  unfold afterReplace
  rw [Tree.set_other _ _ htemp, Tree.set_other _ _ hne, h.afterBackup_other hocc hne]

theorem Renamed.afterDrop_other
    (h : d.Renamed copy)
    (hocc : d.tree loc ≠ none) (hne : loc ≠ d.path) :
    d.afterDrop copy loc = d.tree loc := by
  have hbackup : loc ≠ d.backup := by
    rintro rfl
    exact hocc h.backup_free
  unfold afterDrop
  rw [Tree.set_other _ _ hbackup, h.afterReplace_other hocc hne]

/-- No phase of a repair changes an occupied location other than its own. -/
theorem Phase.other
    {tree : Tree R}
    (h : d.Phase tree)
    (hocc : d.tree loc ≠ none) (hne : loc ≠ d.path) :
    tree loc = d.tree loc := by
  cases h with
  | start => rfl
  | copied copy h => exact h.afterCopy_other hocc
  | backedUp copy h => exact h.afterBackup_other hocc hne
  | replaced copy h => exact h.afterReplace_other hocc hne

end Frame

/-! ## The operations lead from phase to phase -/

section Operations

variable {tree' : Tree R}

/-- The copy of the path to the temporary location. -/
theorem copied_of_applies
    {src parent name pool : GoString}
    (hneeded : d.original.status = .needsRepair)
    (hsrc : resolve src = d.path)
    (hdst : resolve (joinPath parent name) = d.temp)
    (h : Applies (Client.copyRequest src parent name pool) d.tree tree') :
    ∃ copy, d.Copied copy ∧ tree' = d.afterCopy copy := by
  cases h with
  | @copy _ _ _ source _ t copied hname hsource hfound hfree hrows =>
      cases hname
      cases hsource
      rw [hsrc, d.found] at hfound
      cases hfound
      rw [hdst] at hfree ⊢
      exact ⟨copied, ⟨hneeded, hfree, hrows⟩, rfl⟩

/-- The rename of the original to the backup. -/
theorem renamed_of_applies
    {src dst : GoString}
    (hcopied : d.Copied copy)
    (hsrc : resolve src = d.path) (hdst : resolve dst = d.backup)
    (h : Applies (.moveTable src dst) (d.afterCopy copy) tree') :
    d.Renamed copy ∧ tree' = d.afterBackup copy := by
  cases h with
  | move hfound hfree =>
      rw [hsrc, hcopied.afterCopy_path] at hfound
      cases hfound
      rw [hdst] at hfree
      have hne : d.backup ≠ d.temp := by
        intro heq
        rw [heq, afterCopy_temp] at hfree
        cases hfree
      have hbackup : d.tree d.backup = none := by
        rwa [afterCopy, Tree.set_other _ _ hne] at hfree
      refine ⟨⟨hcopied, hbackup, hne⟩, ?_⟩
      rw [hsrc, hdst]
      rfl

/-- The rename of the copy into place. -/
theorem replaced_of_applies
    {src dst : GoString}
    (hrenamed : d.Renamed copy)
    (hsrc : resolve src = d.temp) (hdst : resolve dst = d.path)
    (h : Applies (.moveTable src dst) (d.afterBackup copy) tree') :
    tree' = d.afterReplace copy := by
  cases h with
  | move hfound hfree =>
      rw [hsrc, hrenamed.afterBackup_temp] at hfound
      cases hfound
      rw [hsrc, hdst]
      rfl

/-- The drop of the backup. -/
theorem dropped_of_applies
    {parent name : GoString}
    (hloc : resolve (joinPath parent name) = d.backup)
    (h : Applies (.dropTable parent name) (d.afterReplace copy) tree') :
    tree' = d.afterDrop copy := by
  cases h with
  | drop hfound =>
      rw [hloc]
      rfl

end Operations

end Course

end Course

end LegacyTables
end YdbSnippets
