import YdbSnippets.LegacyTables.RepairSafety

/-!
# What a failed repair leaves behind

When every call either succeeds or fails without effect, a repair that returns
an error leaves a table with the rows at the path, with one exception.  There
is no rollback: when the rename of the copy into place fails, the path is left
empty, the original is at the backup path and the copy at the temporary path.
-/

namespace YdbSnippets
namespace LegacyTables

open Effects

section Failure

/-- The path of a table leads to a table with the same rows. -/
def PathKeepsRows {R : Type} (s s' : Server R) (path : GoString) : Prop :=
  ∀ t, s.tree (resolve path) = some (.table t) →
    ∃ t', s'.tree (resolve path) = some (.table t') ∧ t'.rows = t.rows

/-- The original is at the backup path and a complete copy at the temporary
path. -/
def LeftAside {R : Type}
    (opt : Options) (s s' : Server R) (path : GoString) : Prop :=
  ∀ t, s.tree (resolve path) = some (.table t) →
    s'.tree (backupLocation opt.backupSuffix (resolve path)) = some (.table t) ∧
      ∃ copy, s'.tree (tempLocation opt.tempPrefix (resolve path)) = some (.table copy) ∧
        copy.rows = t.rows

/-- A repair that fails leaves the rows at the path, unless it is the rename
of the copy into place that failed. -/
theorem repairOne_error
    {R : Type}
    (c : Client) (toLower : GoString → GoString)
    (opt : Options) (path : GoString)
    (s s' : Server R) (e : GoError)
    (htable : ∃ t, s.tree (resolve path) = some (.table t))
    (hrun : Completes (Answers false) s (repairOne c toLower path opt) (.error e) s') :
    PathKeepsRows s s' path ∨
      ((∃ cause, e = .repairStep path .renameTempToOriginal cause) ∧
        LeftAside opt s s' path) := by
  obtain ⟨t, hfound⟩ := htable
  have hend := (safe_repairOne hfound).post hrun
  rcases hend.2 rfl with ⟨t', hpath, hrows⟩ | ⟨hcause, copy, hrenamed, htree⟩
  · left
    intro u hu
    rw [hfound] at hu
    cases hu
    exact ⟨t', hpath, hrows⟩
  · right
    refine ⟨hcause, ?_⟩
    intro u hu
    rw [hfound] at hu
    cases hu
    refine ⟨?_, copy, ?_, hrenamed.rows⟩
    · rw [htree]
      exact hrenamed.afterBackup_backup
    · rw [htree]
      exact hrenamed.afterBackup_temp

/-- The options of the command line that keep the backup. -/
def keepBackupOptions : Options where
  poolKind := "ssd".toList
  tempPrefix := "temp_".toList
  backupSuffix := "_bak".toList
  dropBackup := false
  dryRun := false

/-- The rename of "/db/temp_t" to "/db/t". -/
def isSecondRename : Call → Bool
  | .schemeOperation req =>
      req.modifyScheme == .moveTable "/db/temp_t".toList "/db/t".toList
  | _ => false

theorem repairOne_error_second_rename :
    PathKeepsRows oneLegacyTable
        ((repairOne ⟨[], 0⟩ id "/db/t".toList keepBackupOptions).run
          (answer isSecondRename) oneLegacyTable).2 "/db/t".toList ∨
      ((∃ cause, GoError.repairStep "/db/t".toList .renameTempToOriginal
            (.schemeOperation (.transport [])) =
          .repairStep "/db/t".toList .renameTempToOriginal cause) ∧
        LeftAside keepBackupOptions oneLegacyTable
          ((repairOne ⟨[], 0⟩ id "/db/t".toList keepBackupOptions).run
            (answer isSecondRename) oneLegacyTable).2 "/db/t".toList) :=
  repairOne_error ⟨[], 0⟩ id keepBackupOptions "/db/t".toList oneLegacyTable _ _
    ⟨_, rfl⟩ (Program.run_completes (answer_answers false isSecondRename) _ _)

/-- After a failed second rename nothing is left at the path. -/
theorem second_rename_failure_empties_path :
    ¬ ∀ (c : Client) (toLower : GoString → GoString)
        (opt : Options) (path : GoString)
        (s s' : Server Nat) (e : GoError),
        (∃ t, s.tree (resolve path) = some (.table t)) →
        Completes (Answers false) s (repairOne c toLower path opt) (.error e) s' →
        PathKeepsRows s s' path := by
  intro hclaim
  have hrun := Program.run_completes (answer_answers false isSecondRename)
    (repairOne ⟨[], 0⟩ id "/db/t".toList keepBackupOptions) oneLegacyTable
  obtain ⟨t', hpath, _⟩ := hclaim ⟨[], 0⟩ id keepBackupOptions "/db/t".toList
    oneLegacyTable _ _ ⟨_, rfl⟩ hrun _ rfl
  cases hpath

end Failure

end LegacyTables
end YdbSnippets
