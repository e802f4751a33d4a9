import YdbSnippets.LegacyTables.Classify
import YdbSnippets.LegacyTables.Client

/-!
# The batch repair

`internal/repair/repair.go`: `repairOne` and the loop of `Run`.  The list of
paths is what `LoadTablePaths` read from the tables file.
-/

namespace YdbSnippets
namespace LegacyTables

open Effects

/-- `Options`, without the file name, the logger and the writer. -/
structure Options where
  poolKind : GoString
  tempPrefix : GoString
  backupSuffix : GoString
  dropBackup : Bool
  dryRun : Bool
deriving DecidableEq, Repr

/-- `Result` summarizes a repair run. -/
structure Result where
  total : Nat
  repaired : Nat
  skipped : Nat
  backupsDropped : Nat
deriving DecidableEq, Repr

/-- `Status.String` -/
def Status.toText : Status → String
  | .needsRepair => "needs_repair"
  | .alreadyRepaired => "already_repaired"
  | .unsafeToRepair => "unsafe"

/-- What `assertNeedsRepair` makes of a successful describe. -/
def needsRepairIn (path : GoString) (resp : TResponse) : Except GoError Unit :=
  match resp.getTable with
  | none => .error (.noPathDescriptionTable path)
  | some table =>
      let cl := classifyPartitionConfig table.partitionConfig
      match cl.status with
      | .alreadyRepaired => .error (.alreadyRepaired path cl.reason)
      | .needsRepair => .ok ()
      | .unsafeToRepair => .error (.unsafeToRepair path cl.reason)

/-- What `assertRepaired` makes of a successful describe. -/
def repairedIn (path : GoString) (resp : TResponse) : Except GoError Unit :=
  match resp.getTable with
  | none => .error (.noTable path)
  | some table =>
      let cl := classifyPartitionConfig table.partitionConfig
      if cl.status ≠ .alreadyRepaired then
        .error (.expectedRepaired path cl.status.toText cl.reason)
      else
        .ok ()

/-- `assertNeedsRepair` -/
def assertNeedsRepair (c : Client) (path : GoString) : GoProgram Unit := do
  let resp ← c.mustDescribeOK path true false
  Program.ofExcept (needsRepairIn path resp)

/-- `assertRepaired` -/
def assertRepaired (c : Client) (path : GoString) : GoProgram Unit := do
  let resp ← c.mustDescribeOK path true false
  Program.ofExcept (repairedIn path resp)

/-- The loop of `repairOne` that refuses existing helper paths. -/
def refuseExisting
    (c : Client) (toLower : GoString → GoString) (path : GoString) :
    List GoString → GoProgram Unit
  | [] => pure ()
  | extra :: rest => do
      let found ← c.pathExists toLower extra
      if found then
        throw (.helperPathExists path extra)
      else
        refuseExisting c toLower path rest

/-- `repairOne`: whether a backup was dropped. -/
def repairOne
    (c : Client) (toLower : GoString → GoString)
    (path : GoString) (opt : Options) :
    GoProgram Bool := do
  assertNeedsRepair c path
  let (parent, name) ← Program.ofExcept (splitPath path)
  let tempName := opt.tempPrefix ++ name
  let backupName := name ++ opt.backupSuffix
  let tempPath := joinPath parent tempName
  let backupPath := joinPath parent backupName
  refuseExisting c toLower path [tempPath, backupPath]
  if opt.dryRun then
    return opt.dropBackup
  else
    wrapError (.repairStep path .copy)
      (c.copyWithStorage path parent tempName opt.poolKind)
    wrapError (.repairStep path .tempCopyCheck) (assertRepaired c tempPath)
    wrapError (.repairStep path .renameToBackup) (c.moveTable path backupPath)
    wrapError (.repairStep path .renameTempToOriginal) (c.moveTable tempPath path)
    wrapError (.repairStep path .postCheck) (assertRepaired c path)
    if opt.dropBackup then
      wrapError (.repairStep path .dropBackup) (c.dropTable backupPath)
      return true
    else
      return false

/-- The loop of `Run`, from the table with index `i`: the result so far and
the error that stopped the batch, if any. -/
def runFrom
    (c : Client) (toLower : GoString → GoString) (opt : Options) (total : Nat) :
    Nat → List GoString → Result → GoProgram (Result × Option GoError)
  | _, [], res => return (res, none)
  | i, path :: rest, res => do
      match ← (repairOne c toLower path opt).attempt with
      | .error e =>
          if e.isAlreadyRepaired then
            runFrom c toLower opt total (i + 1) rest
              { res with skipped := res.skipped + 1 }
          else
            return (res, some (.tableOfBatch (i + 1) total e))
      | .ok dropped =>
          let res := { res with
            repaired := res.repaired + 1
            backupsDropped :=
              if dropped then res.backupsDropped + 1 else res.backupsDropped }
          match ← (Program.perform (S := stub) (.printPath path)).attempt with
          | .error e => return (res, some e)
          | .ok _ => runFrom c toLower opt total (i + 1) rest res

/-- The defaults `Run` fills in. -/
def Options.withDefaults (opt : Options) : Options :=
  { opt with
    tempPrefix := if opt.tempPrefix = [] then "temp_".toList else opt.tempPrefix
    backupSuffix := if opt.backupSuffix = [] then "_bak".toList else opt.backupSuffix }

/-- `Run` on the paths read from the tables file. -/
def run
    (c : Client) (toLower : GoString → GoString)
    (opt : Options) (paths : List GoString) :
    GoProgram (Option Result × Option GoError) :=
  if opt.poolKind = [] then
    return (none, some .poolKindRequired)
  else do
    let (res, err) ←
      runFrom c toLower opt.withDefaults paths.length 0 paths ⟨paths.length, 0, 0, 0⟩
    return (some res, err)

end LegacyTables
end YdbSnippets
