import YdbSnippets.LegacyTables.Messages

/-!
# Classification of a table's partition configuration

`internal/legacy/classify.go`: whether the column-family repair applies to a
table.  `find` and `repair` both classify with this function.
-/

namespace YdbSnippets
namespace LegacyTables

/-- Status of a table relative to the column-family repair procedure. -/
inductive Status
  | needsRepair
  | alreadyRepaired
  | unsafeToRepair
deriving DecidableEq, Repr

/-- The result of inspecting a `PartitionConfig`. -/
structure Classification where
  status : Status
  reason : String
deriving DecidableEq, Repr

/-- `hasUsableStorageConfig`: one of the three storage settings is set. -/
def hasUsableStorageConfig : Option TStorageConfig → Bool
  | none => false
  | some sc => sc.sysLog.isSome || sc.log.isSome || sc.data.isSome

/-- `ClassifyPartitionConfig` -/
def classifyPartitionConfig (pc : Option TPartitionConfig) : Classification :=
  match pc with
  | none => ⟨.needsRepair, "no PartitionConfig"⟩
  | some pc =>
      if pc.channelProfileId.isSome then
        ⟨.unsafeToRepair, "PartitionConfig.ChannelProfileId is set"⟩
      else if pc.columnFamilies.isEmpty then
        ⟨.needsRepair, "no ColumnFamilies entry with Id: 0"⟩
      else
        match pc.columnFamilies.find? (fun f => f.getId == 0) with
        | none => ⟨.needsRepair, "no ColumnFamilies entry with Id: 0"⟩
        | some family0 =>
            if hasUsableStorageConfig family0.storageConfig then
              ⟨.alreadyRepaired, "family 0 has StorageConfig"⟩
            else
              ⟨.needsRepair, "family 0 has no StorageConfig"⟩

/-- `IsDirectoryPathType` -/
def isDirectoryPathType : EPathType → Bool
  | .dir | .subDomain => true
  | _ => false

/-- `IsTablePathType` -/
def isTablePathType (t : EPathType) : Bool :=
  t == .table

/-- `selfType`: a description without `Self` counts as a directory. -/
def TPathDescription.selfType (pd : TPathDescription) : EPathType :=
  match pd.self with
  | some e => e.getPathType
  | none => .dir

/-- `legacy.ClassifyPartitionConfig(pd.GetTable().GetPartitionConfig())` -/
def TPathDescription.classify (pd : TPathDescription) : Classification :=
  classifyPartitionConfig (pd.table.bind TTableDescription.partitionConfig)

/-- The column families of an optional configuration. -/
def familiesOf (pc : Option TPartitionConfig) : List TFamilyDescription :=
  (pc.map TPartitionConfig.columnFamilies).getD []

/-- Family 0 as the Go code reads it: an unset `Id` is zero. -/
def family0 (families : List TFamilyDescription) : Option TFamilyDescription :=
  families.find? (fun f => f.getId == 0)

/-- Without a channel profile the status says whether family 0 has a usable
storage configuration, and nothing is unsafe. -/
theorem classify_status
    (pc : Option TPartitionConfig)
    (hprofile : pc.bind TPartitionConfig.channelProfileId = none) :
    (classifyPartitionConfig pc).status =
      if (family0 (familiesOf pc)).any
          (fun f => hasUsableStorageConfig f.storageConfig) then
        .alreadyRepaired
      else
        .needsRepair := by
  cases pc with
  | none => rfl
  | some pc =>
      have hnone : pc.channelProfileId = none := by
        simpa using hprofile
      cases hfam : pc.columnFamilies with
      | nil =>
          simp [classifyPartitionConfig, familiesOf, family0, hnone, hfam]
      | cons f rest =>
          cases hfind : (f :: rest).find? (fun f => f.getId == 0) with
          | none =>
              simp [classifyPartitionConfig, familiesOf, family0, hnone, hfam, hfind]
          | some g =>
              simp only [classifyPartitionConfig, familiesOf, family0, hnone, hfam, hfind,
                Option.isSome_none, Bool.false_eq_true, if_false, List.isEmpty_cons,
                Option.map_some, Option.getD_some, Option.any_some]
              split <;> rfl

/-- A table without a channel profile needs the repair when family 0 has no
usable storage configuration. -/
theorem classify_needsRepair_iff
    (pc : Option TPartitionConfig)
    (hprofile : pc.bind TPartitionConfig.channelProfileId = none) :
    (classifyPartitionConfig pc).status = .needsRepair ↔
      (family0 (familiesOf pc)).any
        (fun f => hasUsableStorageConfig f.storageConfig) = false := by
  rw [classify_status pc hprofile]
  split
  · next h => simp [h]
  · next h => simp [h]

end LegacyTables
end YdbSnippets
