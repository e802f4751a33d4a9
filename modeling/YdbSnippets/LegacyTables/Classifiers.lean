import YdbSnippets.LegacyTables.Find
import YdbSnippets.LegacyTables.Repair
import YdbSnippets.Python.Json

/-!
# The three classifiers

Whether a table is legacy is decided in three places: `legacy_reason` of
`find_legacy_tables.py`, which reads the viewer's JSON, the `find` walk of the
Go tool, and `assertNeedsRepair` of its repair.  This file states the first
two over the same describe response and determines when all three agree.
-/

namespace YdbSnippets
namespace LegacyTables

open Effects Python

/-! ## The viewer's JSON -/

section Viewer

/-- A message as JSON: exactly the fields that are set. -/
def message (fields : List (String × Option Json)) : Json :=
  .obj (fields.filterMap fun field => field.2.map (fun value => (field.1, value)))

/-- A repeated field is shown when it has elements. -/
def repeated (items : List Json) : Option Json :=
  if items.isEmpty then none else some (.arr items)

def TStorageSettings.toJson (s : TStorageSettings) : Json :=
  message [("PreferredPoolKind", s.preferredPoolKind.map .str)]

def TStorageConfig.toJson (sc : TStorageConfig) : Json :=
  message
    [("SysLog", sc.sysLog.map TStorageSettings.toJson),
     ("Log", sc.log.map TStorageSettings.toJson),
     ("Data", sc.data.map TStorageSettings.toJson),
     ("External", sc.external.map TStorageSettings.toJson)]

def TFamilyDescription.toJson (f : TFamilyDescription) : Json :=
  message
    [("Id", f.id.map fun id => .int id.toNat),
     ("Name", f.name.map .str),
     ("StorageConfig", f.storageConfig.map TStorageConfig.toJson)]

def TPartitionConfig.toJson (pc : TPartitionConfig) : Json :=
  message
    [("ChannelProfileId", pc.channelProfileId.map fun id => .int id.toNat),
     ("ColumnFamilies", repeated (pc.columnFamilies.map TFamilyDescription.toJson))]

def TTableDescription.toJson (t : TTableDescription) : Json :=
  message
    [("Name", t.name.map .str),
     ("PartitionConfig", t.partitionConfig.map TPartitionConfig.toJson),
     ("CopyFromTable", t.copyFromTable.map .str)]

def EPathType.toJson : EPathType → Json
  | .dir => .str "EPathTypeDir".toList
  | .table => .str "EPathTypeTable".toList
  | .subDomain => .str "EPathTypeSubDomain".toList
  | .columnTable => .str "EPathTypeColumnTable".toList
  | .unnamed number => .int number

def TDirEntry.toJson (e : TDirEntry) : Json :=
  message
    [("Name", e.name.map .str),
     ("PathType", e.pathType.map EPathType.toJson)]

def TPathDescription.toJson (pd : TPathDescription) : Json :=
  message
    [("Self", pd.self.map TDirEntry.toJson),
     ("Children", repeated (pd.children.map TDirEntry.toJson)),
     ("Table", pd.table.map TTableDescription.toJson)]

/-- The reply of `/viewer/json/describe` for a describe response. -/
def viewerJson (resp : TResponse) : Json :=
  message
    [("Status", resp.status.map fun n => .int n),
     ("Reason", resp.errorReason.map .str),
     ("PathDescription", resp.pathDescription.map TPathDescription.toJson)]

/-- Looking a field of a message up. -/
theorem get_message
    {fields : List (String × Option Json)} (key : String)
    (hnames : (fields.map Prod.fst).Nodup) :
    (message fields).get key = .ok (((fields.lookup key).bind id).getD .null) := by
  unfold message
  rw [Json.get_obj]
  congr 2
  induction fields with
  | nil => rfl
  | cons field rest ih =>
      obtain ⟨name, value⟩ := field
      obtain ⟨hnew, hrest⟩ := List.nodup_cons.mp hnames
      by_cases hkey : key = name
      · subst hkey
        cases value with
        | some value => simp
        | none =>
            have hnone : rest.lookup key = none := by
              rw [List.lookup_eq_none_iff]
              intro field hfield
              simp only [bne_iff_ne, ne_eq]
              intro hsame
              rw [hsame] at hnew
              exact hnew (List.mem_map.mpr ⟨field, hfield, rfl⟩)
            have hih := ih hrest
            rw [hnone] at hih
            simpa using hih
      · have hbeq : (key == name) = false := by simpa using hkey
        cases value with
        | some value => simpa [List.lookup_cons, hbeq] using ih hrest
        | none => simpa [List.lookup_cons, hbeq] using ih hrest

/-- A message is true when a field is set. -/
theorem truthy_message
    (fields : List (String × Option Json)) :
    (message fields).truthy = fields.any (fun field => field.2.isSome) := by
  unfold message
  rw [Json.truthy_obj]
  induction fields with
  | nil => rfl
  | cons field rest ih =>
      obtain ⟨name, value⟩ := field
      cases value with
      | some value => simp
      | none => simpa using ih

theorem orElse_message
    (fields : List (String × Option Json)) :
    (message fields).orElse Json.emptyObj = message fields :=
  Json.orElse_emptyObj _

end Viewer

/-! ## The Python classifier -/

section LegacyReason

/-- The loop of `legacy_reason`: the first family whose `Id` is 0. -/
def findFamily0 : List Json → Except BuiltinError (Option Json)
  | [] => .ok none
  | family :: rest => do
      if (← family.get "Id").equalsZero then
        return some family
      else
        findFamily0 rest

/-- `legacy_reason` -/
def legacyReason (describe : Json) : Except BuiltinError (Option String) := do
  let table ← ((← describe.get "PathDescription").orElse Json.emptyObj).get "Table"
  if !table.truthy then
    return some "no PathDescription.Table"
  let partitionConfig := (← table.get "PartitionConfig").orElse Json.emptyObj
  let families := (← partitionConfig.get "ColumnFamilies").orElse Json.emptyArr
  match ← findFamily0 (← families.iterate) with
  | none => return some "no ColumnFamilies entry with Id: 0"
  | some family0 =>
      if !family0.hasKey "StorageConfig" ||
          !(← family0.get "StorageConfig").truthy then
        return some "family 0 has no StorageConfig"
      return none

/-- Some setting of a storage configuration is set, usable or not. -/
def TStorageConfig.nonEmpty (sc : TStorageConfig) : Bool :=
  sc.sysLog.isSome || sc.log.isSome || sc.data.isSome || sc.external.isSome

/-- The first family whose `Id` is set to 0. -/
def explicitFamily0 (families : List TFamilyDescription) : Option TFamilyDescription :=
  families.find? (fun f => f.id == some 0)

/-- The viewer shows a `StorageConfig` that is not empty. -/
def showsStorage (f : TFamilyDescription) : Bool :=
  f.storageConfig.any TStorageConfig.nonEmpty

theorem get_id
    (f : TFamilyDescription) :
    f.toJson.get "Id" = .ok ((f.id.map fun id => Json.int id.toNat).getD .null) := by
  unfold TFamilyDescription.toJson
  rw [get_message _ (by simp)]
  cases f.id <;> rfl

theorem findFamily0_toJson
    (families : List TFamilyDescription) :
    findFamily0 (families.map TFamilyDescription.toJson) =
      .ok ((explicitFamily0 families).map TFamilyDescription.toJson) := by
  induction families with
  | nil => rfl
  | cons f rest ih =>
      have hzero : ((f.id.map fun id => Json.int id.toNat).getD .null).equalsZero =
          (f.id == some 0) := by
        cases hid : f.id with
        | none => rfl
        | some id =>
            have hiff : ((id.toNat : Int) == 0) = (some id == some (0 : UInt32)) := by
              rw [Bool.eq_iff_iff]
              simp only [beq_iff_eq, Option.some.injEq, ← UInt32.toNat_inj, UInt32.toNat_zero]
              omega
            exact hiff
      simp only [List.map_cons, findFamily0, get_id, explicitFamily0, List.find?_cons]
      cases hcase : (f.id == some 0) with
      | true =>
          rw [hcase] at hzero
          simp only [bind, Except.bind, hzero]
          rfl
      | false =>
          rw [hcase] at hzero
          simp only [bind, Except.bind, hzero]
          exact ih

/-- The table `legacy_reason` gets to see. -/
theorem get_table
    (resp : TResponse) :
    ∃ pd, (viewerJson resp).get "PathDescription" = .ok pd ∧
      (pd.orElse Json.emptyObj).get "Table" =
        .ok ((resp.getTable.map TTableDescription.toJson).getD .null) := by
  refine ⟨(resp.pathDescription.map TPathDescription.toJson).getD .null, ?_, ?_⟩
  · unfold viewerJson
    rw [get_message _ (by simp)]
    cases resp.pathDescription <;> rfl
  · unfold TResponse.getTable
    cases resp.pathDescription with
    | none => rfl
    | some pd =>
        simp only [Option.map_some, Option.getD_some, Option.bind_some,
          TPathDescription.toJson, orElse_message]
        rw [get_message _ (by simp)]
        cases pd.table <;> rfl

/-- The families `legacy_reason` walks over. -/
theorem get_families
    (t : TTableDescription) :
    ∃ pc families, t.toJson.get "PartitionConfig" = .ok pc ∧
      (pc.orElse Json.emptyObj).get "ColumnFamilies" = .ok families ∧
      (families.orElse Json.emptyArr).iterate =
        .ok ((familiesOf t.partitionConfig).map TFamilyDescription.toJson) := by
  refine ⟨(t.partitionConfig.map TPartitionConfig.toJson).getD .null,
    (repeated ((familiesOf t.partitionConfig).map TFamilyDescription.toJson)).getD .null,
    ?_, ?_, ?_⟩
  · unfold TTableDescription.toJson
    rw [get_message _ (by simp)]
    cases t.partitionConfig <;> rfl
  · cases t.partitionConfig with
    | none => rfl
    | some pc =>
        simp only [Option.map_some, Option.getD_some, TPartitionConfig.toJson,
          orElse_message, familiesOf]
        rw [get_message _ (by simp)]
        cases pc.columnFamilies <;> rfl
  · cases familiesOf t.partitionConfig with
    | nil => rfl
    | cons f rest => rfl

theorem storage_truthy
    (f : TFamilyDescription) :
    f.toJson.get "StorageConfig" =
        .ok ((f.storageConfig.map TStorageConfig.toJson).getD .null) ∧
      ((f.storageConfig.map TStorageConfig.toJson).getD .null).truthy = showsStorage f := by
  constructor
  · unfold TFamilyDescription.toJson
    rw [get_message _ (by simp)]
    cases f.storageConfig <;> rfl
  · unfold showsStorage
    cases f.storageConfig with
    | none => rfl
    | some sc =>
        simp [TStorageConfig.toJson, truthy_message, TStorageConfig.nonEmpty,
          Bool.or_assoc]

/-- `legacy_reason` reports a table unless its first family with `Id` set to 0
shows a storage configuration. -/
theorem legacyReason_viewerJson
    (resp : TResponse) :
    (∃ reason, legacyReason (viewerJson resp) = .ok (some reason)) ↔
      (explicitFamily0 (familiesOf
        (resp.getTable.bind TTableDescription.partitionConfig))).any showsStorage = false := by
  obtain ⟨pd, hpd, htable⟩ := get_table resp
  cases ht : resp.getTable with
  | none =>
      rw [ht] at htable
      simp [legacyReason, hpd, htable, bind, Except.bind, explicitFamily0, familiesOf, pure,
        Except.pure]
  | some t =>
      rw [ht] at htable
      obtain ⟨pc, families, hpc, hfamilies, hiterate⟩ := get_families t
      simp only [legacyReason, hpd, htable, hpc, hfamilies, hiterate, findFamily0_toJson,
        bind, Except.bind, Option.map_some, Option.getD_some, Option.bind_some]
      by_cases hempty : t.toJson.truthy = true
      · simp only [hempty, Bool.not_true, Bool.false_eq_true, if_false]
        cases hfamily : explicitFamily0 (familiesOf t.partitionConfig) with
        | none => simp [pure, Except.pure]
        | some f =>
            obtain ⟨hstorage, htruthy⟩ := storage_truthy f
            simp only [Option.map_some, hstorage, htruthy, Option.any_some]
            cases hshows : showsStorage f with
            | false => simp [pure, Except.pure]
            | true =>
                have hkey : f.toJson.hasKey "StorageConfig" = true :=
                  Json.hasKey_of_truthy hstorage (htruthy.trans hshows)
                simp [hkey, pure, Except.pure]
      · -- a table message with no field set reads as no table
        have hnone : t.partitionConfig = none := by
          rw [TTableDescription.toJson, truthy_message] at hempty
          cases hconfig : t.partitionConfig with
          | none => rfl
          | some pc => simp [hconfig] at hempty
        simp [hempty, hnone, explicitFamily0, familiesOf, pure, Except.pure]

end LegacyReason

/-! ## The Go classifiers, and when all agree -/

section Agreement

/-- The classification in the walk of `find`: none for an object that is not a
table. -/
def findClassification (resp : TResponse) : Option Classification :=
  match resp.pathDescription with
  | none => none
  | some pd =>
      if isTablePathType pd.selfType then some pd.classify else none

/-- `find` writes the path to its list. -/
def listedByFind (resp : TResponse) : Prop :=
  ∃ cl, findClassification resp = some cl ∧ cl.status = .needsRepair

/-- It does: the visit of such a path writes a line. -/
theorem listedByFind_iff_visit
    (opt : FindOptions) (start path : GoString) (resp : TResponse) :
    listedByFind resp ↔ (visit opt start path (.ok resp)).lines ≠ [] := by
  unfold listedByFind findClassification
  simp only [visit]
  cases resp.pathDescription with
  | none => simp
  | some pd =>
      cases htable : isTablePathType pd.selfType with
      | true => cases hstatus : pd.classify.status <;> simp [htable, hstatus]
      | false =>
          simp only [htable, Bool.false_eq_true, if_false]
          split_ifs <;> simp

/-- `legacy_reason` returns a reason. -/
def reportedByPython (resp : TResponse) : Prop :=
  ∃ reason, legacyReason (viewerJson resp) = .ok (some reason)

/-- A server that gives one response to every describe. -/
def replies (resp : TResponse) : Handler stub GoError Unit
  | _, .printPath _ => (.ok (), ())
  | _, .schemeDescribe _ => (.ok resp, ())
  | _, .schemeOperation _ => (.ok resp, ())
  | _, .schemeOperationStatus _ => (.ok resp, ())

/-- `assertNeedsRepair` returns nil. -/
def acceptedByRepair (c : Client) (path : GoString) (resp : TResponse) : Prop :=
  ((assertNeedsRepair c path).run (replies resp) ()).1 = .ok ()

/-- The three classifiers say the same. -/
def ClassifiersAgree (c : Client) (path : GoString) (resp : TResponse) : Prop :=
  (reportedByPython resp ↔ listedByFind resp) ∧
    (reportedByPython resp ↔ acceptedByRepair c path resp)

/-- The families give the same verdict whether an unset `Id` counts as 0 or
not, and whether `External` counts as storage or not: the first family whose
`Id` is unset or 0, if any, has `Id` set to 0 and does not set `External`
alone, or leaves `Id` unset and is usable exactly when the first family with
`Id` set to 0 shows a storage configuration. -/
def SameVerdict (families : List TFamilyDescription) : Prop :=
  ∀ f, family0 families = some f →
    if f.id = some 0 then
      showsStorage f = true → hasUsableStorageConfig f.storageConfig = true
    else
      hasUsableStorageConfig f.storageConfig = true ↔
        (explicitFamily0 families).any showsStorage = true

theorem usable_shows
    (f : TFamilyDescription)
    (h : hasUsableStorageConfig f.storageConfig = true) :
    showsStorage f = true := by
  unfold showsStorage
  cases hsc : f.storageConfig with
  | none =>
      rw [hsc] at h
      cases h
  | some sc =>
      rw [hsc] at h
      simp only [hasUsableStorageConfig] at h
      simp [TStorageConfig.nonEmpty, h]

/-- A family with `Id` set to 0 counts as family 0 on both sides. -/
theorem explicitFamily0_eq
    {families : List TFamilyDescription} {f : TFamilyDescription}
    (hfirst : family0 families = some f) (hid : f.id = some 0) :
    explicitFamily0 families = some f := by
  unfold family0 at hfirst
  unfold explicitFamily0
  obtain ⟨hf, before, after, hsplit, hbefore⟩ := List.find?_eq_some_iff_append.mp hfirst
  refine List.find?_eq_some_iff_append.mpr ⟨by simp [hid], before, after, hsplit, ?_⟩
  intro g hg
  have hzero := hbefore g hg
  simp only [TFamilyDescription.getId, Bool.not_eq_eq_eq_not, Bool.not_true,
    beq_eq_false_iff_ne, ne_eq] at hzero ⊢
  intro heq
  rw [heq] at hzero
  exact hzero rfl

theorem explicitFamily0_of_none
    {families : List TFamilyDescription}
    (hnone : family0 families = none) :
    explicitFamily0 families = none := by
  unfold family0 at hnone
  unfold explicitFamily0
  rw [List.find?_eq_none] at hnone ⊢
  intro g hg hid
  apply hnone g hg
  simp only [beq_iff_eq] at hid
  simp [TFamilyDescription.getId, hid]

/-- The two readings of family 0 agree exactly when the families give the same
verdict. -/
theorem sameVerdict_iff
    (families : List TFamilyDescription) :
    SameVerdict families ↔
      (explicitFamily0 families).any showsStorage =
        (family0 families).any (fun f => hasUsableStorageConfig f.storageConfig) := by
  unfold SameVerdict
  cases hfirst : family0 families with
  | none => simp [explicitFamily0_of_none hfirst]
  | some f =>
      simp only [Option.some.injEq, forall_eq', Option.any_some]
      by_cases hid : f.id = some 0
      · rw [if_pos hid, explicitFamily0_eq hfirst hid, Option.any_some]
        constructor
        · intro h
          exact Bool.eq_iff_iff.mpr ⟨h, usable_shows f⟩
        · intro h hshows
          rw [← h]
          exact hshows
      · rw [if_neg hid]
        exact ⟨fun h => Bool.eq_iff_iff.mpr h.symm, fun h => (Bool.eq_iff_iff.mp h).symm⟩

theorem acceptedByRepair_iff
    (c : Client) (path : GoString) (resp : TResponse)
    (hok : resp.getStatus = mStatusOK) :
    acceptedByRepair c path resp ↔ needsRepairIn path resp = .ok () := by
  have hrun : ((assertNeedsRepair c path).run (replies resp) ()).1 =
      needsRepairIn path resp := by
    calc ((assertNeedsRepair c path).run (replies resp) ()).1
        = (((if resp.getStatus ≠ mStatusOK then
                Program.raise
                  (.schemeDescribeStatus path resp.getStatus resp.getErrorReason)
              else
                Program.pure resp).bind
            (fun resp => Program.ofExcept (needsRepairIn path resp))).run
              (replies resp) ()).1 := rfl
      _ = ((Program.ofExcept (needsRepairIn path resp)).run (replies resp) ()).1 := by
          rw [if_neg (not_not.mpr hok)]
          rfl
      _ = needsRepairIn path resp := by
          cases needsRepairIn path resp <;> rfl
  unfold acceptedByRepair
  rw [hrun]

/-- For a table without a channel profile, the classifiers agree exactly when
the response describes a table and its families give the same verdict. -/
theorem classifiers_agree_iff
    (c : Client) (path : GoString) (resp : TResponse) (pd : TPathDescription)
    (hok : resp.getStatus = mStatusOK)
    (hpd : resp.pathDescription = some pd)
    (htype : pd.self.map TDirEntry.getPathType = some .table)
    (hprofile : ∀ t pc, pd.table = some t → t.partitionConfig = some pc →
      pc.channelProfileId = none) :
    ClassifiersAgree c path resp ↔
      ∃ t, pd.table = some t ∧ SameVerdict (familiesOf t.partitionConfig) := by
  have hconfig : (resp.getTable.bind TTableDescription.partitionConfig) =
      pd.table.bind TTableDescription.partitionConfig := by
    simp [TResponse.getTable, hpd]
  have hstatus := classify_needsRepair_iff (pd.table.bind TTableDescription.partitionConfig) (by
    cases ht : pd.table with
    | none => rfl
    | some t =>
        cases hpc : t.partitionConfig with
        | none => simp [hpc]
        | some pc => simpa [hpc] using hprofile t pc ht hpc)
  have hfind : listedByFind resp ↔
      (classifyPartitionConfig
        (pd.table.bind TTableDescription.partitionConfig)).status = .needsRepair := by
    obtain ⟨entry, hself, hentry⟩ := Option.map_eq_some_iff.mp htype
    simp [listedByFind, findClassification, hpd, TPathDescription.selfType, hself, hentry,
      isTablePathType, TPathDescription.classify]
  unfold ClassifiersAgree reportedByPython
  rw [legacyReason_viewerJson, hconfig, hfind, acceptedByRepair_iff c path resp hok, hstatus]
  cases ht : pd.table with
  | none =>
      simp [needsRepairIn, TResponse.getTable, hpd, ht, familiesOf, family0, explicitFamily0]
  | some t =>
      have hneeds : needsRepairIn path resp = .ok () ↔
          (classifyPartitionConfig t.partitionConfig).status = .needsRepair := by
        simp only [needsRepairIn, TResponse.getTable, hpd, Option.bind_some, ht]
        cases (classifyPartitionConfig t.partitionConfig).status <;> simp
      rw [ht, Option.bind_some] at hstatus
      rw [hneeds, hstatus]
      simp only [Option.bind_some, Option.some.injEq, exists_eq_left', sameVerdict_iff]
      cases (explicitFamily0 (familiesOf t.partitionConfig)).any showsStorage <;>
        cases (family0 (familiesOf t.partitionConfig)).any
          (fun f => hasUsableStorageConfig f.storageConfig) <;>
        simp

/-- The describe response of a table with one column family. -/
def oneFamilyResponse (family : TFamilyDescription) : TResponse where
  status := some mStatusOK
  errorReason := none
  schemeStatus := none
  pathDescription := some
    { self := some ⟨some "t".toList, some .table⟩
      children := []
      table := some ⟨some "t".toList, some ⟨none, [family]⟩, none⟩ }
  flatTxId := none

/-- Family 0 with a storage configuration that only sets `External`. -/
def externalFamily : TFamilyDescription where
  id := some 0
  name := some "default".toList
  storageConfig := some ⟨none, none, none, some ⟨some "ssd".toList⟩⟩

theorem classifiers_agree_external :
    ClassifiersAgree ⟨[], 0⟩ "/db/t".toList (oneFamilyResponse externalFamily) ↔
      ∃ t, some (⟨some "t".toList, some ⟨none, [externalFamily]⟩, none⟩ :
          TTableDescription) = some t ∧
        SameVerdict (familiesOf t.partitionConfig) := by
  refine classifiers_agree_iff ⟨[], 0⟩ "/db/t".toList (oneFamilyResponse externalFamily) _
    rfl rfl rfl ?_
  intro t pc ht hpc
  cases ht
  cases hpc
  rfl

/-- `find` lists a table whose family 0 only has `External`; the Python script
does not. -/
theorem external_storage_disagreement :
    ¬ ∀ (c : Client) (path : GoString) (resp : TResponse) (pd : TPathDescription),
        resp.getStatus = mStatusOK →
        resp.pathDescription = some pd →
        pd.self.map TDirEntry.getPathType = some .table →
        (∀ t pc, pd.table = some t → t.partitionConfig = some pc →
          pc.channelProfileId = none) →
        ClassifiersAgree c path resp := by
  intro hclaim
  have hagree := hclaim ⟨[], 0⟩ "/db/t".toList (oneFamilyResponse externalFamily) _
    rfl rfl rfl (by
      intro t pc ht hpc
      cases ht
      cases hpc
      rfl)
  have hlisted : listedByFind (oneFamilyResponse externalFamily) :=
    ⟨_, rfl, rfl⟩
  obtain ⟨reason, hreason⟩ := hagree.1.mpr hlisted
  have hnone : legacyReason (viewerJson (oneFamilyResponse externalFamily)) = .ok none :=
    rfl
  rw [hnone] at hreason
  cases hreason

end Agreement

end LegacyTables
end YdbSnippets
