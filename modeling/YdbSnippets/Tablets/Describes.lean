import YdbSnippets.Python.Values
import YdbSnippets.Tablets.Inflight

/-!
# What a describe says of an object

`manage_tablets.py`: the types of scheme objects, the status of a describe, and
the tablets of an object as its description lists them.
-/

namespace YdbSnippets
namespace Tablets

open Python Text Matching

section Types

/-- `SCHEME_TYPE_BY_NUMBER` -/
def schemeTypeByNumber : List (Int × String) :=
  [(1, "DIRECTORY"), (2, "TABLE"), (3, "PERS_QUEUE_GROUP"), (4, "DATABASE"),
    (9, "TABLE_INDEX"), (12, "COLUMN_STORE"), (13, "COLUMN_TABLE"), (14, "CDC_STREAM"),
    (17, "TOPIC")]

/-- `SCHEME_TYPE_ALIASES` -/
def schemeTypeAliases : List (String × String) :=
  [("DIR", "DIRECTORY"), ("SUBDOMAIN", "DATABASE"), ("EXTSUBDOMAIN", "DATABASE"),
    ("PERSQUEUEGROUP", "PERS_QUEUE_GROUP"), ("CDCSTREAM", "CDC_STREAM"),
    ("TABLEINDEX", "TABLE_INDEX"), ("COLUMNSTORE", "COLUMN_STORE"),
    ("COLUMNTABLE", "COLUMN_TABLE"), ("STREAMIMPL", "STREAM_IMPL")]

/-- `INDEX_TYPE_BY_NUMBER` -/
def indexTypeByNumber : List (Int × String) :=
  [(0, "INVALID"), (1, "GLOBAL"), (2, "GLOBALASYNC"), (3, "GLOBALUNIQUE"),
    (4, "GLOBALVECTORKMEANSTREE"), (5, "GLOBALFULLTEXTPLAIN"),
    (6, "GLOBALFULLTEXTRELEVANCE"), (7, "GLOBALJSON"), (8, "LOCALBLOOMFILTER"),
    (9, "LOCALBLOOMNGRAMFILTER"), (10, "LOCALMINMAX"), (11, "GLOBALFULLTEXTCOMPACT"),
    (12, "GLOBALFULLTEXTCOMPACTRELEVANCE"), (13, "GLOBALJSONCOMPACT"),
    (14, "LOCALCOUNTMINSKETCH")]

/-- `names.get(n, default)` -/
def nameOfNumber (names : List (Int × String)) (n : Int) (default : Str) : Str :=
  match names.lookup n with
  | some name => name.toList
  | none => default

/-- `SCHEME_TYPE_ALIASES.get(text, text)` -/
def schemeTypeAlias (text : Str) : Str :=
  match schemeTypeAliases.find? fun entry => entry.1.toList == text with
  | some entry => entry.2.toList
  | none => text

/-- The text without the first of the prefixes it starts with. -/
def dropFirstPrefix (text : Str) : List String → Str
  | [] => text
  | pre :: others =>
      if pre.toList.isPrefixOf text then text.drop pre.length
      else dropFirstPrefix text others

variable (py : Interpreter) (printer : Printer)

/-- `scheme_type_name` -/
def schemeTypeName (value : Json) : Except BuiltinError Str :=
  match value with
  | .null => .ok []
  | .bool b => .ok (nameOfNumber schemeTypeByNumber b.toInt (value.text printer))
  | .int n => .ok (nameOfNumber schemeTypeByNumber n (value.text printer))
  | value =>
      let text := strip (value.text printer)
      if allDigits py text then
        match parseInt py text with
        | none => .error .valueError
        | some n => .ok (nameOfNumber schemeTypeByNumber n text)
      else
        let text := printer.upper (afterLastDot text)
        .ok (schemeTypeAlias (dropFirstPrefix text ["EPATHTYPE", "EPATHSUBTYPE"]))

/-- `norm_status` -/
def normStatus (status : Json) : Option Str :=
  if status.isNone then none
  else some (printer.upper (afterLastDot (strip (status.text printer))))

/-- The status has one of these names. -/
def statusIn (names : List String) (status : Json) : Bool :=
  match normStatus printer status with
  | none => false
  | some name => names.any fun known => known.toList == name

/-- `is_deleted_partition` -/
def isDeletedPartition (status : Json) : Bool :=
  statusIn printer ["3", "DELETED"] status

/-- `describe_is_success` -/
def describeIsSuccess (payload : Json) : Bool :=
  match payload.get "Status" with
  | .error _ => false
  | .ok status =>
      if status.isNone then payload.hasKey "PathDescription"
      else statusIn printer ["0", "STATUSSUCCESS", "SUCCESS", "OK"] status

end Types

section Fields

variable (py : Interpreter) (printer : Printer)

/-- `as_int(value.get(key))` -/
def intField (value : Json) (key : String) : Except BuiltinError (Option Int) := do
  let found ← value.get key
  found.asInt py printer

/-- `value.get(key) or {}` -/
def dictField (value : Json) (key : String) : Except BuiltinError Json := do
  let found ← value.get key
  return found.orElse Json.emptyObj

/-- The items of `value.get(key) or []`. -/
def listField (value : Json) (key : String) : Except BuiltinError (List Json) := do
  let found ← value.get key
  (found.orElse Json.emptyArr).iterate

end Fields

section Extractors

variable (py : Interpreter) (printer : Printer)

/-- A partition of a topic. -/
def addPartition (tablets : TabletMap) (part : Json) : Except BuiltinError TabletMap :=
  if part.isDict then do
    let status ← part.get "Status"
    if isDeletedPartition printer status then return tablets
    let tabletId ← intField py printer part "TabletId"
    let partitionId ← intField py printer part "PartitionId"
    return addTablet tablets tabletId "partition".toList partitionId
  else return tablets

/-- `(describe.get('PathDescription') or {}).get('PersQueueGroup') or {}` -/
def topicGroup (describe : Json) : Except BuiltinError Json := do
  let description ← dictField describe "PathDescription"
  dictField description "PersQueueGroup"

/-- `extract_topic_tablets` -/
def extractTopicTablets (describe : Json) : Except BuiltinError (Option TabletMap) := do
  let pq ← topicGroup describe
  if !pq.truthy then return none
  let parts ← listField pq "Partitions"
  let tablets ← parts.foldlM (addPartition py printer) Dict.empty
  let balancer ← intField py printer pq "BalancerTabletID"
  return some (addTablet tablets balancer "balancer".toList none)

/-- A partition of a table. -/
def addDatashard (tablets : TabletMap) (part : Json) : Except BuiltinError TabletMap :=
  if part.isDict then do
    let tabletId ← intField py printer part "DatashardId"
    return addTablet tablets tabletId "datashard".toList none
  else return tablets

/-- `'Table' in path_description or 'TablePartitions' in path_description` -/
def hasTablePayload (description : Json) : Except BuiltinError Bool := do
  let isTable ← description.contains "Table"
  if isTable then return true
  description.contains "TablePartitions"

/-- `extract_table_tablets` -/
def extractTableTablets (describe : Json) : Except BuiltinError (Option TabletMap) := do
  let description ← dictField describe "PathDescription"
  let isTable ← hasTablePayload description
  if !isTable then return none
  let parts ← listField description "TablePartitions"
  let tablets ← parts.foldlM (addDatashard py printer) Dict.empty
  return some tablets

/-- The tablet id of an entry of a list of column shards. -/
def columnShardId (value : Json) : Except BuiltinError (Option Int) :=
  if value.isDict then do
    let tabletId ← value.get "TabletId"
    let columnShard ← value.get "ColumnShard"
    let shardIdx ← value.get "ShardIdx"
    ((tabletId.orElse columnShard).orElse shardIdx).asInt py printer
  else value.asInt py printer

/-- An entry of `_column_shard_ids`. -/
def addColumnShard (tablets : TabletMap) (value : Json) : Except BuiltinError TabletMap := do
  let tabletId ← columnShardId py printer value
  return addTablet tablets tabletId "columnshard".toList none

/-- The tablets of the column shards under this key. -/
def columnShardTablets (owner : Json) : Except BuiltinError (Option TabletMap) := do
  let values ← listField owner "ColumnShards"
  let tablets ← values.foldlM (addColumnShard py printer) Dict.empty
  return some tablets

/-- `extract_column_table_tablets` -/
def extractColumnTableTablets (describe : Json) : Except BuiltinError (Option TabletMap) := do
  let description ← dictField describe "PathDescription"
  let isColumnTable ← description.contains "ColumnTableDescription"
  if !isColumnTable then return none
  let table ← dictField description "ColumnTableDescription"
  let sharding ← dictField table "Sharding"
  columnShardTablets py printer sharding

/-- `extract_column_store_tablets` -/
def extractColumnStoreTablets (describe : Json) : Except BuiltinError (Option TabletMap) := do
  let description ← dictField describe "PathDescription"
  let isColumnStore ← description.contains "ColumnStoreDescription"
  if !isColumnStore then return none
  let store ← dictField description "ColumnStoreDescription"
  columnShardTablets py printer store

/-- The extractors. -/
inductive Extractor
  | topic
  | table
  | columnTable
  | columnStore
deriving DecidableEq, Repr

/-- `EXTRACTORS` -/
def extractors : List (String × Extractor) :=
  [("TOPIC", .topic), ("PERS_QUEUE_GROUP", .topic), ("TABLE", .table),
    ("COLUMN_TABLE", .columnTable), ("COLUMN_STORE", .columnStore)]

/-- `EXTRACTORS.get(scheme_type)` -/
def extractorOf (schemeType : Str) : Option Extractor :=
  (extractors.find? fun entry => entry.1.toList == schemeType).map Prod.snd

def Extractor.run (describe : Json) : Extractor → Except BuiltinError (Option TabletMap)
  | .topic => extractTopicTablets py printer describe
  | .table => extractTableTablets py printer describe
  | .columnTable => extractColumnTableTablets py printer describe
  | .columnStore => extractColumnStoreTablets py printer describe

/-- `tablets_from_describe`; a type without an extractor is a `ValueError`. -/
def tabletsFromDescribe (schemeType : Str) (describe : Json) :
    Except BuiltinError (Option TabletMap) :=
  match extractorOf schemeType with
  | none => .error .valueError
  | some extractor => extractor.run py printer describe

end Extractors

section Extracted

variable {py : Interpreter} {printer : Printer}

/-- The description of an object lists this tablet. -/
inductive Reports (py : Interpreter) (printer : Printer) : Extractor → Json → Int → Prop
  | partition
      {describe pq part status : Json} {parts : List Json} {t : Int}
      (hgroup : topicGroup describe = .ok pq)
      (hparts : listField pq "Partitions" = .ok parts)
      (hmem : part ∈ parts)
      (hstatus : part.get "Status" = .ok status)
      (hkept : isDeletedPartition printer status = false)
      (hid : intField py printer part "TabletId" = .ok (some t)) (hne : t ≠ 0) :
      Reports py printer .topic describe t
  | balancer
      {describe pq : Json} {t : Int}
      (hgroup : topicGroup describe = .ok pq)
      (hid : intField py printer pq "BalancerTabletID" = .ok (some t)) (hne : t ≠ 0) :
      Reports py printer .topic describe t
  | datashard
      {describe description part : Json} {parts : List Json} {t : Int}
      (hdescription : dictField describe "PathDescription" = .ok description)
      (hparts : listField description "TablePartitions" = .ok parts)
      (hmem : part ∈ parts)
      (hid : intField py printer part "DatashardId" = .ok (some t)) (hne : t ≠ 0) :
      Reports py printer .table describe t
  | tableShard
      {describe description table sharding value : Json} {values : List Json} {t : Int}
      (hdescription : dictField describe "PathDescription" = .ok description)
      (htable : dictField description "ColumnTableDescription" = .ok table)
      (hsharding : dictField table "Sharding" = .ok sharding)
      (hvalues : listField sharding "ColumnShards" = .ok values)
      (hmem : value ∈ values)
      (hid : columnShardId py printer value = .ok (some t)) (hne : t ≠ 0) :
      Reports py printer .columnTable describe t
  | storeShard
      {describe description store value : Json} {values : List Json} {t : Int}
      (hdescription : dictField describe "PathDescription" = .ok description)
      (hstore : dictField description "ColumnStoreDescription" = .ok store)
      (hvalues : listField store "ColumnShards" = .ok values)
      (hmem : value ∈ values)
      (hid : columnShardId py printer value = .ok (some t)) (hne : t ≠ 0) :
      Reports py printer .columnStore describe t

theorem mem_keys_addTablet_option
    {tablets : TabletMap} {tabletId : Option Int} {t : Int} {role : Str} {partId : Option Int} :
    t ∈ (addTablet tablets tabletId role partId).keys ↔
      (tabletId = some t ∧ t ≠ 0) ∨ t ∈ tablets.keys := by
  cases tabletId with
  | none => simp [addTablet]
  | some tabletId =>
      rw [mem_keys_addTablet, Option.some.injEq]
      refine or_congr_left ?_
      constructor
      · rintro ⟨rfl, hne⟩
        exact ⟨rfl, hne⟩
      · rintro ⟨rfl, hne⟩
        exact ⟨rfl, hne⟩

/-- A loop that adds the tablets of its items has the tablets of all of them. -/
theorem mem_keys_foldlM
    {step : TabletMap → Json → Except BuiltinError TabletMap} {adds : Json → Int → Prop}
    (hstep : ∀ tablets item tablets', step tablets item = .ok tablets' →
      ∀ t, t ∈ tablets'.keys ↔ adds item t ∨ t ∈ tablets.keys)
    {items : List Json} {tablets tablets' : TabletMap}
    (h : items.foldlM step tablets = .ok tablets') (t : Int) :
    t ∈ tablets'.keys ↔ (∃ item ∈ items, adds item t) ∨ t ∈ tablets.keys := by
  induction items generalizing tablets with
  | nil =>
      cases h
      simp
  | cons item rest ih =>
      rw [List.foldlM_cons] at h
      obtain ⟨next, hnext, hrest⟩ := bind_ok_iff.mp h
      rw [ih hrest, hstep tablets item next hnext]
      rw [List.exists_mem_cons_iff]
      exact or_left_comm.trans or_assoc.symm

/-- The partition has this tablet and is not deleted. -/
def AddsPartition (py : Interpreter) (printer : Printer) (part : Json) (t : Int) : Prop :=
  ∃ status, part.get "Status" = .ok status ∧ isDeletedPartition printer status = false ∧
    intField py printer part "TabletId" = .ok (some t) ∧ t ≠ 0

theorem addPartition_keys
    (tablets : TabletMap) (part : Json) (tablets' : TabletMap)
    (h : addPartition py printer tablets part = .ok tablets') (t : Int) :
    t ∈ tablets'.keys ↔ AddsPartition py printer part t ∨ t ∈ tablets.keys := by
  unfold addPartition at h
  unfold AddsPartition
  split at h
  · obtain ⟨status, hstatus, h⟩ := bind_ok_iff.mp h
    cases hdeleted : isDeletedPartition printer status with
    | true =>
        rw [hdeleted] at h
        cases h
        simp [hstatus, hdeleted]
    | false =>
        rw [hdeleted] at h
        obtain ⟨tabletId, hid, h⟩ := bind_ok_iff.mp h
        obtain ⟨partitionId, -, h⟩ := bind_ok_iff.mp h
        cases h
        rw [mem_keys_addTablet_option]
        simp [hstatus, hdeleted, hid]
  · next hdict =>
      cases h
      have hget : ∀ status, part.get "Status" ≠ .ok status := by
        intro status hstatus
        cases part with
        | obj fields => exact hdict rfl
        | null | bool _ | int _ | float _ | str _ | arr _ => cases hstatus
      simp [hget]

theorem addDatashard_keys
    (tablets : TabletMap) (part : Json) (tablets' : TabletMap)
    (h : addDatashard py printer tablets part = .ok tablets') (t : Int) :
    t ∈ tablets'.keys ↔
      (intField py printer part "DatashardId" = .ok (some t) ∧ t ≠ 0) ∨ t ∈ tablets.keys := by
  unfold addDatashard at h
  split at h
  · obtain ⟨tabletId, hid, h⟩ := bind_ok_iff.mp h
    cases h
    rw [mem_keys_addTablet_option, hid, Except.ok.injEq]
  · next hdict =>
      cases h
      have hget : intField py printer part "DatashardId" ≠ .ok (some t) := by
        intro hid
        cases part with
        | obj fields => exact hdict rfl
        | null | bool _ | int _ | float _ | str _ | arr _ => cases hid
      simp [hget]

theorem addColumnShard_keys
    (tablets : TabletMap) (value : Json) (tablets' : TabletMap)
    (h : addColumnShard py printer tablets value = .ok tablets') (t : Int) :
    t ∈ tablets'.keys ↔
      (columnShardId py printer value = .ok (some t) ∧ t ≠ 0) ∨ t ∈ tablets.keys := by
  obtain ⟨tabletId, hid, h⟩ := bind_ok_iff.mp h
  cases h
  rw [mem_keys_addTablet_option, hid, Except.ok.injEq]

/-- The tablets under the `ColumnShards` of a description. -/
theorem columnShardTablets_keys
    {owner : Json} {tablets : TabletMap}
    (h : columnShardTablets py printer owner = .ok (some tablets)) (t : Int) :
    t ∈ tablets.keys ↔
      ∃ values, listField owner "ColumnShards" = .ok values ∧
        ∃ value ∈ values, columnShardId py printer value = .ok (some t) ∧ t ≠ 0 := by
  obtain ⟨values, hvalues, h⟩ := bind_ok_iff.mp h
  obtain ⟨found, hfound, h⟩ := bind_ok_iff.mp h
  cases h
  rw [mem_keys_foldlM addColumnShard_keys hfound]
  simp [hvalues]

/-- What an extractor returns are the tablets that the description lists. -/
theorem mem_keys_extracted
    {extractor : Extractor} {describe : Json} {tablets : TabletMap}
    (h : extractor.run py printer describe = .ok (some tablets)) (t : Int) :
    t ∈ tablets.keys ↔ Reports py printer extractor describe t := by
  cases extractor with
  | topic =>
      obtain ⟨pq, hgroup, h⟩ := bind_ok_iff.mp h
      split at h
      · cases h
      · obtain ⟨parts, hparts, h⟩ := bind_ok_iff.mp h
        obtain ⟨found, hfound, h⟩ := bind_ok_iff.mp h
        obtain ⟨balancer, hbalancer, h⟩ := bind_ok_iff.mp h
        cases h
        rw [mem_keys_addTablet_option, mem_keys_foldlM addPartition_keys hfound]
        constructor
        · rintro (⟨rfl, hne⟩ | ⟨part, hmem, status, hstatus, hkept, hid, hne⟩ | hempty)
          · exact .balancer hgroup hbalancer hne
          · exact .partition hgroup hparts hmem hstatus hkept hid hne
          · cases hempty
        · intro hreports
          cases hreports with
          | partition hgroup' hparts' hmem hstatus hkept hid hne =>
              obtain rfl := Except.ok.inj (hgroup.symm.trans hgroup')
              obtain rfl := Except.ok.inj (hparts.symm.trans hparts')
              exact Or.inr (Or.inl ⟨_, hmem, _, hstatus, hkept, hid, hne⟩)
          | balancer hgroup' hid hne =>
              obtain rfl := Except.ok.inj (hgroup.symm.trans hgroup')
              exact Or.inl ⟨Except.ok.inj (hbalancer.symm.trans hid), hne⟩
  | table =>
      obtain ⟨description, hdescription, h⟩ := bind_ok_iff.mp h
      obtain ⟨isTable, -, h⟩ := bind_ok_iff.mp h
      split at h
      · cases h
      · obtain ⟨parts, hparts, h⟩ := bind_ok_iff.mp h
        obtain ⟨found, hfound, h⟩ := bind_ok_iff.mp h
        cases h
        rw [mem_keys_foldlM addDatashard_keys hfound]
        constructor
        · rintro (⟨part, hmem, hid, hne⟩ | hempty)
          · exact .datashard hdescription hparts hmem hid hne
          · cases hempty
        · intro hreports
          cases hreports with
          | datashard hdescription' hparts' hmem hid hne =>
              obtain rfl := Except.ok.inj (hdescription.symm.trans hdescription')
              obtain rfl := Except.ok.inj (hparts.symm.trans hparts')
              exact Or.inl ⟨_, hmem, hid, hne⟩
  | columnTable =>
      obtain ⟨description, hdescription, h⟩ := bind_ok_iff.mp h
      obtain ⟨isColumnTable, -, h⟩ := bind_ok_iff.mp h
      split at h
      · cases h
      · obtain ⟨table, htable, h⟩ := bind_ok_iff.mp h
        obtain ⟨sharding, hsharding, h⟩ := bind_ok_iff.mp h
        rw [columnShardTablets_keys h]
        constructor
        · rintro ⟨values, hvalues, value, hmem, hid, hne⟩
          exact .tableShard hdescription htable hsharding hvalues hmem hid hne
        · intro hreports
          cases hreports with
          | tableShard hdescription' htable' hsharding' hvalues hmem hid hne =>
              obtain rfl := Except.ok.inj (hdescription.symm.trans hdescription')
              obtain rfl := Except.ok.inj (htable.symm.trans htable')
              obtain rfl := Except.ok.inj (hsharding.symm.trans hsharding')
              exact ⟨_, hvalues, _, hmem, hid, hne⟩
  | columnStore =>
      obtain ⟨description, hdescription, h⟩ := bind_ok_iff.mp h
      obtain ⟨isColumnStore, -, h⟩ := bind_ok_iff.mp h
      split at h
      · cases h
      · obtain ⟨store, hstore, h⟩ := bind_ok_iff.mp h
        rw [columnShardTablets_keys h]
        constructor
        · rintro ⟨values, hvalues, value, hmem, hid, hne⟩
          exact .storeShard hdescription hstore hvalues hmem hid hne
        · intro hreports
          cases hreports with
          | storeShard hdescription' hstore' hvalues hmem hid hne =>
              obtain rfl := Except.ok.inj (hdescription.symm.trans hdescription')
              obtain rfl := Except.ok.inj (hstore.symm.trans hstore')
              exact ⟨_, hvalues, _, hmem, hid, hne⟩

end Extracted

end Tablets
end YdbSnippets
