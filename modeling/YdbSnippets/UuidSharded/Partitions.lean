import YdbSnippets.Lists.Matching
import YdbSnippets.Lists.Ranges
import YdbSnippets.Python.Hex
import YdbSnippets.Python.Values
import YdbSnippets.UuidSharded.Uuids
import Mathlib.Data.List.Lex
import Mathlib.Order.Basic

/-!
# Rows of each partition

`partition_analysis.py` reads the partitions of a table with their key bounds, from
the SDK or from the CLI, and counts the rows between the bounds of each.
-/

namespace YdbSnippets
namespace UuidSharded

open Matching Python Ranges

section Bounds

/-- `KeyBound.value` -/
inductive SdkValue
  | uuid (u : Uuid)
  | bytes (data : List (BitVec 8))
  | tuple (items : List SdkValue)
  | other

/-- `isinstance(value, (bytes, bytearray))` -/
def SdkValue.asBytes : SdkValue → Option (List (BitVec 8))
  | .bytes data => some data
  | .uuid _ | .tuple _ | .other => none

/-- `uuid_from_key_bound` -/
def uuidFromKeyBound : Option SdkValue → Option (List (BitVec 8))
  | none => none
  | some (.tuple []) => none
  | some (.tuple (value :: _)) => value.asBytes
  | some value => value.asBytes

/-- A bound of a partition, as `bytes` or as a JSON value. -/
inductive KeyValue
  | bytes (data : List (BitVec 8))
  | json (value : Json)

/-- A partition of the list that `load_partition_ranges` returns. -/
structure Item where
  datashardId : Json
  lower : KeyValue
  upper : KeyValue

/-- What the loop of `partition_ranges_from_scheme_json` reads of a partition. -/
def readPartition (part : Json) : Except BuiltinError Item := do
  let keyRange ← part.getOr "KeyRange" Json.emptyObj
  return {
    datashardId := ← part.get "DatashardId"
    lower := .json (← keyRange.get "From")
    upper := .json (← keyRange.get "To") }

/-- `partition_ranges_from_scheme_json` -/
def partitionRangesFromSchemeJson (describe : Json) : Except BuiltinError (List Item) := do
  let description ← describe.getOr "PathDescription" Json.emptyObj
  let partitions ← description.getOr "TablePartitions" Json.emptyArr
  (← partitions.iterate).mapM readPartition

/-- A converted bound, `None` if there is none. -/
def KeyValue.ofBytes : Option (List (BitVec 8)) → KeyValue
  | some data => .bytes data
  | none => .json .null

/-- `partition_ranges_from_table_describe`, for the key ranges of the table that was
described. -/
def partitionRangesFromTableDescribe (shardKeyRanges : List (Option SdkValue × Option SdkValue)) :
    List Item :=
  shardKeyRanges.map fun keyRange => {
    datashardId := .null
    lower := .ofBytes (uuidFromKeyBound keyRange.1)
    upper := .ofBytes (uuidFromKeyBound keyRange.2) }

/-- `raw.replace("-", "")` -/
def withoutDashes (raw : Str) : Str :=
  raw.filter fun c => c != '-'

/-- `bytes.fromhex`, which raises a `ValueError`. -/
def bytesFromHex (text : Str) : Except BuiltinError (List (BitVec 8)) :=
  match fromHex text with
  | some data => .ok data
  | none => .error .valueError

/-- The part of `decode_uuid_key` for the key `Value`. -/
def decodeValueField (fields : List (String × Json)) :
    Except BuiltinError (Option (List (BitVec 8))) :=
  match fields.lookup "Value" with
  | some (.str text) =>
      if text.length = 32 then some <$> bytesFromHex text else .ok none
  | _ => .ok none

/-- `decode_uuid_key` -/
def decodeUuidKey : KeyValue → Except BuiltinError (Option (List (BitVec 8)))
  | .bytes data => .ok (some data)
  | .json (.obj fields) =>
      match fields.lookup "Uuid" with
      | some (.str raw) => some <$> bytesFromHex (withoutDashes raw)
      | _ => decodeValueField fields
  | .json _ => .ok none

/-- `bytes_to_uuid_param` -/
def bytesToUuidParam (value : List (BitVec 8)) : Except BuiltinError Uuid :=
  match Uuid.ofBytesLe value with
  | some u => .ok u
  | none => .error .valueError

end Bounds

section Counting

/-- The database compares ids by their keys. -/
instance : LinearOrder Uuid :=
  LinearOrder.lift' Uuid.key Uuid.key_injective

/-- The parameters `$lo` and `$hi` of the query. -/
def queryParams (lower upper : Option (List (BitVec 8))) :
    Except BuiltinError (Option Uuid × Option Uuid) := do
  let lo ← lower.mapM bytesToUuidParam
  let hi ← upper.mapM bytesToUuidParam
  return (lo, hi)

/-- `SELECT COUNT(*) ... WHERE id >= $lo AND id < $hi` -/
def selectCount (rows : List Uuid) (params : Option Uuid × Option Uuid) : Nat :=
  rows.countP fun id => Within params id

/-- `count_rows_in_range` -/
def countRowsInRange (rows : List Uuid) (lower upper : Option (List (BitVec 8))) :
    Except BuiltinError Nat :=
  selectCount rows <$> queryParams lower upper

/-- The range that is queried for a partition. -/
def queriedRange (item : Item) : Except BuiltinError (Option Uuid × Option Uuid) := do
  queryParams (← decodeUuidKey item.lower) (← decodeUuidKey item.upper)

/-- The fields `partitions` and `row_count_total` of the result of `analyze`. -/
structure Analysis where
  partitions : List (Item × Nat)
  rowCountTotal : Nat

/-- The counts of `analyze`, which are skipped for fewer than two partitions. -/
def analyze (rows : List Uuid) (ranges : List Item) : Except BuiltinError (Option Analysis) :=
  if ranges.length < 2 then .ok none
  else do
    let partitions ← ranges.mapM fun item => do
      let lower ← decodeUuidKey item.lower
      let upper ← decodeUuidKey item.upper
      let count ← countRowsInRange rows lower upper
      return (item, count)
    return some ⟨partitions, (partitions.map Prod.snd).sum⟩

end Counting

section Reports

/-- `str(u)` -/
def Uuid.text (u : Uuid) : Str :=
  let hex := hexOf u.bytes.toList
  hex.take 8 ++ '-' :: (hex.drop 8).take 4 ++ '-' :: (hex.drop 12).take 4 ++
    '-' :: (hex.drop 16).take 4 ++ '-' :: hex.drop 20

/-- The SDK reports a bound as a `uuid.UUID` or as its internal bytes, by itself or as
the first component of a key. -/
def SdkReports (value : Uuid → SdkValue) : Prop :=
  ∀ u, ∃ base, (base = .uuid u ∨ base = .bytes u.bytesLe.toList) ∧
    (value u = base ∨ ∃ rest, value u = .tuple (base :: rest))

/-- The SDK's value is the internal bytes, and not a `uuid.UUID`. -/
def IsBytes (value : SdkValue) : Prop :=
  ∃ data, value = .bytes data ∨ ∃ rest, value = .tuple (.bytes data :: rest)

/-- The partitions between the bounds, as the SDK reports them. -/
def sdkKeyRanges (value : Uuid → SdkValue) (bounds : List Uuid) :
    List (Option SdkValue × Option SdkValue) :=
  (rangesFrom none bounds).map fun range => (range.1.map value, range.2.map value)

/-- The CLI writes a bound as the text of the UUID, and leaves a missing one out or
writes `null`. -/
def IsCliBound (bound : Option Uuid) (value : Option Json) : Prop :=
  match bound with
  | some u => ∃ fields, value = some (.obj fields) ∧
      fields.lookup "Uuid" = some (.str u.text)
  | none => value = none ∨ value = some .null

/-- A partition of the CLI's output. -/
def IsCliPartition (range : Option Uuid × Option Uuid) (part : Json) : Prop :=
  ∃ fields keyRange, part = .obj fields ∧ fields.lookup "KeyRange" = some (.obj keyRange) ∧
    IsCliBound range.1 (keyRange.lookup "From") ∧ IsCliBound range.2 (keyRange.lookup "To")

/-- The CLI's output for a table with the partitions between the bounds. -/
def CliReports (describe : Json) (bounds : List Uuid) : Prop :=
  ∃ fields description partitions, describe = .obj fields ∧
    fields.lookup "PathDescription" = some (.obj description) ∧
    description.lookup "TablePartitions" = some (.arr partitions) ∧
    List.Forall₂ IsCliPartition (rangesFrom none bounds) partitions

/-- The queried ranges are disjoint and leave out nothing, the counts of the analysis are
the sizes of the partitions, and they add up to the table. -/
def CountsAddUp (rows bounds : List Uuid) (ranges : Except BuiltinError (List Item)) : Prop :=
  ∃ items queried analysis, ranges = .ok items ∧ items.mapM queriedRange = .ok queried ∧
    NoOverlap queried ∧ (∀ id, ∃ range ∈ queried, Within range id) ∧
    analyze rows items = .ok (some analysis) ∧
    analysis.partitions.map Prod.fst = items ∧
    analysis.partitions.map Prod.snd = counts (rangesFrom none bounds) rows ∧
    analysis.rowCountTotal = rows.length

/-- The UUID whose fields have their bytes the other way round. -/
def Uuid.swapped (u : Uuid) : Uuid := ⟨reorder u.bytes⟩

end Reports

section Conversions

theorem Uuid.swapped_injective : Function.Injective Uuid.swapped := by
  intro u v h
  have hbytes := congrArg (fun w => reorder w.bytes) h
  simp only [Uuid.swapped, reorder_reorder] at hbytes
  exact Uuid.ext hbytes

/-- The bytes of a UUID, read as its internal form, are those of another one. -/
theorem bytesToUuidParam_bytes (u : Uuid) :
    bytesToUuidParam u.bytes.toList = .ok u.swapped := by
  have hbytes : u.swapped.bytesLe = u.bytes := reorder_reorder u.bytes
  unfold bytesToUuidParam
  rw [← hbytes, Uuid.ofBytesLe_bytesLe]

theorem bytesToUuidParam_bytesLe (u : Uuid) :
    bytesToUuidParam u.bytesLe.toList = .ok u := by
  unfold bytesToUuidParam
  rw [Uuid.ofBytesLe_bytesLe]

theorem withoutDashes_text (u : Uuid) :
    withoutDashes u.text = hexOf u.bytes.toList := by
  have hkeep : ∀ part : Str, (∀ c ∈ part, c ∈ hexOf u.bytes.toList) →
      part.filter (fun c => c != '-') = part := by
    intro part hpart
    refine List.filter_eq_self.mpr fun c hc => ?_
    simpa using ne_dash_of_mem_hexOf (hpart c hc)
  unfold withoutDashes Uuid.text
  simp only [List.filter_append, List.filter_cons, bne_self_eq_false, Bool.false_eq_true,
    if_false]
  rw [hkeep _ fun c hc => List.mem_of_mem_take hc,
    hkeep _ fun c hc => List.mem_of_mem_drop (List.mem_of_mem_take hc),
    hkeep _ fun c hc => List.mem_of_mem_drop (List.mem_of_mem_take hc),
    hkeep _ fun c hc => List.mem_of_mem_drop (List.mem_of_mem_take hc),
    hkeep _ fun c hc => List.mem_of_mem_drop hc]
  have hdrop : ∀ n m : Nat, (hexOf u.bytes.toList).drop (n + m) =
      ((hexOf u.bytes.toList).drop n).drop m := fun n m => by
    rw [List.drop_drop]
  simp only [List.append_assoc]
  rw [hdrop 16 4, List.take_append_drop, hdrop 12 4, List.take_append_drop, hdrop 8 4,
    List.take_append_drop, List.take_append_drop]

/-- What `decode_uuid_key` makes of the text of a UUID: its bytes, not the internal
ones. -/
theorem decodeUuidKey_text
    {fields : List (String × Json)} {u : Uuid}
    (h : fields.lookup "Uuid" = some (.str u.text)) :
    decodeUuidKey (.json (.obj fields)) = .ok (some u.bytes.toList) := by
  have hhex : bytesFromHex (withoutDashes u.text) = .ok u.bytes.toList := by
    rw [withoutDashes_text, bytesFromHex, fromHex_hexOf]
  simp only [decodeUuidKey, h, hhex]
  rfl

end Conversions

section Analyses

variable {rows bounds : List Uuid} {items : List Item}
variable {queried : List (Option Uuid × Option Uuid)}

/-- A partition is counted in the range that is queried for it. -/
theorem analyze_of_queried
    (hlength : 2 ≤ items.length) (hqueried : items.mapM queriedRange = .ok queried) :
    analyze rows items =
      .ok (some ⟨items.zip (counts queried rows), (counts queried rows).sum⟩) := by
  have hranges := mapM_ok_iff.mp hqueried
  have hsize : items.length = (counts queried rows).length := by
    rw [counts, List.length_map, hranges.length_eq]
  have hmap : items.mapM (fun item => do
      let lower ← decodeUuidKey item.lower
      let upper ← decodeUuidKey item.upper
      let count ← countRowsInRange rows lower upper
      return (item, count)) = .ok (items.zip (counts queried rows)) := by
    refine mapM_ok_iff.mpr ?_
    clear hqueried hlength hsize
    induction hranges with
    | nil => exact List.Forall₂.nil
    | cons hitem _ ih =>
        refine List.Forall₂.cons ?_ ih
        unfold queriedRange at hitem
        obtain ⟨lower, hlower, hitem⟩ := bind_ok_iff.mp hitem
        obtain ⟨upper, hupper, hparams⟩ := bind_ok_iff.mp hitem
        refine bind_ok_iff.mpr ⟨lower, hlower, bind_ok_iff.mpr ⟨upper, hupper, ?_⟩⟩
        refine bind_ok_iff.mpr ⟨_, ?_, rfl⟩
        rw [countRowsInRange, hparams]
        rfl
  unfold analyze
  rw [if_neg (by omega)]
  refine bind_ok_iff.mpr ⟨_, hmap, ?_⟩
  rw [List.map_snd_zip hsize.ge]
  rfl

/-- What the property of the counts says of the queried ranges. -/
theorem countsAddUp_iff
    (hlength : 2 ≤ items.length) (hqueried : items.mapM queriedRange = .ok queried) :
    CountsAddUp rows bounds (.ok items) ↔
      NoOverlap queried ∧ (∀ id, ∃ range ∈ queried, Within range id) ∧
        counts queried rows = counts (rangesFrom none bounds) rows ∧
        (counts queried rows).sum = rows.length := by
  have hanalyze := @analyze_of_queried rows _ _ hlength hqueried
  have hsize : items.length = (counts queried rows).length := by
    rw [counts, List.length_map, (mapM_ok_iff.mp hqueried).length_eq]
  constructor
  · rintro ⟨_, queried', analysis, hitems, hqueried', hapart, hcover, hanalyze', -, hcounts,
      htotal⟩
    rw [← Except.ok.inj hitems] at hqueried' hanalyze'
    rcases Except.ok.inj (hqueried.symm.trans hqueried') with rfl
    rcases Option.some.inj (Except.ok.inj (hanalyze.symm.trans hanalyze')) with rfl
    rw [List.map_snd_zip hsize.ge] at hcounts
    exact ⟨hapart, hcover, hcounts, htotal⟩
  · rintro ⟨hapart, hcover, hcounts, htotal⟩
    refine ⟨items, queried, _, rfl, hqueried, hapart, hcover, hanalyze, ?_, ?_, htotal⟩
    · exact List.map_fst_zip hsize.le
    · rw [List.map_snd_zip hsize.ge]
      exact hcounts

end Analyses

section SdkBounds

variable {value : Uuid → SdkValue} {rows bounds : List Uuid}

/-- The bound that is queried for a bound of the SDK. -/
def sdkBound (value : Uuid → SdkValue) (u : Uuid) : Option Uuid :=
  (uuidFromKeyBound (some (value u))).bind Uuid.ofBytesLe

theorem uuidFromKeyBound_bytes
    (hreports : SdkReports value) {u : Uuid} (h : IsBytes (value u)) :
    uuidFromKeyBound (some (value u)) = some u.bytesLe.toList := by
  obtain ⟨data, hdata⟩ := h
  obtain ⟨base, hbase, hvalue⟩ := hreports u
  rcases hbase with rfl | rfl <;> rcases hvalue with hvalue | ⟨rest, hvalue⟩ <;>
    rw [hvalue] at hdata ⊢ <;> first | rfl | simp at hdata

/-- A bound that is a `uuid.UUID` is lost. -/
theorem uuidFromKeyBound_uuid
    (hreports : SdkReports value) {u : Uuid} (h : ¬ IsBytes (value u)) :
    uuidFromKeyBound (some (value u)) = none := by
  obtain ⟨base, hbase, hvalue⟩ := hreports u
  rcases hbase with rfl | rfl
  · rcases hvalue with hvalue | ⟨rest, hvalue⟩ <;> rw [hvalue] <;> rfl
  · refine (h ⟨u.bytesLe.toList, ?_⟩).elim
    rcases hvalue with hvalue | ⟨rest, hvalue⟩
    · exact Or.inl hvalue
    · exact Or.inr ⟨rest, hvalue⟩

theorem sdkBound_bytes
    (hreports : SdkReports value) {u : Uuid} (h : IsBytes (value u)) :
    sdkBound value u = some u := by
  rw [sdkBound, uuidFromKeyBound_bytes hreports h, Option.bind_some, Uuid.ofBytesLe_bytesLe]

theorem sdkBound_uuid
    (hreports : SdkReports value) {u : Uuid} (h : ¬ IsBytes (value u)) :
    sdkBound value u = none := by
  rw [sdkBound, uuidFromKeyBound_uuid hreports h]
  rfl

theorem eq_of_mem_sdkBound
    (hreports : SdkReports value) (u : Uuid) :
    ∀ v ∈ sdkBound value u, v = u := by
  intro v hv
  by_cases h : IsBytes (value u)
  · rw [sdkBound_bytes hreports h] at hv
    exact (Option.mem_some.mp hv).symm
  · rw [sdkBound_uuid hreports h] at hv
    cases hv

theorem decodeUuidKey_ofBytes (data : Option (List (BitVec 8))) :
    decodeUuidKey (.ofBytes data) = .ok data := by
  cases data with
  | none => rfl
  | some data => rfl

theorem mapM_sdkBound
    (hreports : SdkReports value) (bound : Option Uuid) :
    (uuidFromKeyBound (bound.map value)).mapM bytesToUuidParam =
      .ok (bound.bind (sdkBound value)) := by
  cases bound with
  | none => rfl
  | some u =>
      rw [Option.map_some, Option.bind_some]
      by_cases h : IsBytes (value u)
      · rw [uuidFromKeyBound_bytes hreports h, sdkBound_bytes hreports h, Option.mapM_some,
          bytesToUuidParam_bytesLe]
        rfl
      · rw [uuidFromKeyBound_uuid hreports h, sdkBound_uuid hreports h]
        rfl

/-- For the SDK's bounds the partitions are queried without the bounds that are lost. -/
theorem queried_sdk
    (hreports : SdkReports value) (bounds : List Uuid) :
    (partitionRangesFromTableDescribe (sdkKeyRanges value bounds)).mapM queriedRange =
      .ok ((rangesFrom none bounds).map (keepBounds (sdkBound value))) := by
  unfold partitionRangesFromTableDescribe sdkKeyRanges
  rw [List.map_map]
  refine mapM_ok_iff.mpr ?_
  rw [List.forall₂_map_left_iff, List.forall₂_map_right_iff, List.forall₂_same]
  intro range _
  refine bind_ok_iff.mpr ⟨_, decodeUuidKey_ofBytes _, ?_⟩
  refine bind_ok_iff.mpr ⟨_, decodeUuidKey_ofBytes _, ?_⟩
  refine bind_ok_iff.mpr ⟨_, mapM_sdkBound hreports _, ?_⟩
  exact bind_ok_iff.mpr ⟨_, mapM_sdkBound hreports _, rfl⟩

theorem sdk_counts_iff
    (hne : bounds ≠ []) (hascending : bounds.Pairwise (· < ·)) (hreports : SdkReports value) :
    CountsAddUp rows bounds (.ok (partitionRangesFromTableDescribe (sdkKeyRanges value bounds))) ↔
      ∀ u ∈ bounds, IsBytes (value u) := by
  have hlength :
      2 ≤ (partitionRangesFromTableDescribe (sdkKeyRanges value bounds)).length := by
    unfold partitionRangesFromTableDescribe sdkKeyRanges
    rw [List.length_map, List.length_map, length_rangesFrom]
    have := List.length_pos_iff.mpr hne
    omega
  rw [countsAddUp_iff hlength (queried_sdk hreports bounds)]
  constructor
  · rintro ⟨hapart, -⟩ u hu
    by_contra h
    exact not_noOverlap_of_dropped (eq_of_mem_sdkBound hreports)
      (by simpa using hascending) hu (sdkBound_uuid hreports h) hapart
  · intro hbytes
    rw [map_keepBounds_of_kept fun b hb =>
      sdkBound_bytes hreports (hbytes b (by simpa using hb))]
    refine ⟨noOverlap_of_ascending hascending, fun id => exists_within bounds (by simp), rfl, ?_⟩
    rw [sum_counts (by simpa using hascending)]
    simp [Within]

end SdkBounds

section CliBounds

variable {rows bounds : List Uuid}

theorem decodeUuidKey_cliBound
    {bound : Option Uuid} {value : Option Json} (h : IsCliBound bound value) :
    decodeUuidKey (.json (value.getD .null)) = .ok (bound.map fun u => u.bytes.toList) := by
  cases bound with
  | none => rcases h with rfl | rfl <;> rfl
  | some u =>
      obtain ⟨fields, rfl, hlookup⟩ := h
      exact decodeUuidKey_text hlookup

theorem mapM_cliBound (bound : Option Uuid) :
    (bound.map fun u => u.bytes.toList).mapM bytesToUuidParam =
      .ok (bound.map Uuid.swapped) := by
  cases bound with
  | none => rfl
  | some u =>
      rw [Option.map_some, Option.mapM_some, bytesToUuidParam_bytes]
      rfl

theorem readPartition_cli
    {range : Option Uuid × Option Uuid} {part : Json} (h : IsCliPartition range part) :
    ∃ item, readPartition part = .ok item ∧
      queriedRange item = .ok (range.1.map Uuid.swapped, range.2.map Uuid.swapped) := by
  obtain ⟨fields, keyRange, rfl, hkey, hfrom, hto⟩ := h
  refine ⟨⟨(fields.lookup "DatashardId").getD .null,
    .json ((keyRange.lookup "From").getD .null),
    .json ((keyRange.lookup "To").getD .null)⟩, ?_, ?_⟩
  · rw [readPartition, Json.getOr, hkey]
    rfl
  · refine bind_ok_iff.mpr ⟨_, decodeUuidKey_cliBound hfrom, ?_⟩
    refine bind_ok_iff.mpr ⟨_, decodeUuidKey_cliBound hto, ?_⟩
    refine bind_ok_iff.mpr ⟨_, mapM_cliBound _, ?_⟩
    exact bind_ok_iff.mpr ⟨_, mapM_cliBound _, rfl⟩

theorem exists_items_cli
    {ranges : List (Option Uuid × Option Uuid)} {partitions : List Json}
    (h : List.Forall₂ IsCliPartition ranges partitions) :
    ∃ items, partitions.mapM readPartition = .ok items ∧
      items.mapM queriedRange =
        .ok (ranges.map fun range => (range.1.map Uuid.swapped, range.2.map Uuid.swapped)) := by
  simp only [mapM_ok_iff]
  induction h with
  | nil => exact ⟨[], List.Forall₂.nil, List.Forall₂.nil⟩
  | cons hpart _ ih =>
      obtain ⟨item, hread, hrange⟩ := readPartition_cli hpart
      obtain ⟨items, hreads, hranges⟩ := ih
      exact ⟨item :: items, hreads.cons hread, hranges.cons hrange⟩

/-- For the CLI's bounds the partitions are queried with the swapped bounds. -/
theorem queried_cli
    {describe : Json} (h : CliReports describe bounds) :
    ∃ items, partitionRangesFromSchemeJson describe = .ok items ∧
      items.length = bounds.length + 1 ∧
      items.mapM queriedRange = .ok (rangesFrom none (bounds.map Uuid.swapped)) := by
  obtain ⟨fields, description, partitions, rfl, hdescription, hpartitions, hranges⟩ := h
  obtain ⟨items, hread, hqueried⟩ := exists_items_cli hranges
  rw [← rangesFrom_map, Option.map_none] at hqueried
  refine ⟨items, ?_, ?_, hqueried⟩
  · refine bind_ok_iff.mpr ⟨.obj description, by rw [Json.getOr, hdescription]; rfl, ?_⟩
    refine bind_ok_iff.mpr ⟨.arr partitions, by rw [Json.getOr, hpartitions]; rfl, ?_⟩
    exact bind_ok_iff.mpr ⟨partitions, rfl, hread⟩
  · rw [(mapM_ok_iff.mp hqueried).length_eq, length_rangesFrom, List.length_map]

theorem cli_counts_iff
    (hne : bounds ≠ []) (hascending : bounds.Pairwise (· < ·))
    {describe : Json} (h : CliReports describe bounds) :
    CountsAddUp rows bounds (partitionRangesFromSchemeJson describe) ↔
      (bounds.map Uuid.swapped).Pairwise (· < ·) ∧
        ∀ u ∈ bounds, SameBelow rows u.swapped u := by
  obtain ⟨items, hitems, hsize, hqueried⟩ := queried_cli h
  have hlength : 2 ≤ items.length := by
    have := List.length_pos_iff.mpr hne
    omega
  have hnodup : (bounds.map Uuid.swapped).Nodup :=
    (List.nodup_map_iff Uuid.swapped_injective).mpr
      (hascending.imp fun hlt => ne_of_lt hlt)
  rw [hitems, countsAddUp_iff hlength hqueried, noOverlap_iff hnodup]
  refine and_congr_right fun hswapped => ?_
  have hcover : ∀ id : Uuid, ∃ range ∈ rangesFrom none (bounds.map Uuid.swapped),
      Within range id :=
    fun id => exists_within _ (by simp)
  have htotal : (counts (rangesFrom none (bounds.map Uuid.swapped)) rows).sum = rows.length := by
    rw [sum_counts (by simpa using hswapped)]
    simp [Within]
  have hcounts : counts (rangesFrom none (bounds.map Uuid.swapped)) rows =
      counts (rangesFrom none bounds) rows ↔
        List.Forall₂ (SameBelow rows) (bounds.map Uuid.swapped) bounds :=
    counts_eq_iff (by rw [List.length_map]) (by simpa using hswapped)
      (by simpa using hascending) (by simp)
  rw [hcounts, List.forall₂_map_left_iff, List.forall₂_same]
  exact ⟨fun h => h.2.1, fun h => ⟨hcover, h, htotal⟩⟩

end CliBounds

section PartitionCounts

/-- The parameter that the text of a UUID comes back as. -/
theorem readBack_iff
    {fields : List (String × Json)} {u : Uuid}
    (h : fields.lookup "Uuid" = some (.str u.text)) :
    (decodeUuidKey (.json (.obj fields)) >>= fun data => data.mapM bytesToUuidParam) =
        .ok (some u) ↔
      u.swapped = u := by
  rw [decodeUuidKey_text h]
  have hparam : (some u.bytes.toList).mapM bytesToUuidParam = .ok (some u.swapped) :=
    mapM_cliBound (some u)
  constructor
  · intro hback
    exact Option.some.inj (Except.ok.inj (hparam.symm.trans hback))
  · intro hswapped
    refine hparam.trans ?_
    rw [hswapped]

/-- The counts of the partitions add up for the SDK's bounds iff they all come as bytes,
and for the CLI's bounds iff swapping their fields keeps them in order and moves none
past a row; the text of a UUID is read back iff swapping the fields leaves it as it is. -/
theorem partition_counts_iff
    (rows bounds : List Uuid)
    (hne : bounds ≠ [])
    (hascending : bounds.Pairwise (· < ·)) :
    (∀ value, SdkReports value →
      (CountsAddUp rows bounds
          (.ok (partitionRangesFromTableDescribe (sdkKeyRanges value bounds))) ↔
        ∀ u ∈ bounds, IsBytes (value u))) ∧
    (∀ describe, CliReports describe bounds →
      (CountsAddUp rows bounds (partitionRangesFromSchemeJson describe) ↔
        (bounds.map Uuid.swapped).Pairwise (· < ·) ∧
          ∀ u ∈ bounds, SameBelow rows u.swapped u)) ∧
    (∀ (u : Uuid) (fields : List (String × Json)),
      fields.lookup "Uuid" = some (.str u.text) →
      ((decodeUuidKey (.json (.obj fields)) >>= fun data => data.mapM bytesToUuidParam) =
          .ok (some u) ↔
        u.swapped = u)) := by
  refine ⟨?_, ?_, ?_⟩
  · intro value hreports
    exact sdk_counts_iff hne hascending hreports
  · intro describe hreports
    exact cli_counts_iff hne hascending hreports
  · intro u fields h
    exact readBack_iff h

/-- The UUID `00000001-0000-0000-0000-000000000000`. -/
def oneUuid : Uuid := ⟨⟨#[0, 0, 0, 1, 0, 0, 0, 0, 0, 0, 0, 0, 0, 0, 0, 0], rfl⟩⟩

/-- A partition of the CLI's output. -/
def cliPartition (keyRange : List (String × Json)) : Json :=
  .obj [("DatashardId", .int 1), ("KeyRange", .obj keyRange)]

/-- The CLI's output for a table split at one UUID. -/
def cliDescribe (u : Uuid) : Json :=
  .obj [("PathDescription", .obj [("TablePartitions", .arr [
    cliPartition [("To", .obj [("Uuid", .str u.text)])],
    cliPartition [("From", .obj [("Uuid", .str u.text)])]])])]

theorem cliReports_cliDescribe (u : Uuid) :
    CliReports (cliDescribe u) [u] := by
  refine ⟨_, _, _, rfl, rfl, rfl, ?_⟩
  refine List.Forall₂.cons ?_ (List.Forall₂.cons ?_ List.Forall₂.nil)
  · exact ⟨_, _, rfl, rfl, Or.inl rfl, _, rfl, rfl⟩
  · exact ⟨_, _, rfl, rfl, ⟨_, rfl, rfl⟩, Or.inl rfl⟩

theorem sdkReports_bytes :
    SdkReports fun u => .bytes u.bytesLe.toList :=
  fun _ => ⟨_, Or.inr rfl, Or.inl rfl⟩

theorem sdkReports_uuid :
    SdkReports SdkValue.uuid :=
  fun _ => ⟨_, Or.inl rfl, Or.inl rfl⟩

theorem partition_counts_of_bytes :
    CountsAddUp [oneUuid, oneUuid.swapped] [oneUuid]
      (.ok (partitionRangesFromTableDescribe
        (sdkKeyRanges (fun u => .bytes u.bytesLe.toList) [oneUuid]))) :=
  ((partition_counts_iff [oneUuid, oneUuid.swapped] [oneUuid] (List.cons_ne_nil _ _)
    (List.pairwise_singleton _ _)).1 _ sdkReports_bytes).mpr fun _ _ => ⟨_, Or.inl rfl⟩

theorem swapped_oneUuid_lt :
    oneUuid.swapped < oneUuid := by
  decide

/-- A bound that comes as a `uuid.UUID` is lost, and one that comes as text is compared
with its fields swapped: the row `01000000-0000-0000-0000-000000000000` is counted in the
wrong partition. -/
theorem not_partition_counts :
    (SdkReports SdkValue.uuid ∧
      ¬ CountsAddUp [oneUuid.swapped] [oneUuid]
        (.ok (partitionRangesFromTableDescribe (sdkKeyRanges SdkValue.uuid [oneUuid])))) ∧
    (CliReports (cliDescribe oneUuid) [oneUuid] ∧
      ¬ CountsAddUp [oneUuid.swapped] [oneUuid]
        (partitionRangesFromSchemeJson (cliDescribe oneUuid))) := by
  refine ⟨⟨sdkReports_uuid, ?_⟩, cliReports_cliDescribe oneUuid, ?_⟩
  · rw [sdk_counts_iff (List.cons_ne_nil _ _) (List.pairwise_singleton _ _) sdkReports_uuid]
    intro h
    obtain ⟨data, h | ⟨rest, h⟩⟩ := h oneUuid List.mem_cons_self
    · cases h
    · cases h
  · rw [cli_counts_iff (List.cons_ne_nil _ _) (List.pairwise_singleton _ _)
      (cliReports_cliDescribe oneUuid)]
    rintro ⟨-, h⟩
    have hsame := h oneUuid List.mem_cons_self oneUuid.swapped List.mem_cons_self
    exact lt_irrefl _ (hsame.mpr swapped_oneUuid_lt)

end PartitionCounts

end UuidSharded
end YdbSnippets
