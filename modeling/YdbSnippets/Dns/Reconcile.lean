import YdbSnippets.Dns.Plan
import YdbSnippets.Records.Edits
import Mathlib.Tactic.Push

/-!
# Reconciliation of the zone

The plan is a list of edits of records with distinct names, each of which fits
the zone it was planned for.  Applied at once or batch by batch, it leaves
every name either as it was or as it should be, and planning again gives
exactly the changes that were not applied.
-/

namespace YdbSnippets
namespace Dns

open Python Effects Records

section Names

variable (py : Interpreter) (zone : Str)

/-- The name an A record stands for. -/
def recordKey (r : RecordSet) : Option Str :=
  if r.type = typeA then some (absoluteName py r.name zone) else none

/-- The A records with a name. -/
def recordsNamed (fqdn : Str) (records : List RecordSet) : List RecordSet :=
  named (recordKey py zone) fqdn records

/-- What `index_a_records` keeps of a record. -/
def existingOf (r : RecordSet) : ExistingRecord where
  fqdn := absoluteName py r.name zone
  apiName := r.name
  ttl := r.ttl
  data := r.data
  description := r.description

/-- The record `index_a_records` finds under a name. -/
def existingNamed (fqdn : Str) (records : List RecordSet) : Option ExistingRecord :=
  (recordsNamed py zone fqdn records).head?.map (existingOf py zone)

variable {py zone}

theorem recordKey_eq_some_iff
    {r : RecordSet} {fqdn : Str} :
    recordKey py zone r = some fqdn ↔
      r.type = typeA ∧ absoluteName py r.name zone = fqdn := by
  unfold recordKey
  by_cases htype : r.type = typeA <;> simp [htype]

theorem recordKey_isNone
    (r : RecordSet) :
    (recordKey py zone r).isNone = decide (r.type ≠ typeA) := by
  unfold recordKey
  by_cases htype : r.type = typeA <;> simp [htype]

end Names

section Index

variable {py : Interpreter} {zone : Str}

theorem recordsNamed_cons
    (fqdn : Str) (record : RecordSet) (rest : List RecordSet) :
    recordsNamed py zone fqdn (record :: rest) =
      if record.type = typeA ∧ absoluteName py record.name zone = fqdn then
        record :: recordsNamed py zone fqdn rest
      else
        recordsNamed py zone fqdn rest := by
  unfold recordsNamed named
  rw [List.filter_cons]
  unfold recordKey
  by_cases htype : record.type = typeA
  · simp [htype]
  · simp [htype]

/-- The index holds the records by name. -/
theorem indexFrom_lookup
    {records : List RecordSet} {acc indexed : Finmap (fun _ : Str => ExistingRecord)}
    (h : indexFrom py zone records acc = .ok indexed) (fqdn : Str) :
    indexed.lookup fqdn =
        ((acc.lookup fqdn).or (existingNamed py zone fqdn records)) ∧
      (fqdn ∈ acc → recordsNamed py zone fqdn records = []) ∧
      (recordsNamed py zone fqdn records).length ≤ 1 := by
  induction records generalizing acc with
  | nil =>
      cases h
      simp [existingNamed, recordsNamed, named]
  | cons record rest ih =>
      simp only [indexFrom] at h
      unfold existingNamed
      rw [recordsNamed_cons]
      by_cases htype : record.type = typeA
      · rw [if_neg (by simpa using htype)] at h
        split_ifs at h with hmem
        obtain ⟨hlookup, hfresh, hone⟩ := ih h
        by_cases heq : absoluteName py record.name zone = fqdn
        · rw [heq] at hlookup hfresh hmem
          have hrest : recordsNamed py zone fqdn rest = [] :=
            hfresh (Finmap.mem_insert.mpr (Or.inl rfl))
          have hacc : acc.lookup fqdn = none := Finmap.lookup_eq_none.mpr hmem
          rw [if_pos ⟨htype, heq⟩, hrest]
          refine ⟨?_, fun hin => absurd hin hmem, le_rfl⟩
          rw [hlookup, Finmap.lookup_insert, hacc]
          simp [existingOf, heq]
        · rw [if_neg (fun hboth => heq hboth.2)]
          refine ⟨?_, ?_, hone⟩
          · rw [hlookup, Finmap.lookup_insert_of_ne _ (Ne.symm heq)]
            rfl
          · intro hin
            exact hfresh (Finmap.mem_insert.mpr (Or.inr hin))
      · rw [if_pos htype] at h
        rw [if_neg (fun hboth => htype hboth.1)]
        exact ih h

/-- An accepted list has at most one record for a name, and the index finds
it. -/
theorem indexARecords_lookup
    {records : List RecordSet} {indexed : Finmap (fun _ : Str => ExistingRecord)}
    (h : indexARecords py records zone = .ok indexed) (fqdn : Str) :
    indexed.lookup fqdn = existingNamed py zone fqdn records ∧
      (recordsNamed py zone fqdn records).length ≤ 1 := by
  obtain ⟨hlookup, _, hone⟩ := indexFrom_lookup h fqdn
  rw [Finmap.lookup_empty, Option.none_or] at hlookup
  exact ⟨hlookup, hone⟩

/-- A list with at most one record for every name is accepted. -/
theorem indexARecords_of_length_le
    {records : List RecordSet}
    (h : ∀ fqdn, (recordsNamed py zone fqdn records).length ≤ 1) :
    ∃ indexed, indexARecords py records zone = .ok indexed := by
  have hfrom : ∀ (records : List RecordSet) (acc : Finmap (fun _ : Str => ExistingRecord)),
      (∀ fqdn, (recordsNamed py zone fqdn records).length ≤ 1) →
      (∀ fqdn ∈ acc, recordsNamed py zone fqdn records = []) →
      ∃ indexed, indexFrom py zone records acc = .ok indexed := by
    intro records
    induction records with
    | nil => exact fun acc _ _ => ⟨acc, rfl⟩
    | cons record rest ih =>
        intro acc hone hfresh
        simp only [indexFrom]
        by_cases htype : record.type = typeA
        · rw [if_neg (by simpa using htype)]
          set name := absoluteName py record.name zone with hname
          have hnew : name ∉ acc := by
            intro hin
            have hnil := hfresh name hin
            rw [recordsNamed_cons, if_pos ⟨htype, rfl⟩] at hnil
            cases hnil
          rw [if_neg hnew]
          apply ih
          · intro fqdn
            have hle := hone fqdn
            rw [recordsNamed_cons] at hle
            split_ifs at hle with heq
            · rw [List.length_cons] at hle
              omega
            · exact hle
          · intro fqdn hin
            rcases Finmap.mem_insert.mp hin with heq | hin
            · have hle := hone fqdn
              rw [recordsNamed_cons, if_pos ⟨htype, heq.symm⟩, List.length_cons] at hle
              exact List.length_eq_zero_iff.mp (by omega)
            · have hnil := hfresh fqdn hin
              rw [recordsNamed_cons] at hnil
              split_ifs at hnil
              exact hnil
        · rw [if_pos htype]
          have hskip : ∀ fqdn, recordsNamed py zone fqdn (record :: rest) =
              recordsNamed py zone fqdn rest := by
            intro fqdn
            rw [recordsNamed_cons, if_neg (fun hboth => htype hboth.1)]
          apply ih
          · intro fqdn
            rw [← hskip]
            exact hone fqdn
          · intro fqdn hin
            rw [← hskip]
            exact hfresh fqdn hin
  exact hfrom records ∅ h (fun fqdn hin => absurd hin Finmap.notMem_empty)

end Index

/-! ## The plan -/

section Plan

/-- What the prefixes, the zone and the desired names are checked for before
planning. -/
structure Setting
    (py : Interpreter) (zone : Str) (prefixes : List Str)
    (desired : Finmap (fun _ : Str => DesiredRecord)) : Prop where
  normal : ∃ body, NormalZone body zone
  labels : ∀ pre ∈ prefixes, isDnsLabel pre = true
  names : ∀ fqdn ∈ desired, ∃ label pre,
    isDnsLabel label = true ∧ pre ∈ prefixes ∧ fqdn = serverName label pre zone

variable {py : Interpreter} {zone : Str} {prefixes : List Str}
variable {desired : Finmap (fun _ : Str => DesiredRecord)}
variable {ttl : Int} {pruneNames : Option (Finset Str)}
variable {records : List RecordSet} {fqdn : Str} {change : RecordChange}

/-- A desired name is absolute, and managed. -/
theorem Setting.desired_managed
    (hset : Setting py zone prefixes desired)
    (h : fqdn ∈ desired) :
    absoluteName py fqdn zone = fqdn ∧
      (managedLabel py fqdn zone prefixes).isSome = true := by
  obtain ⟨body, hzone⟩ := hset.normal
  obtain ⟨label, pre, hlabel, hpre, rfl⟩ := hset.names fqdn h
  have habsolute := @absoluteName_serverName py _ _ hzone _ _ hlabel (hset.labels pre hpre)
  refine ⟨habsolute, ?_⟩
  have hsome := (managedLabel_eq_some_iff hzone hset.labels habsolute).mpr
    ⟨hlabel, pre, hpre, rfl⟩
  rw [hsome]
  rfl

/-- The record `plan_changes` finds under a name: only managed names count. -/
def managedNamed
    (py : Interpreter) (zone : Str) (prefixes : List Str)
    (fqdn : Str) (records : List RecordSet) : Option ExistingRecord :=
  if (managedLabel py fqdn zone prefixes).isSome then existingNamed py zone fqdn records
  else none

/-- The change planned for one name. -/
def plannedFor
    (py : Interpreter) (zone : Str) (prefixes : List Str)
    (desired : Finmap (fun _ : Str => DesiredRecord))
    (ttl : Int) (pruneNames : Option (Finset Str))
    (records : List RecordSet) (fqdn : Str) : Option RecordChange :=
  planChange py zone prefixes ttl pruneNames fqdn (desired.lookup fqdn)
    (managedNamed py zone prefixes fqdn records)

theorem planChange_fqdn
    {want : Option DesiredRecord} {existing : Option ExistingRecord}
    (h : planChange py zone prefixes ttl pruneNames fqdn want existing = some change) :
    change.fqdn = fqdn := by
  unfold planChange at h
  split at h
  · split_ifs at h
    cases h
    rfl
  · cases h
    rfl
  · split_ifs at h
    cases h
    rfl
  · cases h

variable {indexed : Finmap (fun _ : Str => ExistingRecord)}

/-- The plan consists of the changes planned for the names. -/
theorem mem_planChanges
    (hindex : ∀ fqdn, indexed.lookup fqdn = existingNamed py zone fqdn records) :
    change ∈ planChanges py desired indexed zone prefixes ttl pruneNames ↔
      ∃ fqdn, plannedFor py zone prefixes desired ttl pruneNames records fqdn =
        some change := by
  unfold planChanges
  simp only [List.mem_filterMap, Finset.mem_sort, hindex]
  constructor
  · rintro ⟨fqdn, _, hchange⟩
    exact ⟨fqdn, hchange⟩
  · rintro ⟨fqdn, hchange⟩
    refine ⟨fqdn, ?_, hchange⟩
    rw [Finset.mem_union, Finset.mem_filter, Finmap.mem_keys, Finmap.mem_keys]
    by_contra hnot
    rw [not_or, not_and_or] at hnot
    obtain ⟨hwant, hhave⟩ := hnot
    have hexisting : managedNamed py zone prefixes fqdn records = none := by
      unfold managedNamed
      rcases hhave with h | h
      · rw [← hindex, Finmap.lookup_eq_none.mpr h, ite_self]
      · rw [if_neg h]
    unfold plannedFor at hchange
    rw [Finmap.lookup_eq_none.mpr hwant, hexisting] at hchange
    cases hchange

/-- The plan is ordered by name. -/
theorem planChanges_sorted :
    (planChanges py desired indexed zone prefixes ttl pruneNames).Pairwise
      (fun a b => a.fqdn < b.fqdn) := by
  unfold planChanges
  rw [List.pairwise_filterMap]
  refine (Finset.sortedLT_sort _).pairwise.imp ?_
  intro a b hlt change hchange change' hchange'
  rw [planChange_fqdn hchange, planChange_fqdn hchange']
  exact hlt

/-- The edit a change stands for. -/
def RecordChange.toEdit (change : RecordChange) : Edit RecordSet Str where
  key := change.fqdn
  removed := change.deletion
  added := change.addition

theorem existingNamed_eq_some
    {existing : ExistingRecord}
    (hone : (recordsNamed py zone fqdn records).length ≤ 1)
    (h : existingNamed py zone fqdn records = some existing) :
    ∃ r, recordsNamed py zone fqdn records = [r] ∧ existing = existingOf py zone r ∧
      r.type = typeA ∧ absoluteName py r.name zone = fqdn := by
  unfold existingNamed at h
  cases hrecords : recordsNamed py zone fqdn records with
  | nil =>
      rw [hrecords] at h
      cases h
  | cons r rest =>
      rw [hrecords] at h hone
      cases h
      have hrest : rest = [] := by
        rw [List.length_cons] at hone
        exact List.length_eq_zero_iff.mp (by omega)
      subst hrest
      have hmem : r ∈ recordsNamed py zone fqdn records := by
        rw [hrecords]
        exact List.mem_singleton_self r
      obtain ⟨htype, hname⟩ := recordKey_eq_some_iff.mp (mem_named.mp hmem).2
      exact ⟨r, rfl, rfl, htype, hname⟩

/-- The record a desired name should have. -/
def desiredRecordSet (fqdn : Str) (ttl : Int) (want : DesiredRecord) : RecordSet where
  name := fqdn
  type := typeA
  ttl := ttl
  data := [want.address]
  description := []

/-- A change is planned for a name for one of three reasons, and says what to
remove and what to add. -/
inductive Planned
    (py : Interpreter) (zone : Str) (prefixes : List Str)
    (desired : Finmap (fun _ : Str => DesiredRecord))
    (ttl : Int) (pruneNames : Option (Finset Str))
    (records : List RecordSet) (fqdn : Str) (change : RecordChange) : Prop
  | missing
      (want : DesiredRecord)
      (hwant : desired.lookup fqdn = some want)
      (hrecords : recordsNamed py zone fqdn records = [])
      (hdeletion : change.deletion = none)
      (haddition : change.addition = some (desiredRecordSet fqdn ttl want))
  | different
      (want : DesiredRecord) (r : RecordSet)
      (hwant : desired.lookup fqdn = some want)
      (hrecords : recordsNamed py zone fqdn records = [r])
      (hdeletion : change.deletion = some r)
      (haddition : change.addition = some (desiredRecordSet fqdn ttl want))
  | extra
      (r : RecordSet)
      (hwant : desired.lookup fqdn = none)
      (hmanaged : (managedLabel py fqdn zone prefixes).isSome = true)
      (hscope : inScope pruneNames (managedLabel py fqdn zone prefixes) = true)
      (hrecords : recordsNamed py zone fqdn records = [r])
      (hdeletion : change.deletion = some r)
      (haddition : change.addition = none)

theorem planned_of_plannedFor
    (hset : Setting py zone prefixes desired)
    (hone : (recordsNamed py zone fqdn records).length ≤ 1)
    (h : plannedFor py zone prefixes desired ttl pruneNames records fqdn = some change) :
    Planned py zone prefixes desired ttl pruneNames records fqdn change := by
  unfold plannedFor at h
  cases hwant : desired.lookup fqdn with
  | none =>
      cases hhave : managedNamed py zone prefixes fqdn records with
      | none =>
          rw [hwant, hhave] at h
          cases h
      | some existing =>
          rw [hwant, hhave] at h
          unfold managedNamed at hhave
          split_ifs at hhave with hmanaged
          obtain ⟨r, hrecords, rfl, htype, hname⟩ := existingNamed_eq_some hone hhave
          simp only [planChange] at h
          split_ifs at h with hscope
          cases h
          refine .extra r hwant hmanaged hscope hrecords ?_ rfl
          simp only [RecordChange.deletion, existingOf, ← htype]
          rfl
  | some want =>
      have hmanaged := (hset.desired_managed
        (Finmap.mem_of_lookup_eq_some hwant)).2
      have hnamed : managedNamed py zone prefixes fqdn records =
          existingNamed py zone fqdn records := if_pos hmanaged
      rw [hwant, hnamed] at h
      cases hhave : existingNamed py zone fqdn records with
      | none =>
          rw [hhave] at h
          cases h
          have hrecords : recordsNamed py zone fqdn records = [] := by
            unfold existingNamed at hhave
            rw [Option.map_eq_none_iff, List.head?_eq_none_iff] at hhave
            exact hhave
          exact .missing want hwant hrecords rfl rfl
      | some existing =>
          rw [hhave] at h
          obtain ⟨r, hrecords, rfl, htype, hname⟩ := existingNamed_eq_some hone hhave
          simp only [planChange] at h
          split_ifs at h
          cases h
          refine .different want r hwant hrecords ?_ rfl
          simp only [RecordChange.deletion, existingOf, ← htype]
          rfl

/-- No change is planned for a desired name that has its record. -/
theorem plannedFor_eq_none_of_desired
    {want : DesiredRecord} {r : RecordSet}
    (hset : Setting py zone prefixes desired)
    (hwant : desired.lookup fqdn = some want)
    (hrecords : recordsNamed py zone fqdn records = [r])
    (httl : r.ttl = ttl) (hdata : r.data = [want.address]) :
    plannedFor py zone prefixes desired ttl pruneNames records fqdn = none := by
  have hmanaged := (hset.desired_managed (Finmap.mem_of_lookup_eq_some hwant)).2
  unfold plannedFor managedNamed existingNamed
  rw [if_pos hmanaged, hwant, hrecords]
  simp only [List.head?_cons, Option.map_some, planChange, existingOf]
  rw [if_pos ⟨httl, hdata⟩]

/-- No change is planned for a name that is neither desired nor there. -/
theorem plannedFor_eq_none_of_absent
    (hwant : desired.lookup fqdn = none)
    (hrecords : recordsNamed py zone fqdn records = []) :
    plannedFor py zone prefixes desired ttl pruneNames records fqdn = none := by
  unfold plannedFor managedNamed existingNamed
  rw [hwant, hrecords]
  simp [planChange]

/-- A desired name without a planned change has its record. -/
theorem desired_of_plannedFor_eq_none
    {want : DesiredRecord}
    (hset : Setting py zone prefixes desired)
    (hone : (recordsNamed py zone fqdn records).length ≤ 1)
    (hwant : desired.lookup fqdn = some want)
    (h : plannedFor py zone prefixes desired ttl pruneNames records fqdn = none) :
    ∃ r, recordsNamed py zone fqdn records = [r] ∧ r.ttl = ttl ∧
      r.data = [want.address] := by
  have hmanaged := (hset.desired_managed (Finmap.mem_of_lookup_eq_some hwant)).2
  unfold plannedFor managedNamed at h
  rw [if_pos hmanaged, hwant] at h
  cases hhave : existingNamed py zone fqdn records with
  | none =>
      rw [hhave] at h
      cases h
  | some existing =>
      rw [hhave] at h
      obtain ⟨r, hrecords, rfl, _, _⟩ := existingNamed_eq_some hone hhave
      simp only [planChange] at h
      split_ifs at h with hsame
      exact ⟨r, hrecords, hsame.1, hsame.2⟩

/-- A managed name in scope that is not desired has a planned change, unless
it is not there. -/
theorem absent_of_plannedFor_eq_none
    (hwant : desired.lookup fqdn = none)
    (hmanaged : (managedLabel py fqdn zone prefixes).isSome = true)
    (hscope : inScope pruneNames (managedLabel py fqdn zone prefixes) = true)
    (h : plannedFor py zone prefixes desired ttl pruneNames records fqdn = none) :
    recordsNamed py zone fqdn records = [] := by
  unfold plannedFor managedNamed existingNamed at h
  rw [if_pos hmanaged, hwant] at h
  cases hrecords : recordsNamed py zone fqdn records with
  | nil => rfl
  | cons r rest =>
      rw [hrecords] at h
      simp only [List.head?_cons, Option.map_some, planChange] at h
      rw [if_pos hscope] at h
      cases h

/-- A planned change fits the zone it was planned for. -/
theorem Planned.applicable
    (hset : Setting py zone prefixes desired)
    (h : Planned py zone prefixes desired ttl pruneNames records fqdn change)
    (hfqdn : change.fqdn = fqdn) :
    change.toEdit.WellKeyed (recordKey py zone) ∧
      change.toEdit.Fits (recordKey py zone) records := by
  subst hfqdn
  have hremoved : ∀ r, recordsNamed py zone change.fqdn records = [r] →
      recordKey py zone r = some change.fqdn := by
    intro r hrecords
    have hmem : r ∈ recordsNamed py zone change.fqdn records := by
      rw [hrecords]
      exact List.mem_singleton_self r
    exact (mem_named.mp hmem).2
  have hadded : ∀ want, desired.lookup change.fqdn = some want →
      recordKey py zone (desiredRecordSet change.fqdn ttl want) = some change.fqdn := by
    intro want hwant
    have habsolute := (hset.desired_managed (Finmap.mem_of_lookup_eq_some hwant)).1
    simp [recordKey, desiredRecordSet, habsolute]
  cases h with
  | missing want hwant hrecords hdeletion haddition =>
      refine ⟨⟨?_, ?_⟩, ?_⟩
      · intro r hr
        rw [RecordChange.toEdit, hdeletion] at hr
        cases hr
      · intro r hr
        rw [RecordChange.toEdit, haddition] at hr
        cases hr
        exact hadded want hwant
      · rw [Edit.Fits, RecordChange.toEdit, hdeletion]
        exact hrecords
  | different want r hwant hrecords hdeletion haddition =>
      refine ⟨⟨?_, ?_⟩, ?_⟩
      · intro r' hr
        rw [RecordChange.toEdit, hdeletion] at hr
        cases hr
        exact hremoved r hrecords
      · intro r' hr
        rw [RecordChange.toEdit, haddition] at hr
        cases hr
        exact hadded want hwant
      · rw [Edit.Fits, RecordChange.toEdit, hdeletion]
        exact hrecords
  | extra r hwant hmanaged hscope hrecords hdeletion haddition =>
      refine ⟨⟨?_, ?_⟩, ?_⟩
      · intro r' hr
        rw [RecordChange.toEdit, hdeletion] at hr
        cases hr
        exact hremoved r hrecords
      · intro r' hr
        rw [RecordChange.toEdit, haddition] at hr
        cases hr
      · rw [Edit.Fits, RecordChange.toEdit, hdeletion]
        exact hrecords

end Plan

/-! ## Applying the plan -/

section Apply

variable {py : Interpreter} {zone : Str} {prefixes : List Str}
variable {desired : Finmap (fun _ : Str => DesiredRecord)}
variable {ttl : Int} {pruneNames : Option (Finset Str)}
variable {records : List RecordSet}
variable {indexed : Finmap (fun _ : Str => ExistingRecord)}

/-- The zone after the requests for some batches. -/
def zoneAfter (records : List RecordSet) (batches : List (List RecordChange)) :
    List RecordSet :=
  batches.foldl
    (fun zone batch =>
      updateZone zone (recordSetsForBatch batch).1 (recordSetsForBatch batch).2)
    records

/-- The batches as batches of edits. -/
def toEdits (batches : List (List RecordChange)) : List (List (Edit RecordSet Str)) :=
  batches.map (List.map RecordChange.toEdit)

theorem toEdits_flatten (batches : List (List RecordChange)) :
    (toEdits batches).flatten = batches.flatten.map RecordChange.toEdit := by
  unfold toEdits
  rw [List.map_flatten]

theorem zoneAfter_eq_applyBatches
    (records : List RecordSet) (batches : List (List RecordChange)) :
    zoneAfter records batches = applyBatches records (toEdits batches) := by
  induction batches generalizing records with
  | nil => rfl
  | cons batch rest ih =>
      have hbatch : updateZone records (recordSetsForBatch batch).1
          (recordSetsForBatch batch).2 =
          applyEdits records (batch.map RecordChange.toEdit) := by
        unfold updateZone recordSetsForBatch applyEdits update
        rw [List.filterMap_map, List.filterMap_map]
        rfl
      calc zoneAfter records (batch :: rest)
          = zoneAfter (updateZone records (recordSetsForBatch batch).1
              (recordSetsForBatch batch).2) rest := rfl
        _ = applyBatches (applyEdits records (batch.map RecordChange.toEdit))
              (toEdits rest) := by rw [hbatch, ih]
        _ = applyBatches records (toEdits (batch :: rest)) := rfl

/-- The listed records are accepted, and indexed. -/
structure Listed
    (py : Interpreter) (zone : Str) (records : List RecordSet)
    (indexed : Finmap (fun _ : Str => ExistingRecord)) : Prop where
  lookup : ∀ fqdn, indexed.lookup fqdn = existingNamed py zone fqdn records
  single : ∀ fqdn, (recordsNamed py zone fqdn records).length ≤ 1

theorem listed_of_indexARecords
    (h : indexARecords py records zone = .ok indexed) :
    Listed py zone records indexed :=
  ⟨fun fqdn => (indexARecords_lookup h fqdn).1, fun fqdn => (indexARecords_lookup h fqdn).2⟩

/-- Every change of the plan is planned for its name. -/
theorem planned_of_mem
    (hset : Setting py zone prefixes desired)
    (hlisted : Listed py zone records indexed)
    {change : RecordChange}
    (h : change ∈ planChanges py desired indexed zone prefixes ttl pruneNames) :
    plannedFor py zone prefixes desired ttl pruneNames records change.fqdn = some change ∧
      Planned py zone prefixes desired ttl pruneNames records change.fqdn change := by
  obtain ⟨fqdn, hplanned⟩ := (mem_planChanges hlisted.lookup).mp h
  have hfqdn := planChange_fqdn hplanned
  subst hfqdn
  exact ⟨hplanned, planned_of_plannedFor hset (hlisted.single _) hplanned⟩

/-- The plan can be applied. -/
theorem plan_applicable
    (hset : Setting py zone prefixes desired)
    (hlisted : Listed py zone records indexed) :
    Applicable (recordKey py zone) records
      ((planChanges py desired indexed zone prefixes ttl pruneNames).map
        RecordChange.toEdit) := by
  refine ⟨?_, ?_, ?_⟩
  · intro e he
    obtain ⟨change, hchange, rfl⟩ := List.mem_map.mp he
    exact ((planned_of_mem hset hlisted hchange).2.applicable hset rfl).1
  · intro e he
    obtain ⟨change, hchange, rfl⟩ := List.mem_map.mp he
    exact ((planned_of_mem hset hlisted hchange).2.applicable hset rfl).2
  · rw [List.map_map, List.nodup_iff_pairwise_ne, List.pairwise_map]
    exact planChanges_sorted.imp (fun hlt => ne_of_lt hlt)

section Batches

variable {batches : List (List RecordChange)} {todo : List RecordChange}
variable {fqdn : Str} {change : RecordChange}

/-- A name whose change was applied has the record the change adds. -/
theorem recordsNamed_zoneAfter_of_mem
    (hset : Setting py zone prefixes desired)
    (hlisted : Listed py zone records indexed)
    (hplan : planChanges py desired indexed zone prefixes ttl pruneNames =
      batches.flatten ++ todo)
    (hchange : change ∈ batches.flatten) :
    recordsNamed py zone change.fqdn (zoneAfter records batches) =
      change.addition.toList := by
  have happ := @plan_applicable py zone prefixes desired ttl pruneNames records indexed
    hset hlisted
  rw [hplan, List.map_append, ← toEdits_flatten] at happ
  rw [zoneAfter_eq_applyBatches]
  have hmem : change.toEdit ∈ (toEdits batches).flatten := by
    rw [toEdits_flatten]
    exact List.mem_map_of_mem hchange
  exact named_applyBatches_of_mem happ.first hmem

/-- A name without an applied change is as it was. -/
theorem recordsNamed_zoneAfter_of_notMem
    (hset : Setting py zone prefixes desired)
    (hlisted : Listed py zone records indexed)
    (hplan : planChanges py desired indexed zone prefixes ttl pruneNames =
      batches.flatten ++ todo)
    (hfqdn : ∀ change ∈ batches.flatten, change.fqdn ≠ fqdn) :
    recordsNamed py zone fqdn (zoneAfter records batches) =
      recordsNamed py zone fqdn records := by
  have happ := @plan_applicable py zone prefixes desired ttl pruneNames records indexed
    hset hlisted
  rw [hplan, List.map_append, ← toEdits_flatten] at happ
  rw [zoneAfter_eq_applyBatches]
  refine named_applyBatches_of_notMem happ.first.wellKeyed ?_
  rw [toEdits_flatten, List.map_map]
  intro hmem
  obtain ⟨change, hchange, heq⟩ := List.mem_map.mp hmem
  exact hfqdn change hchange heq

theorem addition_length_le (change : RecordChange) :
    change.addition.toList.length ≤ 1 := by
  cases change.addition <;> simp

/-- In the zone after some batches every name still has at most one record. -/
theorem single_zoneAfter
    (hset : Setting py zone prefixes desired)
    (hlisted : Listed py zone records indexed)
    (hplan : planChanges py desired indexed zone prefixes ttl pruneNames =
      batches.flatten ++ todo)
    (fqdn : Str) :
    (recordsNamed py zone fqdn (zoneAfter records batches)).length ≤ 1 := by
  by_cases hdone : ∃ change ∈ batches.flatten, change.fqdn = fqdn
  · obtain ⟨change, hchange, rfl⟩ := hdone
    rw [recordsNamed_zoneAfter_of_mem hset hlisted hplan hchange]
    exact addition_length_le change
  · push Not at hdone
    rw [recordsNamed_zoneAfter_of_notMem hset hlisted hplan hdone]
    exact hlisted.single fqdn

/-- Nothing is planned any more for a name whose change was applied. -/
theorem plannedFor_zoneAfter_of_mem
    (hset : Setting py zone prefixes desired)
    (hlisted : Listed py zone records indexed)
    (hplan : planChanges py desired indexed zone prefixes ttl pruneNames =
      batches.flatten ++ todo)
    (hchange : change ∈ batches.flatten) :
    plannedFor py zone prefixes desired ttl pruneNames (zoneAfter records batches)
      change.fqdn = none := by
  have hmem : change ∈ planChanges py desired indexed zone prefixes ttl pruneNames := by
    rw [hplan]
    exact List.mem_append_left _ hchange
  have hnow := recordsNamed_zoneAfter_of_mem hset hlisted hplan hchange
  cases (planned_of_mem hset hlisted hmem).2 with
  | missing want hwant _ _ haddition | different want _ hwant _ _ haddition =>
      rw [haddition] at hnow
      exact plannedFor_eq_none_of_desired hset hwant hnow rfl rfl
  | extra r hwant _ _ _ _ haddition =>
      rw [haddition] at hnow
      exact plannedFor_eq_none_of_absent hwant hnow

/-- For the other names the same is planned as before. -/
theorem plannedFor_zoneAfter_of_notMem
    (hset : Setting py zone prefixes desired)
    (hlisted : Listed py zone records indexed)
    (hplan : planChanges py desired indexed zone prefixes ttl pruneNames =
      batches.flatten ++ todo)
    (hfqdn : ∀ change ∈ batches.flatten, change.fqdn ≠ fqdn) :
    plannedFor py zone prefixes desired ttl pruneNames (zoneAfter records batches) fqdn =
      plannedFor py zone prefixes desired ttl pruneNames records fqdn := by
  have hnow := recordsNamed_zoneAfter_of_notMem hset hlisted hplan hfqdn
  unfold plannedFor managedNamed existingNamed
  rw [hnow]

/-- Planning again on the zone after some batches gives the changes that were
not applied. -/
theorem planChanges_zoneAfter
    (hset : Setting py zone prefixes desired)
    (hlisted : Listed py zone records indexed)
    (hplan : planChanges py desired indexed zone prefixes ttl pruneNames =
      batches.flatten ++ todo)
    {indexed' : Finmap (fun _ : Str => ExistingRecord)}
    (hlisted' : Listed py zone (zoneAfter records batches) indexed') :
    planChanges py desired indexed' zone prefixes ttl pruneNames = todo := by
  have hsorted : (batches.flatten ++ todo).Pairwise (fun a b => a.fqdn < b.fqdn) := by
    rw [← hplan]
    exact planChanges_sorted
  obtain ⟨_, htodo, hcross⟩ := List.pairwise_append.mp hsorted
  have hirrefl : Std.Irrefl (fun a b : RecordChange => a.fqdn < b.fqdn) :=
    ⟨fun a => lt_irrefl a.fqdn⟩
  have hantisymm : Std.Antisymm (fun a b : RecordChange => a.fqdn < b.fqdn) :=
    ⟨fun a b hab hba => absurd hba (lt_asymm hab)⟩
  refine List.Pairwise.eq_of_mem_iff planChanges_sorted htodo ?_
  intro change
  rw [mem_planChanges hlisted'.lookup]
  constructor
  · rintro ⟨fqdn, hplanned⟩
    have hfqdn := planChange_fqdn hplanned
    subst hfqdn
    by_cases hdone : ∃ other ∈ batches.flatten, other.fqdn = change.fqdn
    · obtain ⟨other, hother, heq⟩ := hdone
      rw [← heq, plannedFor_zoneAfter_of_mem hset hlisted hplan hother] at hplanned
      cases hplanned
    · push Not at hdone
      rw [plannedFor_zoneAfter_of_notMem hset hlisted hplan hdone] at hplanned
      have hmem := (mem_planChanges hlisted.lookup).mpr ⟨_, hplanned⟩
      rw [hplan, List.mem_append] at hmem
      rcases hmem with hmem | hmem
      · exact absurd rfl (hdone change hmem)
      · exact hmem
  · intro hchange
    have hmem : change ∈ planChanges py desired indexed zone prefixes ttl pruneNames := by
      rw [hplan]
      exact List.mem_append_right _ hchange
    refine ⟨change.fqdn, ?_⟩
    rw [plannedFor_zoneAfter_of_notMem hset hlisted hplan]
    · exact (planned_of_mem hset hlisted hmem).1
    · intro other hother
      exact ne_of_lt (hcross other hother change hchange)

/-- The zone after some batches is accepted again. -/
theorem listed_zoneAfter
    (hset : Setting py zone prefixes desired)
    (hlisted : Listed py zone records indexed)
    (hplan : planChanges py desired indexed zone prefixes ttl pruneNames =
      batches.flatten ++ todo) :
    ∃ indexed', indexARecords py (zoneAfter records batches) zone = .ok indexed' ∧
      planChanges py desired indexed' zone prefixes ttl pruneNames = todo := by
  obtain ⟨indexed', hindexed'⟩ :=
    indexARecords_of_length_le (single_zoneAfter hset hlisted hplan)
  exact ⟨indexed', hindexed',
    planChanges_zoneAfter hset hlisted hplan (listed_of_indexARecords hindexed')⟩

end Batches

end Apply

end Dns
end YdbSnippets
