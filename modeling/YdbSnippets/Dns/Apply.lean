import YdbSnippets.Dns.Reconcile
import YdbSnippets.Lists.Matching

/-!
# What a run does to the zone

The result of a whole plan, and of a plan that was cut between two of its
requests.
-/

namespace YdbSnippets
namespace Dns

open Python Effects Records Matching

section Result

variable (py : Interpreter) (zone : Str) (prefixes : List Str)
variable (desired : Finmap (fun _ : Str => DesiredRecord))
variable (ttl : Int) (pruneNames : Option (Finset Str))

/-- A name that is pruned unless it is desired: `<label>.<prefix>.<zone>` with
the label in scope. -/
def Prunable (fqdn : Str) : Prop :=
  ∃ label pre, isDnsLabel label = true ∧ pre ∈ prefixes ∧
    fqdn = serverName label pre zone ∧ inScope pruneNames (some label) = true

/-- The zone `after` the deletions and additions is the zone `before` with
exactly the desired records. -/
structure Reconciled
    (before deletions additions after : List RecordSet) : Prop where
  desired_present : ∀ fqdn want, desired.lookup fqdn = some want →
    ∃ r, recordsNamed py zone fqdn after = [r] ∧ r.ttl = ttl ∧ r.data = [want.address]
  pruned : ∀ fqdn, fqdn ∉ desired → Prunable zone prefixes pruneNames fqdn →
    recordsNamed py zone fqdn after = []
  others : ∀ fqdn, fqdn ∉ desired → ¬ Prunable zone prefixes pruneNames fqdn →
    recordsNamed py zone fqdn after = recordsNamed py zone fqdn before
  other_types : after.filter (fun r => decide (r.type ≠ typeA)) =
    before.filter (fun r => decide (r.type ≠ typeA))
  deletions_listed : ∀ d ∈ deletions, d ∈ before
  additions_free : ∀ a ∈ additions, ∀ r ∈ before, r ∉ deletions → r.type = typeA →
    absoluteName py r.name zone ≠ absoluteName py a.name zone

end Result

section Reconciled

variable {py : Interpreter} {zone : Str} {prefixes : List Str}
variable {desired : Finmap (fun _ : Str => DesiredRecord)}
variable {ttl : Int} {pruneNames : Option (Finset Str)}
variable {records : List RecordSet}
variable {indexed : Finmap (fun _ : Str => ExistingRecord)}

/-- A name with a record that is managed in scope can be pruned, and the other
way round. -/
theorem prunable_iff
    (hset : Setting py zone prefixes desired)
    {fqdn : Str} (habsolute : absoluteName py fqdn zone = fqdn) :
    Prunable zone prefixes pruneNames fqdn ↔
      (managedLabel py fqdn zone prefixes).isSome = true ∧
        inScope pruneNames (managedLabel py fqdn zone prefixes) = true := by
  obtain ⟨body, hzone⟩ := hset.normal
  constructor
  · rintro ⟨label, pre, hlabel, hpre, hname, hscope⟩
    have hsome := (managedLabel_eq_some_iff hzone hset.labels habsolute).mpr
      ⟨hlabel, pre, hpre, hname⟩
    rw [hsome]
    exact ⟨rfl, hscope⟩
  · rintro ⟨hsome, hscope⟩
    obtain ⟨label, hlabel⟩ := Option.isSome_iff_exists.mp hsome
    obtain ⟨hgood, pre, hpre, hname⟩ :=
      (managedLabel_eq_some_iff hzone hset.labels habsolute).mp hlabel
    rw [hlabel] at hscope
    exact ⟨label, pre, hgood, hpre, hname, hscope⟩

/-- The name of a record is absolute. -/
theorem absoluteName_of_recordsNamed
    (hset : Setting py zone prefixes desired)
    {fqdn : Str} {r : RecordSet}
    (h : recordsNamed py zone fqdn records = [r]) :
    absoluteName py fqdn zone = fqdn := by
  obtain ⟨body, hzone⟩ := hset.normal
  have hmem : r ∈ recordsNamed py zone fqdn records := by
    rw [h]
    exact List.mem_singleton_self r
  obtain ⟨_, hname⟩ := recordKey_eq_some_iff.mp (mem_named.mp hmem).2
  rw [← hname]
  exact absoluteName_idempotent hzone r.name

/-- What is planned for a desired name adds its record. -/
theorem Planned.addition_of_desired
    {fqdn : Str} {change : RecordChange} {want : DesiredRecord}
    (h : Planned py zone prefixes desired ttl pruneNames records fqdn change)
    (hwant : desired.lookup fqdn = some want) :
    change.addition = some (desiredRecordSet fqdn ttl want) := by
  cases h with
  | missing want' hwant' _ _ haddition | different want' _ hwant' _ _ haddition =>
      rw [hwant] at hwant'
      cases hwant'
      exact haddition
  | extra r hwant' _ _ _ _ _ =>
      rw [hwant] at hwant'
      cases hwant'

/-- What is planned for another name removes the record of a name that can be pruned. -/
theorem Planned.prunable_of_not_desired
    (hset : Setting py zone prefixes desired)
    {fqdn : Str} {change : RecordChange}
    (h : Planned py zone prefixes desired ttl pruneNames records fqdn change)
    (hfqdn : fqdn ∉ desired) :
    Prunable zone prefixes pruneNames fqdn ∧ change.addition = none := by
  have hwant := Finmap.lookup_eq_none.mpr hfqdn
  cases h with
  | missing want' hwant' _ _ _ | different want' _ hwant' _ _ _ =>
      rw [hwant] at hwant'
      cases hwant'
  | extra r _ hmanaged hscope hrecords _ haddition =>
      have habsolute := absoluteName_of_recordsNamed hset hrecords
      exact ⟨(prunable_iff hset habsolute).mpr ⟨hmanaged, hscope⟩, haddition⟩

/-- A name either has its change in the plan, which decides its records, or
none is planned for it and its records stay. -/
theorem planned_or_unchanged
    (hset : Setting py zone prefixes desired)
    (hlisted : Listed py zone records indexed)
    {plan : List RecordChange}
    (hplan : planChanges py desired indexed zone prefixes ttl pruneNames = plan)
    (fqdn : Str) :
    (∃ change, Planned py zone prefixes desired ttl pruneNames records fqdn change ∧
      recordsNamed py zone fqdn (zoneAfter records [plan]) = change.addition.toList) ∨
    (plannedFor py zone prefixes desired ttl pruneNames records fqdn = none ∧
      recordsNamed py zone fqdn (zoneAfter records [plan]) =
        recordsNamed py zone fqdn records) := by
  have hall : planChanges py desired indexed zone prefixes ttl pruneNames =
      [plan].flatten ++ [] := by
    simpa using hplan
  cases hfor : plannedFor py zone prefixes desired ttl pruneNames records fqdn with
  | some change =>
      left
      have hmem := (mem_planChanges hlisted.lookup).mpr ⟨fqdn, hfor⟩
      rw [hall, List.append_nil] at hmem
      have hnow := recordsNamed_zoneAfter_of_mem hset hlisted hall hmem
      rw [planChange_fqdn hfor] at hnow
      exact ⟨change, planned_of_plannedFor hset (hlisted.single fqdn) hfor, hnow⟩
  | none =>
      right
      refine ⟨rfl, recordsNamed_zoneAfter_of_notMem hset hlisted hall ?_⟩
      rintro change hchange rfl
      have hmem : change ∈
          planChanges py desired indexed zone prefixes ttl pruneNames := by
        rw [hall, List.append_nil]
        exact hchange
      rw [(planned_of_mem hset hlisted hmem).1] at hfor
      cases hfor

/-- The records of other types are kept by the whole plan. -/
theorem other_types_zoneAfter
    (hset : Setting py zone prefixes desired)
    (hlisted : Listed py zone records indexed)
    {plan : List RecordChange}
    (hplan : planChanges py desired indexed zone prefixes ttl pruneNames = plan) :
    (zoneAfter records [plan]).filter (fun r => decide (r.type ≠ typeA)) =
      records.filter (fun r => decide (r.type ≠ typeA)) := by
  have happ := @plan_applicable py zone prefixes desired ttl pruneNames records indexed
    hset hlisted
  rw [hplan] at happ
  have hwell : ∀ e ∈ (toEdits [plan]).flatten, e.WellKeyed (recordKey py zone) := by
    rw [toEdits_flatten]
    simpa using happ.wellKeyed
  have hkept : (applyBatches records (toEdits [plan])).filter
        (fun r => (recordKey py zone r).isNone) =
      records.filter (fun r => (recordKey py zone r).isNone) :=
    unkeyed_applyBatches hwell
  rw [zoneAfter_eq_applyBatches]
  simpa only [recordKey_isNone] using hkept

/-- The whole plan reconciles the zone. -/
theorem reconciled_of_listed
    (hset : Setting py zone prefixes desired)
    (hlisted : Listed py zone records indexed)
    {plan : List RecordChange}
    (hplan : planChanges py desired indexed zone prefixes ttl pruneNames = plan) :
    Reconciled py zone prefixes desired ttl pruneNames records
      (recordSetsForBatch plan).1 (recordSetsForBatch plan).2
      (zoneAfter records [plan]) := by
  have happ := @plan_applicable py zone prefixes desired ttl pruneNames records indexed
    hset hlisted
  rw [hplan] at happ
  have hdeletions : (recordSetsForBatch plan).1 =
      (plan.map RecordChange.toEdit).filterMap Edit.removed := by
    rw [List.filterMap_map]
    rfl
  have hadditions : (recordSetsForBatch plan).2 =
      (plan.map RecordChange.toEdit).filterMap Edit.added := by
    rw [List.filterMap_map]
    rfl
  refine ⟨?_, ?_, ?_, other_types_zoneAfter hset hlisted hplan, ?_, ?_⟩
  · intro fqdn want hwant
    rcases planned_or_unchanged hset hlisted hplan fqdn with
      ⟨change, hplanned, hnow⟩ | ⟨hnone, hsame⟩
    · rw [hplanned.addition_of_desired hwant] at hnow
      exact ⟨_, hnow, rfl, rfl⟩
    · rw [hsame]
      exact desired_of_plannedFor_eq_none hset (hlisted.single fqdn) hwant hnone
  · intro fqdn hfqdn hprunable
    rcases planned_or_unchanged hset hlisted hplan fqdn with
      ⟨change, hplanned, hnow⟩ | ⟨hnone, hsame⟩
    · rw [(hplanned.prunable_of_not_desired hset hfqdn).2] at hnow
      exact hnow
    · have habsolute : absoluteName py fqdn zone = fqdn := by
        obtain ⟨body, hzone⟩ := hset.normal
        obtain ⟨label, pre, hlabel, hpre, rfl, _⟩ := hprunable
        exact absoluteName_serverName hzone hlabel (hset.labels pre hpre)
      obtain ⟨hmanaged, hscope⟩ := (prunable_iff hset habsolute).mp hprunable
      rw [hsame]
      exact absent_of_plannedFor_eq_none (Finmap.lookup_eq_none.mpr hfqdn) hmanaged hscope hnone
  · intro fqdn hfqdn hnot
    rcases planned_or_unchanged hset hlisted hplan fqdn with
      ⟨change, hplanned, _⟩ | ⟨_, hsame⟩
    · exact absurd (hplanned.prunable_of_not_desired hset hfqdn).1 hnot
    · exact hsame
  · rw [hdeletions]
    exact happ.removed_mem
  · intro a ha r hr hkept htype heq
    rw [hadditions] at ha
    rw [hdeletions] at hkept
    obtain ⟨e, he, hadded⟩ := List.mem_filterMap.mp ha
    have hkey := (happ.wellKeyed e he).added a hadded
    obtain ⟨htypeA, hname⟩ := recordKey_eq_some_iff.mp hkey
    refine happ.added_ne a ha r hr hkept ?_
    rw [hkey]
    exact recordKey_eq_some_iff.mpr ⟨htype, heq.trans hname⟩

end Reconciled

/-! ## The reconciliation as a whole -/

section Whole

variable {py : Interpreter} {deleting : Int} {servers : List Server}
variable {prefixValues prefixes : List Str} {zoneValue zone : Str}
variable {inv : Inventory}

theorem setting_of_inventory
    (hzone : normalizeZone py zoneValue = .ok zone)
    (hprefixes : parsePrefixes py prefixValues = .ok prefixes)
    (hinv : buildInventory py deleting servers prefixes zone = .ok inv) :
    Setting py zone prefixes inv.desired :=
  ⟨normalZone_of_normalizeZone hzone, (parsePrefixes_spec hprefixes).1,
    buildInventory_names (normalizeZone_idempotent hzone) hinv⟩

end Whole

section OneServer

/-- A server with one private address. -/
def oneServer : Server where
  serverId := "id1".toList
  name := "Server1".toList
  state := 0
  networkInterfaces :=
    [{ networkInterfaceId := "2".toList
       configurationNetworkInterfaceId := "1".toList
       macAddress := []
       privateInterface := some ⟨"net".toList, "10.0.0.5".toList, []⟩ }]

/-- An outdated record of that server, a record of a server that is gone, and
one that is not managed. -/
def oldZone : List RecordSet :=
  [⟨"server1.one.zonne.".toList, typeA, 60, ["10.0.0.4".toList], []⟩,
   ⟨"gone.one".toList, typeA, 60, ["10.0.0.9".toList], []⟩,
   ⟨"www.zonne.".toList, typeA, 300, ["192.0.2.1".toList], []⟩]

/-- The record of the server is outdated: there is something to do. -/
theorem oldZone_planned
    {inv : Inventory} {indexed : Finmap (fun _ : Str => ExistingRecord)}
    (hinv : buildInventory asciiInterpreter 9 [oneServer] ["one".toList] "zonne.".toList =
      .ok inv)
    (hindexed : indexARecords asciiInterpreter oldZone "zonne.".toList = .ok indexed) :
    planChanges asciiInterpreter inv.desired indexed "zonne.".toList ["one".toList] 300 none ≠
      [] := by
  intro hempty
  have hzone : normalizeZone asciiInterpreter "Zonne".toList = .ok "zonne.".toList := by
    decide +kernel
  have hprefixes : parsePrefixes asciiInterpreter ["one".toList] = .ok ["one".toList] := by
    decide +kernel
  have hset := setting_of_inventory hzone hprefixes hinv
  have hreconciled := reconciled_of_listed hset (listed_of_indexARecords hindexed) hempty
  have hdesired : (buildInventory asciiInterpreter 9 [oneServer] ["one".toList]
      "zonne.".toList).toOption.bind (fun inv => (inv.desired.lookup
        "server1.one.zonne.".toList).map DesiredRecord.address) = some "10.0.0.5".toList := by
    decide +kernel
  rw [hinv] at hdesired
  obtain ⟨want, hwant, haddress⟩ := Option.map_eq_some_iff.mp hdesired
  obtain ⟨r, hnamed, -, hdata⟩ := hreconciled.desired_present _ want hwant
  have hold : (recordsNamed asciiInterpreter "zonne.".toList "server1.one.zonne.".toList
      (zoneAfter oldZone [[]])).map RecordSet.data = [["10.0.0.4".toList]] := by
    decide +kernel
  rw [hnamed, List.map_singleton, hdata, haddress] at hold
  revert hold
  decide

end OneServer

/-- For accepted servers, prefixes, zone and records the plan makes the zone
have exactly the desired records, and planning again finds nothing to do. -/
theorem plan_reconciles
    (py : Interpreter) (deleting : Int) (servers : List Server)
    (prefixValues prefixes : List Str) (zoneValue zone : Str)
    (ttl : Int) (pruneNames : Option (Finset Str))
    (records : List RecordSet) (inv : Inventory)
    (indexed : Finmap (fun _ : Str => ExistingRecord))
    (plan : List RecordChange) (deletions additions : List RecordSet)
    (hzone : normalizeZone py zoneValue = .ok zone)
    (hprefixes : parsePrefixes py prefixValues = .ok prefixes)
    (hinv : buildInventory py deleting servers prefixes zone = .ok inv)
    (hindexed : indexARecords py records zone = .ok indexed)
    (hplan : planChanges py inv.desired indexed zone prefixes ttl pruneNames = plan)
    (hbatch : recordSetsForBatch plan = (deletions, additions)) :
    Reconciled py zone prefixes inv.desired ttl pruneNames records deletions additions
        (updateZone records deletions additions) ∧
      ∃ indexed',
        indexARecords py (updateZone records deletions additions) zone = .ok indexed' ∧
          planChanges py inv.desired indexed' zone prefixes ttl pruneNames = [] := by
  have hset := setting_of_inventory hzone hprefixes hinv
  have hlisted := listed_of_indexARecords hindexed
  have hafter : updateZone records deletions additions = zoneAfter records [plan] := by
    simp [zoneAfter, hbatch]
  have hresult := reconciled_of_listed hset hlisted hplan
  rw [hbatch] at hresult
  rw [hafter]
  refine ⟨hresult, listed_zoneAfter hset hlisted ?_⟩
  simpa using hplan

theorem plan_reconciles_old_zone :
    ∃ (inv : Inventory) (indexed : Finmap (fun _ : Str => ExistingRecord))
      (deletions additions : List RecordSet),
      buildInventory asciiInterpreter 9 [oneServer] ["one".toList] "zonne.".toList =
          .ok inv ∧
        indexARecords asciiInterpreter oldZone "zonne.".toList = .ok indexed ∧
        Reconciled asciiInterpreter "zonne.".toList ["one".toList] inv.desired 300 none
          oldZone deletions additions (updateZone oldZone deletions additions) := by
  obtain ⟨inv, hinv⟩ := exists_of_isOk
    (show (buildInventory asciiInterpreter 9 [oneServer] ["one".toList]
      "zonne.".toList).isOk = true by decide +kernel)
  obtain ⟨indexed, hindexed⟩ := exists_of_isOk
    (show (indexARecords asciiInterpreter oldZone "zonne.".toList).isOk = true by
      decide +kernel)
  exact ⟨inv, indexed, _, _, hinv, hindexed,
    (plan_reconciles asciiInterpreter 9 [oneServer] ["one".toList] ["one".toList]
      "Zonne".toList "zonne.".toList 300 none oldZone inv indexed _ _ _
      (by decide +kernel) (by decide +kernel) hinv hindexed rfl rfl).1⟩

/-! ## An interrupted run -/

section Interrupted

/-- The zone after the first `k` requests: every name is as it was or as it
will be, an updated name keeps one record, and planning again gives the changes
left, which lead to the same zone. -/
structure Resumable
    (py : Interpreter) (zone : Str) (prefixes : List Str)
    (desired : Finmap (fun _ : Str => DesiredRecord))
    (ttl : Int) (pruneNames : Option (Finset Str))
    (records : List RecordSet) (batches : List (List RecordChange)) (k : Nat) : Prop where
  before_or_after : ∀ fqdn,
    recordsNamed py zone fqdn (zoneAfter records (batches.take k)) =
        recordsNamed py zone fqdn records ∨
      recordsNamed py zone fqdn (zoneAfter records (batches.take k)) =
        recordsNamed py zone fqdn (zoneAfter records batches)
  updated_present : ∀ change ∈ batches.flatten, change.action = .update →
    (recordsNamed py zone change.fqdn (zoneAfter records (batches.take k))).length = 1
  replanned : ∃ indexed',
    indexARecords py (zoneAfter records (batches.take k)) zone = .ok indexed' ∧
      planChanges py desired indexed' zone prefixes ttl pruneNames =
        (batches.drop k).flatten
  resumed :
    zoneAfter (zoneAfter records (batches.take k))
        (slices updateBatch (batches.drop k).flatten) =
      zoneAfter records batches

variable {py : Interpreter} {zone : Str} {prefixes : List Str}
variable {desired : Finmap (fun _ : Str => DesiredRecord)}
variable {ttl : Int} {pruneNames : Option (Finset Str)}
variable {records : List RecordSet}
variable {indexed : Finmap (fun _ : Str => ExistingRecord)}

theorem zoneAfter_append
    (records : List RecordSet) (done rest : List (List RecordChange)) :
    zoneAfter records (done ++ rest) = zoneAfter (zoneAfter records done) rest := by
  unfold zoneAfter
  rw [List.foldl_append]

theorem resumable_of_listed
    (hset : Setting py zone prefixes desired)
    (hlisted : Listed py zone records indexed)
    {plan : List RecordChange}
    (hplan : planChanges py desired indexed zone prefixes ttl pruneNames = plan)
    (k : Nat) :
    Resumable py zone prefixes desired ttl pruneNames records
      (slices updateBatch plan) k := by
  set batches := slices updateBatch plan with hbatches
  have hflatten : batches.flatten = plan := slices_flatten (by decide) plan
  have hsplit : planChanges py desired indexed zone prefixes ttl pruneNames =
      (batches.take k).flatten ++ (batches.drop k).flatten := by
    rw [hplan, ← List.flatten_append, List.take_append_drop, hflatten]
  have hwhole : planChanges py desired indexed zone prefixes ttl pruneNames =
      batches.flatten ++ [] := by
    rw [hplan, List.append_nil, hflatten]
  refine ⟨?_, ?_, listed_zoneAfter hset hlisted hsplit, ?_⟩
  · intro fqdn
    by_cases hdone : ∃ change ∈ (batches.take k).flatten, change.fqdn = fqdn
    · obtain ⟨change, hchange, rfl⟩ := hdone
      right
      have hall : change ∈ batches.flatten := by
        rw [← List.take_append_drop k batches, List.flatten_append]
        exact List.mem_append_left _ hchange
      rw [recordsNamed_zoneAfter_of_mem hset hlisted hsplit hchange,
        recordsNamed_zoneAfter_of_mem hset hlisted hwhole hall]
    · push Not at hdone
      exact Or.inl (recordsNamed_zoneAfter_of_notMem hset hlisted hsplit hdone)
  · intro change hchange hupdate
    have hmem : change ∈ planChanges py desired indexed zone prefixes ttl pruneNames := by
      rw [hplan, ← hflatten]
      exact hchange
    by_cases hdone : ∃ other ∈ (batches.take k).flatten, other.fqdn = change.fqdn
    · obtain ⟨other, hother, heq⟩ := hdone
      have hotherMem : other ∈
          planChanges py desired indexed zone prefixes ttl pruneNames := by
        rw [hsplit]
        exact List.mem_append_left _ hother
      -- a name has one change only
      have hsame : other = change := by
        have hforOther := (planned_of_mem hset hlisted hotherMem).1
        rw [heq, (planned_of_mem hset hlisted hmem).1] at hforOther
        exact (Option.some.inj hforOther).symm
      subst hsame
      rw [recordsNamed_zoneAfter_of_mem hset hlisted hsplit hother]
      simp [RecordChange.addition, hupdate]
    · push Not at hdone
      rw [recordsNamed_zoneAfter_of_notMem hset hlisted hsplit hdone]
      cases (planned_of_mem hset hlisted hmem).2 with
      | missing _ _ _ hdeletion _ =>
          simp [RecordChange.deletion, hupdate] at hdeletion
      | different _ r _ hrecords _ _ =>
          rw [hrecords]
          rfl
      | extra r _ _ _ hrecords _ _ =>
          rw [hrecords]
          rfl
  · rw [hbatches, slices_drop (by decide), ← zoneAfter_append, List.take_append_drop]

/-- The zone after some of the batches. -/
def PartlyApplied
    (records : List RecordSet) (batches : List (List RecordChange))
    (s : List RecordSet) : Prop :=
  ∃ k ≤ batches.length, s = zoneAfter records (batches.take k)

/-- Every state of a run of the remaining batches is the zone after some of
the batches. -/
theorem safe_applyEach
    (batches done rest : List (List RecordChange))
    (h : done ++ rest = batches) :
    Safe dnsService.faulty (PartlyApplied records batches) (fun _ _ => True)
      (applyEach rest) (zoneAfter records done) := by
  have hnow : ∀ done rest : List (List RecordChange), done ++ rest = batches →
      PartlyApplied records batches (zoneAfter records done) := by
    rintro done rest rfl
    exact ⟨done.length, by simp, by simp⟩
  induction rest generalizing done with
  | nil => exact ⟨hnow done [] h, trivial⟩
  | cons batch rest ih =>
      have hnext : (done ++ [batch]) ++ rest = batches := by
        rw [List.append_assoc]
        exact h
      have hzone : updateZone (zoneAfter records done)
          (batch.filterMap RecordChange.deletion) (batch.filterMap RecordChange.addition) =
          zoneAfter records (done ++ [batch]) := by
        rw [zoneAfter_append]
        rfl
      apply Safe.bind
      apply Safe.perform (hnow done _ h)
      rintro r s (hdone | ⟨⟨e, rfl⟩, rfl⟩)
      · cases hdone
        rw [hzone]
        refine ⟨hnow _ _ hnext, ?_⟩
        apply Safe.bind
        apply Safe.perform (hnow _ _ hnext)
        rintro r s (hwait | ⟨⟨e, rfl⟩, rfl⟩)
        · cases hwait
          exact ⟨hnow _ _ hnext, ih _ hnext⟩
        · exact ⟨hnow _ _ hnext, trivial⟩
      · exact ⟨hnow done _ h, trivial⟩

theorem applyChanges_eq (changes : List RecordChange) :
    applyChanges changes = applyEach (slices updateBatch changes) := by
  unfold applyChanges chunks
  rw [if_neg (by decide)]

/-- Without a failure all batches are applied. -/
theorem run_applyEach
    (batches : List (List RecordChange)) (records : List RecordSet) :
    (applyEach batches).run dnsService records = (.ok (), zoneAfter records batches) := by
  induction batches generalizing records with
  | nil => rfl
  | cons batch rest ih => exact ih _

end Interrupted

/-- A run of `apply_changes` that is cut anywhere leaves the zone after some
of its requests, and from every such zone a second run goes on where the first
one stopped. -/
theorem apply_resumable
    (py : Interpreter) (deleting : Int) (servers : List Server)
    (prefixValues prefixes : List Str) (zoneValue zone : Str)
    (ttl : Int) (pruneNames : Option (Finset Str))
    (records : List RecordSet) (inv : Inventory)
    (indexed : Finmap (fun _ : Str => ExistingRecord))
    (plan : List RecordChange) (batches : List (List RecordChange))
    (hzone : normalizeZone py zoneValue = .ok zone)
    (hprefixes : parsePrefixes py prefixValues = .ok prefixes)
    (hinv : buildInventory py deleting servers prefixes zone = .ok inv)
    (hindexed : indexARecords py records zone = .ok indexed)
    (hplan : planChanges py inv.desired indexed zone prefixes ttl pruneNames = plan)
    (hbatches : chunks plan updateBatch = .ok batches) :
    batches.flatten = plan ∧
    (∀ batch ∈ batches,
      (recordSetsForBatch batch).1.length ≤ 500 ∧
        (recordSetsForBatch batch).2.length ≤ 500) ∧
    (∀ k ≤ batches.length,
      Resumable py zone prefixes inv.desired ttl pruneNames records batches k) ∧
    (∀ s rest, Reaches dnsService.faulty records (applyChanges plan) s rest →
      PartlyApplied records batches s) ∧
    (applyChanges plan).run dnsService records = (.ok (), zoneAfter records batches) := by
  have hset := setting_of_inventory hzone hprefixes hinv
  have hlisted := listed_of_indexARecords hindexed
  have heq : slices updateBatch plan = batches := by
    unfold chunks at hbatches
    rw [if_neg (by decide)] at hbatches
    exact Except.ok.inj hbatches
  subst heq
  rw [applyChanges_eq]
  refine ⟨slices_flatten (by decide) plan, ?_, ?_, ?_, run_applyEach _ _⟩
  · intro batch hbatch
    have hle : batch.length ≤ 500 := length_le_of_mem_slices hbatch
    exact ⟨(List.length_filterMap_le _ _).trans hle, (List.length_filterMap_le _ _).trans hle⟩
  · intro k _
    exact resumable_of_listed hset hlisted hplan k
  · intro s rest hreach
    exact (safe_applyEach _ [] _ rfl).inv_of_reaches hreach

theorem apply_resumable_old_zone :
    ∃ (inv : Inventory) (indexed : Finmap (fun _ : Str => ExistingRecord))
      (plan : List RecordChange) (batches : List (List RecordChange)),
      planChanges asciiInterpreter inv.desired indexed "zonne.".toList ["one".toList] 300 none =
          plan ∧
        plan ≠ [] ∧ chunks plan updateBatch = .ok batches ∧
        Resumable asciiInterpreter "zonne.".toList ["one".toList] inv.desired 300 none oldZone
          batches 1 ∧
        (∀ s rest, Reaches dnsService.faulty oldZone (applyChanges plan) s rest →
          PartlyApplied oldZone batches s) ∧
        (applyChanges plan).run dnsService oldZone = (.ok (), zoneAfter oldZone batches) := by
  obtain ⟨inv, hinv⟩ := exists_of_isOk
    (show (buildInventory asciiInterpreter 9 [oneServer] ["one".toList]
      "zonne.".toList).isOk = true by decide +kernel)
  obtain ⟨indexed, hindexed⟩ := exists_of_isOk
    (show (indexARecords asciiInterpreter oldZone "zonne.".toList).isOk = true by
      decide +kernel)
  have hplanned := oldZone_planned hinv hindexed
  obtain ⟨-, -, hresumable, hpartly, hrun⟩ := apply_resumable asciiInterpreter 9 [oneServer]
    ["one".toList] ["one".toList] "Zonne".toList "zonne.".toList 300 none oldZone inv indexed _ _
    (by decide +kernel) (by decide +kernel) hinv hindexed rfl rfl
  refine ⟨inv, indexed, _, _, rfl, hplanned, rfl, hresumable 1 ?_, hpartly, hrun⟩
  rw [slices_cons (by decide) hplanned]
  exact Nat.succ_le_succ (Nat.zero_le _)

end Dns
end YdbSnippets
