import YdbSnippets.Dns.Inventory
import YdbSnippets.Effects.Program
import Mathlib.Data.Finset.Sort

/-!
# Planning and applying the changes

`index_a_records`, `plan_changes`, `record_sets_for_batch`, `chunks` and
`apply_changes` of `register_private_dns.py`.
-/

namespace YdbSnippets
namespace Dns

open Python Effects

/-- `RecordSet` -/
structure RecordSet where
  name : Str
  type : Str
  ttl : Int
  data : List Str
  description : Str
deriving DecidableEq, Repr

/-- `ExistingRecord` -/
structure ExistingRecord where
  fqdn : Str
  apiName : Str
  ttl : Int
  data : List Str
  description : Str
deriving DecidableEq, Repr

inductive ChangeAction
  | add
  | update
  | delete
deriving DecidableEq, Repr

/-- `RecordChange` -/
structure RecordChange where
  action : ChangeAction
  fqdn : Str
  ttl : Int
  address : Str
  previousName : Str
  previousTtl : Int
  previousData : List Str
  previousDescription : Str
deriving DecidableEq, Repr

/-- The type of the records the script works on. -/
def typeA : Str := ['A']

section Planning

/-- The loop of `index_a_records`. -/
def indexFrom
    (py : Interpreter) (zone : Str) :
    List RecordSet → Finmap (fun _ : Str => ExistingRecord) →
      Except RegistrationError (Finmap (fun _ : Str => ExistingRecord))
  | [], indexed => .ok indexed
  | record :: rest, indexed =>
      if record.type ≠ typeA then
        indexFrom py zone rest indexed
      else
        let fqdn := absoluteName py record.name zone
        if fqdn ∈ indexed then
          .error (.repeatedRecord fqdn)
        else
          indexFrom py zone rest (indexed.insert fqdn
            { fqdn := fqdn
              apiName := record.name
              ttl := record.ttl
              data := record.data
              description := record.description })

/-- `index_a_records` -/
def indexARecords
    (py : Interpreter) (recordSets : List RecordSet) (zone : Str) :
    Except RegistrationError (Finmap (fun _ : Str => ExistingRecord)) :=
  indexFrom py zone recordSets ∅

/-- `prune_names is None or label in prune_names` -/
def inScope (pruneNames : Option (Finset Str)) (label : Option Str) : Bool :=
  match pruneNames with
  | none => true
  | some names => label.any (fun label => decide (label ∈ names))

/-- The body of the loop of `plan_changes`, for one name. -/
def planChange
    (py : Interpreter) (zone : Str) (prefixes : List Str)
    (ttl : Int) (pruneNames : Option (Finset Str)) (fqdn : Str) :
    Option DesiredRecord → Option ExistingRecord → Option RecordChange
  | some want, some existing =>
      if existing.ttl = ttl ∧ existing.data = [want.address] then
        none
      else
        some
          { action := .update
            fqdn := fqdn
            ttl := ttl
            address := want.address
            previousName := existing.apiName
            previousTtl := existing.ttl
            previousData := existing.data
            previousDescription := existing.description }
  | some want, none =>
      some
        { action := .add
          fqdn := fqdn
          ttl := ttl
          address := want.address
          previousName := []
          previousTtl := 0
          previousData := []
          previousDescription := [] }
  | none, some existing =>
      if inScope pruneNames (managedLabel py fqdn zone prefixes) then
        some
          { action := .delete
            fqdn := fqdn
            ttl := 0
            address := []
            previousName := existing.apiName
            previousTtl := existing.ttl
            previousData := existing.data
            previousDescription := existing.description }
      else
        none
  -- the source asserts that a name of the loop is desired or managed
  | none, none => none

/-- `plan_changes` -/
def planChanges
    (py : Interpreter)
    (desired : Finmap (fun _ : Str => DesiredRecord))
    (existing : Finmap (fun _ : Str => ExistingRecord))
    (zone : Str) (prefixes : List Str) (ttl : Int)
    (pruneNames : Option (Finset Str)) : List RecordChange :=
  let isManaged (fqdn : Str) : Bool := (managedLabel py fqdn zone prefixes).isSome
  let names := desired.keys ∪ existing.keys.filter (fun fqdn => isManaged fqdn = true)
  (names.sort (· ≤ ·)).filterMap (fun fqdn =>
    planChange py zone prefixes ttl pruneNames fqdn
      (desired.lookup fqdn)
      (if isManaged fqdn then existing.lookup fqdn else none))

/-- `prune_scope` -/
def pruneScope
    (serverNames : Finset Str) (filtered prune : Bool) : Option (Finset Str) :=
  if !prune then some ∅
  else if filtered then some serverNames
  else none

end Planning

section Applying

/-- The deletion a change stands for. -/
def RecordChange.deletion (change : RecordChange) : Option RecordSet :=
  if change.action = .delete ∨ change.action = .update then
    some
      { name := change.previousName
        type := typeA
        ttl := change.previousTtl
        data := change.previousData
        description := change.previousDescription }
  else
    none

/-- The addition a change stands for. -/
def RecordChange.addition (change : RecordChange) : Option RecordSet :=
  if change.action = .add ∨ change.action = .update then
    some
      { name := change.fqdn
        type := typeA
        ttl := change.ttl
        data := [change.address]
        description := [] }
  else
    none

/-- `record_sets_for_batch` -/
def recordSetsForBatch (changes : List RecordChange) : List RecordSet × List RecordSet :=
  (changes.filterMap RecordChange.deletion, changes.filterMap RecordChange.addition)

/-- The slices `items[start : start + size]` for `start` in
`range(0, len(items), size)`. -/
def slices {α : Type} (size : Nat) (items : List α) : List (List α) :=
  (List.range ((items.length + size - 1) / size)).map
    (fun i => (items.drop (i * size)).take size)

/-- `chunks` -/
def chunks {α : Type} (items : List α) (size : Nat) : Except BuiltinError (List (List α)) :=
  if size < 1 then .error .valueError else .ok (slices size items)

/-- `UPDATE_BATCH` -/
def updateBatch : Nat := 500

/-- What `apply_changes` asks of the DNS service. -/
inductive DnsCall
  | updateRecordSets (deletions additions : List RecordSet)
  | waitOperation
deriving DecidableEq, Repr

/-- The calls have no answer the script looks at. -/
def dnsApi : Signature where
  Op := DnsCall
  Answer _ := Unit

/-- The loop of `apply_changes`. -/
def applyEach : List (List RecordChange) → Program dnsApi RegistrationError Unit
  | [] => pure ()
  | batch :: rest => do
      let (deletions, additions) := recordSetsForBatch batch
      let _ ← Program.perform (S := dnsApi) (.updateRecordSets deletions additions)
      let _ ← Program.perform (S := dnsApi) .waitOperation
      applyEach rest

/-- `apply_changes` -/
def applyChanges (changes : List RecordChange) : Program dnsApi RegistrationError Unit :=
  match chunks changes updateBatch with
  | .ok batches => applyEach batches
  | .error _ => throw .badBatchSize

/-- The zone after a request, which is carried out as a whole. -/
def updateZone (zone deletions additions : List RecordSet) : List RecordSet :=
  zone.filter (fun r => decide (r ∉ deletions)) ++ additions

/-- The zone as the DNS service keeps it. -/
def dnsService : Handler dnsApi RegistrationError (List RecordSet)
  | zone, .updateRecordSets deletions additions =>
      (.ok (), updateZone zone deletions additions)
  | zone, .waitOperation => (.ok (), zone)

/-- Cutting into slices takes the first slice and goes on with the rest. -/
theorem slices_cons
    {α : Type} {size : Nat} {items : List α}
    (hsize : 0 < size) (hitems : items ≠ []) :
    slices size items = items.take size :: slices size (items.drop size) := by
  have hlen : 0 < items.length := List.length_pos_iff.mpr hitems
  have hcount : (items.length + size - 1) / size =
      ((items.drop size).length + size - 1) / size + 1 := by
    rw [List.length_drop]
    by_cases hle : items.length ≤ size
    · have hleft : (items.length + size - 1) / size = 1 :=
        Nat.div_eq_of_lt_le (by omega) (by omega)
      have hright : (items.length - size + size - 1) / size = 0 :=
        Nat.div_eq_of_lt (by omega)
      rw [hleft, hright]
    · have hsplit : items.length + size - 1 =
          (items.length - size + size - 1) + size := by omega
      rw [hsplit, Nat.add_div_right _ hsize]
  unfold slices
  rw [hcount, List.range_succ_eq_map, List.map_cons, List.map_map]
  congr 1
  · simp
  · apply List.map_congr_left
    intro i _
    simp only [Function.comp_apply, List.drop_drop]
    congr 2
    rw [Nat.succ_mul, Nat.add_comm]

theorem slices_nil
    {α : Type} {size : Nat}
    (hsize : 0 < size) :
    slices size ([] : List α) = [] := by
  unfold slices
  rw [List.length_nil, Nat.zero_add, Nat.div_eq_of_lt (by omega)]
  rfl

/-- The slices put together are the items. -/
theorem slices_flatten
    {α : Type} {size : Nat}
    (hsize : 0 < size) (items : List α) :
    (slices size items).flatten = items := by
  induction hn : items.length using Nat.strong_induction_on generalizing items with
  | _ n ih =>
      by_cases hitems : items = []
      · rw [hitems, slices_nil hsize]
        rfl
      · have hlen : 0 < items.length := List.length_pos_iff.mpr hitems
        rw [slices_cons hsize hitems, List.flatten_cons,
          ih (items.drop size).length (by rw [List.length_drop]; omega) _ rfl]
        exact List.take_append_drop size items

theorem length_le_of_mem_slices
    {α : Type} {size : Nat} {items slice : List α}
    (h : slice ∈ slices size items) :
    slice.length ≤ size := by
  obtain ⟨i, _, rfl⟩ := List.mem_map.mp h
  exact List.length_take_le _ _

/-- The slices of what a number of slices leaves are the slices left. -/
theorem slices_drop
    {α : Type} {size : Nat}
    (hsize : 0 < size) (items : List α) (k : Nat) :
    slices size ((slices size items).drop k).flatten = (slices size items).drop k := by
  induction k generalizing items with
  | zero => rw [List.drop_zero, slices_flatten hsize]
  | succ k ih =>
      by_cases hitems : items = []
      · rw [hitems, slices_nil hsize]
        simp [slices_nil hsize]
      · rw [slices_cons hsize hitems, List.drop_succ_cons]
        exact ih (items.drop size)

end Applying

end Dns
end YdbSnippets
