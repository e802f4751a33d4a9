import YdbSnippets.Lists.Paging
import YdbSnippets.UuidSharded.Uuids

/-!
# The prefix sampler

`sample_prefix_distribution` of `partition_analysis.py`: the ids of a table are
read batch by batch, each batch behind the last id that could be decoded.
-/

namespace YdbSnippets
namespace UuidSharded

open Paging Sorting

section Definitions

/-- `MAX_QUERY_ROWS` -/
def maxQueryRows : Int := 1000

/-- What the driver returns for the column `id`. -/
inductive RowValue
  | uuid (u : Uuid)
  | bytes (data : List (BitVec 8))
  | other

/-- `normalize_row_uuid` -/
def normalizeRowUuid : RowValue → Option Uuid
  | .uuid u => some u
  | .bytes data => if data.length = 16 then Uuid.ofBytesLe data else none
  | .other => none

/-- `ZERO_UUID` -/
def zeroUuid : Uuid := ⟨Vector.replicate 16 0⟩

/-- The variables of `callee`. -/
structure SampleState where
  ids : List KeyBytes
  lastId : Uuid

/-- The loop over the rows of a batch. -/
def idsOf (rows : List RowValue) : List KeyBytes :=
  rows.filterMap fun row => (normalizeRowUuid row).map Uuid.bytesLe

/-- The loop of `callee`, or `none` if it is still running after this many turns.
The query gives the rows behind an id, up to a limit. -/
def sampleLoop (query : Uuid → Nat → List RowValue) (batchSize sampleSize : Nat) :
    Nat → SampleState → Option SampleState
  | 0, _ => none
  | fuel + 1, s =>
      if s.ids.length < sampleSize then
        let currentLimit := min batchSize (sampleSize - s.ids.length)
        let rows := query s.lastId currentLimit
        match rows.getLast? with
        | none => some s
        | some last =>
            sampleLoop query batchSize sampleSize fuel {
              ids := s.ids ++ idsOf rows
              lastId := (normalizeRowUuid last).getD s.lastId }
      else some s

/-- The batch size that is used. -/
def clampBatchSize (batchSize : Int) : Nat :=
  (max 1 (min batchSize maxQueryRows)).toNat

/-- The ids that `sample_prefix_distribution` collects. -/
def samplePrefixIds (query : Uuid → Nat → List RowValue) (sampleSize : Nat) (batchSize : Int)
    (fuel : Nat) : Option (List KeyBytes) :=
  (sampleLoop query (clampBatchSize batchSize) sampleSize fuel ⟨[], zeroUuid⟩).map
    SampleState.ids

/-- `SELECT id ... WHERE id > $last ORDER BY id LIMIT $limit`, where the driver has a
value for every id. -/
def tableQuery (table : List Uuid) (value : Uuid → RowValue) (last : Uuid) (limit : Nat) :
    List RowValue :=
  ((after Uuid.key last.key (sortedBy Uuid.key table)).take limit).map value

/-- The driver returns an id as a UUID, as sixteen bytes, or as something that is
not decoded. -/
def Returns (value : Uuid → RowValue) : Prop :=
  ∀ u, value u = .uuid u ∨ value u = .bytes u.bytesLe.toList ∨
    normalizeRowUuid (value u) = none

end Definitions

section Decoding

variable {value : Uuid → RowValue}

/-- The driver's value for the id is decoded. -/
def Decodes (value : Uuid → RowValue) (u : Uuid) : Bool :=
  (normalizeRowUuid (value u)).isSome

/-- What is decoded is the id. -/
theorem normalize_of_decodes
    (hreturns : Returns value) {u : Uuid} (h : Decodes value u = true) :
    normalizeRowUuid (value u) = some u := by
  rcases hreturns u with huuid | hbytes | hnone
  · rw [huuid]
    rfl
  · rw [hbytes]
    simp [normalizeRowUuid]
  · rw [Decodes, hnone] at h
    cases h

theorem normalize_of_not_decodes
    {u : Uuid} (h : Decodes value u = false) :
    normalizeRowUuid (value u) = none := by
  rw [Decodes] at h
  exact Option.isNone_iff_eq_none.mp (Option.isSome_eq_false_iff.mp h)

/-- The ids of a batch are those of its rows that are decoded. -/
theorem idsOf_map
    (hreturns : Returns value) (rows : List Uuid) :
    idsOf (rows.map value) = (rows.filter (Decodes value)).map Uuid.bytesLe := by
  unfold idsOf
  induction rows with
  | nil => rfl
  | cons u rows ih =>
      rw [List.map_cons, List.filterMap_cons, ih]
      cases hdecodes : Decodes value u with
      | true =>
          rw [normalize_of_decodes hreturns hdecodes, List.filter_cons_of_pos hdecodes]
          rfl
      | false =>
          rw [normalize_of_not_decodes hdecodes, List.filter_cons_of_neg (by simp [hdecodes])]
          rfl

end Decoding

section Runs

variable {table : List Uuid} {value : Uuid → RowValue} {batchSize sampleSize : Nat}

/-- The ids behind an id, in the order of the keys. -/
def idsBehind (table : List Uuid) (last : Uuid) : List Uuid :=
  after Uuid.key last.key (sortedBy Uuid.key table)

/-- Every batch that is read ends with an id that is decoded.  The sample still has
room for the first number of ids. -/
inductive BatchesDecode (value : Uuid → RowValue) (batchSize : Nat) : Nat → List Uuid → Prop
  | full (rows : List Uuid) :
      BatchesDecode value batchSize 0 rows
  | finished (room : Nat) :
      BatchesDecode value batchSize room []
  | batch
      {room : Nat} {rows : List Uuid} {last : Uuid}
      (hlast : (rows.take (min batchSize room)).getLast? = some last)
      (hdecodes : Decodes value last = true)
      (hrest : BatchesDecode value batchSize
        (room - ((rows.take (min batchSize room)).filter (Decodes value)).length)
        (rows.drop (min batchSize room))) :
      BatchesDecode value batchSize room rows

theorem sortedBy_key_strict
    (hnodup : table.Nodup) :
    (sortedBy Uuid.key table).Pairwise fun a b => a.key < b.key := by
  have hsorted := ascending_sortedBy Uuid.key table
  have hdistinct : (sortedBy Uuid.key table).Nodup :=
    (sortedBy_perm Uuid.key table).nodup_iff.mpr hnodup
  refine (List.Pairwise.and hsorted hdistinct).imp ?_
  rintro a b ⟨hle, hne⟩
  exact lt_of_le_of_ne hle fun h => hne (Uuid.key_injective h)

theorem idsBehind_strict
    (hnodup : table.Nodup) (last : Uuid) :
    (idsBehind table last).Pairwise fun a b => a.key < b.key :=
  (sortedBy_key_strict hnodup).sublist (after_sublist _ _ _)

/-- Behind the last id of a batch are the ids behind the batch. -/
theorem idsBehind_last
    (hnodup : table.Nodup) {last next : Uuid} {n : Nat}
    (hnext : ((idsBehind table last).take n).getLast? = some next) :
    idsBehind table next = (idsBehind table last).drop n := by
  have hstrict := idsBehind_strict hnodup last
  have hsplit : ((idsBehind table last).take n ++ (idsBehind table last).drop n).Pairwise
      fun a b => a.key < b.key := by
    rwa [List.take_append_drop]
  have hmem : next ∈ (idsBehind table last).take n := List.mem_of_getLast? hnext
  have hlt : last.key < next.key := (mem_after.mp (List.mem_of_mem_take hmem)).2
  have hsorted : Ascending Uuid.key
      ((idsBehind table last).take n ++ (idsBehind table last).drop n) :=
    hsplit.imp le_of_lt
  have hbehind := after_last hsorted hnext
  rw [List.take_append_drop, idsBehind, after_after hlt.le] at hbehind
  rw [idsBehind, hbehind]
  exact after_eq_self fun a ha => (List.pairwise_append.mp hsplit).2.2 next hmem a ha

/-- A turn of the loop that reads a batch. -/
theorem sampleLoop_batch
    (hreturns : Returns value) {s : SampleState} {last : Uuid}
    (hroom : s.ids.length < sampleSize)
    (hlast : ((idsBehind table s.lastId).take
      (min batchSize (sampleSize - s.ids.length))).getLast? = some last)
    (fuel : Nat) :
    sampleLoop (tableQuery table value) batchSize sampleSize (fuel + 1) s =
      sampleLoop (tableQuery table value) batchSize sampleSize fuel {
        ids := s.ids ++ (((idsBehind table s.lastId).take
          (min batchSize (sampleSize - s.ids.length))).filter (Decodes value)).map Uuid.bytesLe
        lastId := if Decodes value last then last else s.lastId } := by
  have hquery : tableQuery table value s.lastId (min batchSize (sampleSize - s.ids.length)) =
      ((idsBehind table s.lastId).take
        (min batchSize (sampleSize - s.ids.length))).map value := rfl
  have hlastId : (normalizeRowUuid (value last)).getD s.lastId =
      if Decodes value last then last else s.lastId := by
    cases hdecodes : Decodes value last with
    | true => rw [normalize_of_decodes hreturns hdecodes, if_pos rfl]; rfl
    | false => rw [normalize_of_not_decodes hdecodes, if_neg Bool.false_ne_true]; rfl
  rw [sampleLoop, if_pos hroom]
  dsimp only
  rw [hquery, List.getLast?_map, hlast, Option.map_some]
  dsimp only
  rw [idsOf_map hreturns, hlastId]

/-- A turn of the loop that ends it. -/
theorem sampleLoop_end
    {s : SampleState}
    (hend : sampleSize ≤ s.ids.length ∨
      (idsBehind table s.lastId).take (min batchSize (sampleSize - s.ids.length)) = [])
    (fuel : Nat) :
    sampleLoop (tableQuery table value) batchSize sampleSize (fuel + 1) s = some s := by
  rw [sampleLoop]
  split
  · next hroom =>
      have hnil := hend.resolve_left (Nat.not_le.mpr hroom)
      have hquery : tableQuery table value s.lastId
          (min batchSize (sampleSize - s.ids.length)) = [] := by
        unfold tableQuery
        unfold idsBehind at hnil
        rw [hnil, List.map_nil]
      dsimp only
      rw [hquery]
      rfl
  · rfl

/-- From the one state to the other the decoded ids of a front part of the rows are
collected, and all that there is room for when all are decoded. -/
def CollectedFront
    (value : Uuid → RowValue) (sampleSize room : Nat) (rows : List Uuid)
    (s s' : SampleState) : Prop :=
  ∃ visited, visited <+: rows ∧
    s'.ids = s.ids ++ (visited.filter (Decodes value)).map Uuid.bytesLe ∧
    s'.ids.length ≤ sampleSize ∧
    ((∀ u ∈ rows, Decodes value u = true) → visited = rows.take room)

theorem collectedFront_nil
    {room : Nat} {rows : List Uuid} {s : SampleState}
    (hend : room = 0 ∨ rows = []) (hroom : s.ids.length + room = sampleSize) :
    CollectedFront value sampleSize room rows s s := by
  refine ⟨[], List.nil_prefix, by simp, by omega, ?_⟩
  rcases hend with rfl | rfl <;> simp

/-- A batch and what is collected behind it. -/
theorem CollectedFront.batch
    {room n : Nat} {rows : List Uuid} {s s' : SampleState} {last : Uuid}
    (hn : n ≤ room)
    (h : CollectedFront value sampleSize (room - ((rows.take n).filter (Decodes value)).length)
      (rows.drop n) ⟨s.ids ++ ((rows.take n).filter (Decodes value)).map Uuid.bytesLe, last⟩ s') :
    CollectedFront value sampleSize room rows s s' := by
  obtain ⟨visited, ⟨rest, hrest⟩, hids, hlength, hall⟩ := h
  refine ⟨rows.take n ++ visited, ?_, ?_, hlength, ?_⟩
  · refine ⟨rest, ?_⟩
    rw [List.append_assoc, hrest, List.take_append_drop]
  · rw [hids, List.filter_append, List.map_append, List.append_assoc]
  · intro hdecodes
    have hfilter : (rows.take n).filter (Decodes value) = rows.take n :=
      List.filter_eq_self.mpr fun u hu => hdecodes u (List.mem_of_mem_take hu)
    rw [hall fun u hu => hdecodes u (List.mem_of_mem_drop hu), hfilter, List.length_take]
    rcases Nat.le_total rows.length n with hshort | hlong
    · rw [List.take_of_length_le hshort, List.drop_of_length_le hshort, List.take_nil,
        List.append_nil, List.take_of_length_le (by omega)]
    · rw [Nat.min_eq_left hlong, ← List.take_add]
      congr 1
      omega

/-- When every batch ends with an id that is decoded, the loop collects the decoded
ids of a front part of the table, and all that there is room for when all are
decoded. -/
theorem sampleLoop_of_batchesDecode
    (hnodup : table.Nodup) (hreturns : Returns value) {room : Nat} {rows : List Uuid}
    (h : BatchesDecode value batchSize room rows) {s : SampleState}
    (hrows : idsBehind table s.lastId = rows) (hroom : s.ids.length + room = sampleSize) :
    ∃ (enough : Nat) (s' : SampleState),
      (∀ fuel, enough ≤ fuel →
        sampleLoop (tableQuery table value) batchSize sampleSize fuel s = some s') ∧
      CollectedFront value sampleSize room rows s s' := by
  have hfinal : ∀ {s : SampleState} {room : Nat} {rows : List Uuid},
      idsBehind table s.lastId = rows → s.ids.length + room = sampleSize →
      room = 0 ∨ rows = [] →
      ∀ fuel, 1 ≤ fuel →
        sampleLoop (tableQuery table value) batchSize sampleSize fuel s = some s := by
    intro s room rows hrows hroom hend fuel hfuel
    obtain ⟨more, rfl⟩ : ∃ more, fuel = more + 1 := ⟨fuel - 1, by omega⟩
    refine sampleLoop_end ?_ more
    rcases hend with rfl | hnil
    · exact Or.inl (by omega)
    · rw [hrows, hnil]
      exact Or.inr List.take_nil
  induction h generalizing s with
  | full rows =>
      exact ⟨1, s, hfinal hrows hroom (Or.inl rfl), collectedFront_nil (Or.inl rfl) hroom⟩
  | finished room =>
      exact ⟨1, s, hfinal hrows hroom (Or.inr rfl), collectedFront_nil (Or.inr rfl) hroom⟩
  | @batch room rows last hlast hdecodes hrest ih =>
      have hlimit : min batchSize (sampleSize - s.ids.length) = min batchSize room := by
        rw [← hroom, Nat.add_sub_cancel_left]
      have hpos : 0 < room := by
        rcases Nat.eq_zero_or_pos room with rfl | hpos
        · simp at hlast
        · exact hpos
      have hlast' : ((idsBehind table s.lastId).take
          (min batchSize (sampleSize - s.ids.length))).getLast? = some last := by
        rw [hrows, hlimit]
        exact hlast
      have hstep := sampleLoop_batch hreturns (by omega) hlast'
      rw [hrows, hlimit, if_pos hdecodes] at hstep
      have hdecoded : ((rows.take (min batchSize room)).filter (Decodes value)).length ≤
          min batchSize room :=
        (List.length_filter_le _ _).trans (List.length_take_le _ _)
      have hnext : idsBehind table last = rows.drop (min batchSize room) := by
        rw [← hrows]
        exact idsBehind_last hnodup (by rw [hrows]; exact hlast)
      obtain ⟨enough, s', hrun, hcollected⟩ :=
        ih (s := ⟨s.ids ++ ((rows.take (min batchSize room)).filter (Decodes value)).map
          Uuid.bytesLe, last⟩) hnext (by
            rw [List.length_append, List.length_map]
            omega)
      refine ⟨enough + 1, s', ?_, hcollected.batch (Nat.min_le_right _ _)⟩
      intro fuel hfuel
      obtain ⟨more, rfl⟩ : ∃ more, fuel = more + 1 := ⟨fuel - 1, by omega⟩
      rw [hstep, hrun more (by omega)]

/-- The collected ids are kept. -/
theorem ids_prefix_of_sampleLoop
    (hreturns : Returns value) {fuel : Nat} {s s' : SampleState}
    (h : sampleLoop (tableQuery table value) batchSize sampleSize fuel s = some s') :
    s.ids <+: s'.ids := by
  induction fuel generalizing s with
  | zero => cases h
  | succ fuel ih =>
      by_cases hroom : s.ids.length < sampleSize
      · cases hlast : ((idsBehind table s.lastId).take
            (min batchSize (sampleSize - s.ids.length))).getLast? with
        | none =>
            rw [sampleLoop_end (Or.inr (List.getLast?_eq_none_iff.mp hlast))] at h
            cases h
            exact List.prefix_refl _
        | some last =>
            rw [sampleLoop_batch hreturns hroom hlast] at h
            exact (List.prefix_append _ _).trans (ih h)
      · rw [sampleLoop_end (Or.inl (Nat.not_lt.mp hroom))] at h
        cases h
        exact List.prefix_refl _

/-- When the decoded ids of the next batch are collected already and its last id is
not decoded, the loop does not end, or it collects an id again. -/
theorem not_ends_of_stalled
    (hreturns : Returns value) {fuel : Nat} {s s' : SampleState}
    (hroom : s.ids.length < sampleSize)
    (hne : (idsBehind table s.lastId).take (min batchSize (sampleSize - s.ids.length)) ≠ [])
    (hcollected : ∀ u ∈ (idsBehind table s.lastId).take
      (min batchSize (sampleSize - s.ids.length)), Decodes value u = true → u.bytesLe ∈ s.ids)
    (h : sampleLoop (tableQuery table value) batchSize sampleSize fuel s = some s') :
    ¬ s'.ids.Nodup := by
  induction fuel generalizing s with
  | zero => cases h
  | succ fuel ih =>
      have hlast := List.getLast?_eq_some_getLast hne
      have hmem := List.getLast_mem hne
      rw [sampleLoop_batch hreturns hroom hlast] at h
      by_cases hany : ∃ u ∈ (idsBehind table s.lastId).take
          (min batchSize (sampleSize - s.ids.length)), Decodes value u = true
      · obtain ⟨u, hu, hdecodes⟩ := hany
        intro hnodup
        have htaken := ids_prefix_of_sampleLoop hreturns h
        have hparts := (List.nodup_append.mp (hnodup.sublist htaken.sublist)).2.2
        have hagain : u.bytesLe ∈ (((idsBehind table s.lastId).take
            (min batchSize (sampleSize - s.ids.length))).filter (Decodes value)).map
              Uuid.bytesLe :=
          List.mem_map_of_mem (List.mem_filter.mpr ⟨hu, hdecodes⟩)
        exact hparts _ (hcollected u hu hdecodes) _ hagain rfl
      · have hnone : ∀ u ∈ (idsBehind table s.lastId).take
            (min batchSize (sampleSize - s.ids.length)), ¬ Decodes value u = true :=
          fun u hu hdecodes => hany ⟨u, hu, hdecodes⟩
        rw [List.filter_eq_nil_iff.mpr hnone, List.map_nil, List.append_nil,
          if_neg (hnone _ hmem)] at h
        exact ih hroom hne hcollected h

/-- When the loop ends and collects no id twice, every batch ends with an id that
is decoded. -/
theorem batchesDecode_of_sampleLoop
    (hnodup : table.Nodup) (hreturns : Returns value) {fuel : Nat} {s s' : SampleState}
    (hbatch : 0 < batchSize)
    (h : sampleLoop (tableQuery table value) batchSize sampleSize fuel s = some s')
    (hids : s'.ids.Nodup) :
    BatchesDecode value batchSize (sampleSize - s.ids.length) (idsBehind table s.lastId) := by
  induction fuel generalizing s with
  | zero => cases h
  | succ fuel ih =>
      by_cases hroom : s.ids.length < sampleSize
      · cases hlast : ((idsBehind table s.lastId).take
            (min batchSize (sampleSize - s.ids.length))).getLast? with
        | none =>
            have hnil : idsBehind table s.lastId = [] := by
              rcases List.take_eq_nil_iff.mp (List.getLast?_eq_none_iff.mp hlast) with
                hzero | hnil
              · omega
              · exact hnil
            rw [hnil]
            exact .finished _
        | some last =>
            rw [sampleLoop_batch hreturns hroom hlast] at h
            cases hdecodes : Decodes value last with
            | true =>
                rw [hdecodes, if_pos rfl] at h
                have hrest := ih h
                rw [idsBehind_last hnodup hlast, List.length_append, List.length_map,
                  ← Nat.sub_sub] at hrest
                exact .batch hlast hdecodes hrest
            | false =>
                exfalso
                rw [hdecodes, if_neg Bool.false_ne_true] at h
                have hmem := List.mem_of_getLast? hlast
                have hfewer : (((idsBehind table s.lastId).take
                    (min batchSize (sampleSize - s.ids.length))).filter (Decodes value)).length <
                    sampleSize - s.ids.length := by
                  have hlt := List.length_filter_lt_length_iff_exists (p := Decodes value).mpr
                    ⟨last, hmem, by simp [hdecodes]⟩
                  have hle := List.length_take_le (min batchSize (sampleSize - s.ids.length))
                    (idsBehind table s.lastId)
                  omega
                refine not_ends_of_stalled hreturns ?_ ?_ ?_ h hids
                · rw [List.length_append, List.length_map]
                  omega
                · rw [ne_eq, List.take_eq_nil_iff, List.length_append, List.length_map]
                  rintro (hzero | hnil)
                  · omega
                  · simp [hnil] at hmem
                · intro u hu hdecodesU
                  refine List.mem_append_right _ (List.mem_map_of_mem
                    (List.mem_filter.mpr ⟨?_, hdecodesU⟩))
                  refine (List.take_prefix_take_left ?_).subset hu
                  rw [List.length_append, List.length_map]
                  omega
      · rw [Nat.sub_eq_zero_of_le (Nat.not_lt.mp hroom)]
        exact .full _

/-- When all ids are decoded, so are the last ids of the batches. -/
theorem batchesDecode_of_all
    (hbatch : 0 < batchSize) {room : Nat} {rows : List Uuid}
    (h : ∀ u ∈ rows, Decodes value u = true) :
    BatchesDecode value batchSize room rows := by
  induction hlength : rows.length using Nat.strongRecOn generalizing room rows with
  | ind n ih =>
      rcases Nat.eq_zero_or_pos room with rfl | hroom
      · exact .full rows
      · by_cases hrows : rows = []
        · rw [hrows]
          exact .finished room
        · obtain ⟨last, hlast⟩ := exists_last (lt_min hbatch hroom) hrows
          have hmem := List.mem_of_mem_take (List.mem_of_getLast? hlast)
          refine .batch hlast (h last hmem) (ih _ ?_ ?_ rfl)
          · rw [List.length_drop, hlength]
            have hpos := List.length_pos_iff.mpr hrows
            omega
          · exact fun u hu => h u (List.mem_of_mem_drop hu)

theorem clampBatchSize_pos (batchSize : Int) :
    0 < clampBatchSize batchSize := by
  unfold clampBatchSize
  omega

/-- The sampler ends, collects no id twice and not more than it is asked for, and
collects the first ids behind zero when all of them are decoded. -/
def SamplesOnce (table : List Uuid) (value : Uuid → RowValue) (sampleSize : Nat)
    (batchSize : Int) : Prop :=
  ∃ (enough : Nat) (ids : List KeyBytes),
    (∀ fuel, enough ≤ fuel →
      samplePrefixIds (tableQuery table value) sampleSize batchSize fuel = some ids) ∧
    ids.Nodup ∧
    ids.length ≤ sampleSize ∧
    ((∀ u ∈ idsBehind table zeroUuid, Decodes value u = true) →
      ids = ((idsBehind table zeroUuid).take sampleSize).map Uuid.bytesLe)

theorem batchesDecode_of_samplesOnce
    (hnodup : table.Nodup) (hreturns : Returns value) {batchSize : Int}
    (h : SamplesOnce table value sampleSize batchSize) :
    BatchesDecode value (clampBatchSize batchSize) sampleSize (idsBehind table zeroUuid) := by
  obtain ⟨enough, ids, hrun, hids, -⟩ := h
  obtain ⟨s', hloop, rfl⟩ := Option.map_eq_some_iff.mp (hrun enough le_rfl)
  exact batchesDecode_of_sampleLoop hnodup hreturns (clampBatchSize_pos batchSize) hloop hids

theorem samplesOnce_of_batchesDecode
    (hnodup : table.Nodup) (hreturns : Returns value) {batchSize : Int}
    (h : BatchesDecode value (clampBatchSize batchSize) sampleSize (idsBehind table zeroUuid)) :
    SamplesOnce table value sampleSize batchSize := by
  obtain ⟨enough, s', hrun, visited, htaken, hids, hlength, hall⟩ :=
    sampleLoop_of_batchesDecode hnodup hreturns h (s := ⟨[], zeroUuid⟩) rfl (Nat.zero_add _)
  rw [List.nil_append] at hids
  refine ⟨enough, s'.ids, fun fuel hfuel => ?_, ?_, hlength, fun hdecodes => ?_⟩
  · rw [samplePrefixIds, hrun fuel hfuel]
    rfl
  · have hdistinct : (idsBehind table zeroUuid).Nodup :=
      (idsBehind_strict hnodup zeroUuid).imp fun hlt heq => absurd hlt (by simp [heq])
    rw [hids]
    exact ((hdistinct.sublist htaken.sublist).filter _).map Uuid.bytesLe_injective
  · have hvisited : visited.filter (Decodes value) = visited :=
      List.filter_eq_self.mpr fun u hu => hdecodes u (htaken.subset hu)
    rw [hids, hvisited, hall hdecodes]

/-- The sampler ends and samples each row at most once if and only if every batch
that it reads ends with an id that can be decoded. -/
theorem samples_once_iff
    (table : List Uuid)
    (hnodup : table.Nodup)
    (value : Uuid → RowValue)
    (hreturns : Returns value)
    (sampleSize : Nat)
    (batchSize : Int) :
    SamplesOnce table value sampleSize batchSize ↔
      BatchesDecode value (clampBatchSize batchSize) sampleSize (idsBehind table zeroUuid) :=
  ⟨batchesDecode_of_samplesOnce hnodup hreturns, samplesOnce_of_batchesDecode hnodup hreturns⟩

/-- A UUID that is not zero. -/
def someUuid : Uuid := ⟨Vector.replicate 16 1⟩

/-- Three rows, which are two batches of two. -/
def threeUuids : List Uuid :=
  [⟨Vector.replicate 16 3⟩, someUuid, ⟨Vector.replicate 16 2⟩]

theorem samples_once_decoded :
    SamplesOnce threeUuids (fun u => .bytes u.bytesLe.toList) 10 2 := by
  have hreturns : Returns fun u => .bytes u.bytesLe.toList := fun u => Or.inr (Or.inl rfl)
  have hnodup : threeUuids.Nodup := by
    have hkeys : (threeUuids.map fun u => u.bytes.toList).Nodup := by decide
    exact List.Nodup.of_map _ hkeys
  refine (samples_once_iff threeUuids hnodup _ hreturns 10 2).mpr ?_
  refine batchesDecode_of_all (clampBatchSize_pos 2) ?_
  intro u _
  simp [Decodes, normalizeRowUuid]

/-- A row that is not decoded is read again and again. -/
theorem not_samples_once_undecoded :
    ¬ ∀ (table : List Uuid) (value : Uuid → RowValue) (sampleSize : Nat) (batchSize : Int),
      table.Nodup → Returns value → SamplesOnce table value sampleSize batchSize := by
  intro h
  have hreturns : Returns fun _ => .other := fun _ => Or.inr (Or.inr rfl)
  have hdecodes := batchesDecode_of_samplesOnce (List.nodup_singleton _) hreturns
    (h [someUuid] (fun _ => .other) 10 1000 (List.nodup_singleton _) hreturns)
  have hrows : idsBehind [someUuid] zeroUuid = [someUuid] := by
    rw [idsBehind, sortedBy_eq_self (List.pairwise_singleton _ _)]
    refine after_eq_self fun u hu => ?_
    rw [List.mem_singleton.mp hu]
    decide
  rw [hrows] at hdecodes
  cases hdecodes with
  | batch _ hlast _ => cases hlast

end Runs

end UuidSharded
end YdbSnippets
