import YdbSnippets.Lists.Sorting
import YdbSnippets.Pools.Workers
import YdbSnippets.VDisks.Ids
import Mathlib.Data.Char
import Mathlib.Data.List.Lex
import Mathlib.Data.Prod.Lex

/-!
# VDisks by group

`vdisk_compact.py` sorts the selected VDisks and makes one task of the VDisks
of each storage group.  The tasks go to a pool of threads.
-/

namespace YdbSnippets
namespace VDisks

open Python Sorting Pools

section Definitions

/-- The group of a VDisk. -/
abbrev VDisk.groupId (v : VDisk) : Int :=
  v.coordinates.groupId

/-- `vdisk_sort_key` within a group. -/
def inGroupKey (v : VDisk) : Int ×ₗ Int ×ₗ Int ×ₗ Str :=
  toLex (v.coordinates.failRealm, toLex (v.coordinates.failDomain,
    toLex (v.coordinates.vdiskIdx, v.vdiskId)))

/-- `vdisk_sort_key` -/
def vdiskSortKey (v : VDisk) : Int ×ₗ Int ×ₗ Int ×ₗ Int ×ₗ Str :=
  toLex (v.groupId, inGroupKey v)

/-- `sort_vdisks` -/
def sortVDisks (vdisks : List VDisk) : List VDisk :=
  sortedBy vdiskSortKey vdisks

/-- `group_ids` and `by_group` -/
structure Grouping where
  groupIds : List Int
  byGroup : Dict Int (List VDisk)

/-- One turn of the loop of `group_vdisks`. -/
def Grouping.add (grouping : Grouping) (v : VDisk) : Grouping where
  groupIds :=
    if v.groupId ∈ grouping.byGroup.keys then grouping.groupIds
    else grouping.groupIds ++ [v.groupId]
  byGroup := grouping.byGroup.modifyDefault v.groupId [] (· ++ [v])

/-- `group_vdisks` -/
def groupVDisks (vdisks : List VDisk) : Grouping :=
  vdisks.foldl Grouping.add { groupIds := [], byGroup := Dict.empty }

/-- The tasks of `run_operations`. -/
def groupTasks (vdisks : List VDisk) : List (Task Int VDisk) :=
  let grouping := groupVDisks (sortVDisks vdisks)
  grouping.groupIds.map fun groupId =>
    { key := groupId, items := grouping.byGroup.getD groupId [] }

end Definitions

section Partition

variable {vdisks : List VDisk}

/-- The VDisks of a group, in the order of the list. -/
def ofGroup (groupId : Int) (vdisks : List VDisk) : List VDisk :=
  vdisks.filter fun v => decide (v.groupId = groupId)

theorem mem_ofGroup
    {groupId : Int} {v : VDisk} :
    v ∈ ofGroup groupId vdisks ↔ v ∈ vdisks ∧ v.groupId = groupId := by
  unfold ofGroup
  rw [List.mem_filter, decide_eq_true_eq]

theorem ofGroup_append
    (groupId : Int) (vdisks vdisks' : List VDisk) :
    ofGroup groupId (vdisks ++ vdisks') = ofGroup groupId vdisks ++ ofGroup groupId vdisks' :=
  List.filter_append _ _

theorem ofGroup_singleton_self (v : VDisk) :
    ofGroup v.groupId [v] = [v] := by
  simp [ofGroup]

theorem ofGroup_singleton_of_ne
    {groupId : Int} {v : VDisk}
    (h : v.groupId ≠ groupId) :
    ofGroup groupId [v] = [] := by
  simp [ofGroup, h]

/-- The groups are those of the VDisks, once each, and each has its VDisks in
the order of the list. -/
structure Grouping.Partitions (grouping : Grouping) (vdisks : List VDisk) : Prop where
  groupIds_eq : grouping.groupIds = grouping.byGroup.keys
  mem_keys : ∀ groupId, groupId ∈ grouping.byGroup.keys ↔ ∃ v ∈ vdisks, v.groupId = groupId
  getD_eq : ∀ groupId, grouping.byGroup.getD groupId [] = ofGroup groupId vdisks

theorem Grouping.Partitions.add
    {grouping : Grouping}
    (h : grouping.Partitions vdisks) (v : VDisk) :
    (grouping.add v).Partitions (vdisks ++ [v]) := by
  constructor
  · unfold Grouping.add Dict.modifyDefault
    rw [Dict.keys_set, h.groupIds_eq]
  · intro groupId
    unfold Grouping.add Dict.modifyDefault
    rw [Dict.mem_keys_set, h.mem_keys]
    simp only [List.mem_append, List.mem_singleton]
    constructor
    · rintro (rfl | ⟨w, hw, hgroup⟩)
      · exact ⟨v, Or.inr rfl, rfl⟩
      · exact ⟨w, Or.inl hw, hgroup⟩
    · rintro ⟨w, hw | rfl, hgroup⟩
      · exact Or.inr ⟨w, hw, hgroup⟩
      · exact Or.inl hgroup.symm
  · intro groupId
    unfold Grouping.add
    rw [Dict.getD, Dict.get?_modifyDefault, ofGroup_append]
    by_cases hgroup : v.groupId = groupId
    · subst hgroup
      rw [if_pos rfl, Option.getD_some, h.getD_eq, ofGroup_singleton_self]
    · rw [if_neg (Ne.symm hgroup), ofGroup_singleton_of_ne hgroup, List.append_nil]
      exact h.getD_eq groupId

theorem partitions_groupVDisks (vdisks : List VDisk) :
    (groupVDisks vdisks).Partitions vdisks := by
  induction vdisks using List.reverseRecOn with
  | nil =>
      constructor
      · rfl
      · intro groupId
        simp [groupVDisks]
      · intro groupId
        rfl
  | append_singleton init v ih =>
      unfold groupVDisks
      rw [List.foldl_append]
      exact ih.add v

/-- The tasks are about different groups. -/
theorem nodup_groupTasks (vdisks : List VDisk) :
    ((groupTasks vdisks).map Task.key).Nodup := by
  have hpartition := partitions_groupVDisks (sortVDisks vdisks)
  unfold groupTasks
  simp only [List.map_map]
  have hids : ((groupVDisks (sortVDisks vdisks)).groupIds).Nodup := by
    rw [hpartition.groupIds_eq]
    exact Dict.nodup_keys _
  simpa [Function.comp_def] using hids

/-- A task has the sorted VDisks of its group. -/
theorem items_of_mem_groupTasks
    {task : Task Int VDisk}
    (h : task ∈ groupTasks vdisks) :
    task.items = ofGroup task.key (sortVDisks vdisks) := by
  obtain ⟨groupId, -, rfl⟩ := List.mem_map.mp h
  exact (partitions_groupVDisks (sortVDisks vdisks)).getD_eq groupId

/-- Every selected VDisk belongs to a task. -/
theorem exists_groupTask
    {v : VDisk}
    (h : v ∈ vdisks) :
    ∃ task ∈ groupTasks vdisks, task.key = v.groupId := by
  have hpartition := partitions_groupVDisks (sortVDisks vdisks)
  have hmem : v.groupId ∈ (groupVDisks (sortVDisks vdisks)).groupIds := by
    rw [hpartition.groupIds_eq, hpartition.mem_keys]
    have hsorted : v ∈ sortedBy vdiskSortKey vdisks := mem_sortedBy.mpr h
    exact ⟨v, hsorted, rfl⟩
  exact ⟨_, List.mem_map.mpr ⟨v.groupId, hmem, rfl⟩, rfl⟩

/-- Within a group the VDisks ascend. -/
theorem ascending_ofGroup
    (groupId : Int) (vdisks : List VDisk) :
    Ascending inGroupKey (ofGroup groupId (sortVDisks vdisks)) := by
  have hsorted := (ascending_sortedBy vdiskSortKey vdisks).filter
    fun v => decide (v.groupId = groupId)
  refine hsorted.imp_of_mem ?_
  intro a b ha hb hle
  have hga := (mem_ofGroup.mp ha).2
  have hgb := (mem_ofGroup.mp hb).2
  rcases Prod.Lex.le_iff.mp hle with hlt | ⟨-, hle⟩
  · have hlt' : a.groupId < b.groupId := hlt
    omega
  · exact hle

end Partition

/-! ## One VDisk of a group at a time -/

section Operations

variable {vdisks : List VDisk} {threads : Nat} {run : Run Int VDisk Str Str}

/-- The message `process_group` leaves for a failed VDisk. -/
def errorMessage (v : VDisk) (exc : Str) : Str :=
  v.vdiskId ++ ": ".toList ++ exc

/-- The size of the pool of `run_operations`. -/
def poolSize (threads : Nat) (vdisks : List VDisk) : Nat :=
  let tasks := (groupTasks vdisks).length
  min threads (if tasks = 0 then 1 else tasks)

/-- A state of `run_operations`, whatever the calls of `process_vdisk` do and
however the threads take turns. -/
def InOperation (threads : Nat) (vdisks : List VDisk) (run : Run Int VDisk Str Str) : Prop :=
  Reachable errorMessage (poolSize threads vdisks) (groupTasks vdisks) run

theorem wellFormed_groupTasks (vdisks : List VDisk) :
    WellFormed VDisk.groupId (groupTasks vdisks) := by
  refine ⟨nodup_groupTasks vdisks, ?_⟩
  intro task htask v hv
  rw [items_of_mem_groupTasks htask] at hv
  exact (mem_ofGroup.mp hv).2

theorem poolSize_pos
    (hthreads : 0 < threads) (vdisks : List VDisk) :
    0 < poolSize threads vdisks := by
  unfold poolSize
  simp only
  split
  · omega
  · omega

/-- The VDisks of a group are processed in ascending order. -/
theorem ascending_calls
    (h : Valid VDisk.groupId (groupTasks vdisks) run) (groupId : Int) :
    Ascending inGroupKey (ofGroup groupId run.calls) := by
  by_cases hgroup : ∃ task ∈ groupTasks vdisks, task.key = groupId
  · obtain ⟨task, htask, rfl⟩ := hgroup
    have hprefix := h.callsOf_prefix htask
    rw [items_of_mem_groupTasks htask] at hprefix
    exact (ascending_ofGroup task.key vdisks).sublist hprefix.sublist
  · have hnone : ofGroup groupId run.calls = [] := by
      refine List.filter_eq_nil_iff.mpr ?_
      intro v hv heq
      obtain ⟨task, htask, hkey⟩ := h.calls v hv
      exact hgroup ⟨task, htask, hkey.trans (of_decide_eq_true heq)⟩
    rw [hnone]
    exact List.Pairwise.nil

theorem count_ofGroup
    (v : VDisk) (vdisks : List VDisk) :
    (ofGroup v.groupId vdisks).count v = vdisks.count v :=
  List.count_filter (decide_eq_true rfl)

theorem count_sortVDisks
    (v : VDisk) (vdisks : List VDisk) :
    (sortVDisks vdisks).count v = vdisks.count v :=
  (sortedBy_perm vdiskSortKey vdisks).count_eq v

/-- No VDisk is processed more often than it was selected. -/
theorem count_calls_le
    (h : Valid VDisk.groupId (groupTasks vdisks) run) (v : VDisk) :
    run.calls.count v ≤ vdisks.count v := by
  by_cases hmem : v ∈ run.calls
  · obtain ⟨task, htask, hkey⟩ := h.calls v hmem
    have hprefix := h.callsOf_prefix htask
    rw [items_of_mem_groupTasks htask, hkey] at hprefix
    have hle := hprefix.sublist.count_le v
    rw [count_ofGroup, count_sortVDisks] at hle
    calc run.calls.count v = (ofGroup v.groupId run.calls).count v := (count_ofGroup v _).symm
      _ ≤ vdisks.count v := hle
  · rw [List.count_eq_zero.mpr hmem]
    exact Nat.zero_le _

/-- At the end every selected VDisk was processed as often as it was selected. -/
theorem calls_perm
    (h : Valid VDisk.groupId (groupTasks vdisks) run) (hfinished : run.Finished) :
    run.calls.Perm vdisks := by
  rw [List.perm_iff_count]
  intro v
  by_cases hmem : v ∈ vdisks
  · obtain ⟨task, htask, hkey⟩ := exists_groupTask hmem
    have hcalls := h.callsOf_eq hfinished htask
    rw [items_of_mem_groupTasks htask, hkey] at hcalls
    calc run.calls.count v = (ofGroup v.groupId run.calls).count v := (count_ofGroup v _).symm
      _ = (ofGroup v.groupId (sortVDisks vdisks)).count v := congrArg (List.count v) hcalls
      _ = vdisks.count v := by rw [count_ofGroup, count_sortVDisks]
  · have hle := count_calls_le h v
    rw [List.count_eq_zero.mpr hmem] at hle ⊢
    omega

/-- In every state of `run_operations` at most one VDisk of a group is being
processed, and the VDisks of a group are processed in ascending order, none more
often than it was selected.  The operation goes on until all groups are over,
with less to do after every step; then every selected VDisk was processed, and
the counters and the messages account for every call. -/
theorem run_operations_one_at_a_time
    (vdisks : List VDisk)
    (threads : Nat)
    (run : Run Int VDisk Str Str)
    (hthreads : 0 < threads)
    (hrun : InOperation threads vdisks run) :
    (run.inside.map VDisk.groupId).Nodup ∧
      (∀ groupId, Ascending inGroupKey (ofGroup groupId run.calls)) ∧
      (∀ v, run.calls.count v ≤ vdisks.count v) ∧
      (run.Finished →
        run.calls.Perm vdisks ∧ run.done = vdisks.length ∧ run.errors = run.failed ∧
          run.report.length = run.failed) ∧
      (¬ run.Finished → ∃ run', Step errorMessage (poolSize threads vdisks) run run') ∧
      (∀ run', Step errorMessage (poolSize threads vdisks) run run' →
        run'.work < run.work) := by
  have hwell := wellFormed_groupTasks vdisks
  have hvalid := valid_of_reachable hwell hrun
  refine ⟨hvalid.nodup_inside hwell, ascending_calls hvalid, count_calls_le hvalid, ?_,
    exists_step errorMessage (poolSize_pos hthreads vdisks), fun run' hstep => hstep.work_lt⟩
  intro hfinished
  obtain ⟨hdone, herrors, hreport⟩ := hvalid.counts hfinished
  have hperm := calls_perm hvalid hfinished
  exact ⟨hperm, hdone.trans hperm.length_eq, herrors, hreport⟩

/-- A VDisk with this group and this place in it. -/
def vdiskAt (groupId failDomain : Int) : VDisk where
  coordinates := ⟨groupId, 2, 0, failDomain, 0⟩
  nodeId := 1
  pdiskId := 1
  vslotId := 1
  poolName := []
  vdiskId := formatVDiskId ⟨groupId, 2, 0, failDomain, 0⟩
  vdiskId_eq := rfl

/-- Two VDisks of one group and one of another, in another order than theirs. -/
def twoGroups : List VDisk :=
  [vdiskAt 172 0, vdiskAt 171 3, vdiskAt 171 1]

theorem groupTasks_twoGroups :
    groupTasks twoGroups =
      [⟨171, [vdiskAt 171 1, vdiskAt 171 3]⟩, ⟨172, [vdiskAt 172 0]⟩] := by
  have hperm : twoGroups.Perm [vdiskAt 171 1, vdiskAt 171 3, vdiskAt 172 0] := by
    decide +kernel
  have hsort : sortVDisks twoGroups = [vdiskAt 171 1, vdiskAt 171 3, vdiskAt 172 0] := by
    unfold sortVDisks
    rw [sortedBy_eq_of_perm hperm (by decide +kernel)]
    refine sortedBy_eq_self ?_
    unfold Ascending
    decide +kernel
  unfold groupTasks
  rw [hsort]
  rfl

/-- The first VDisk of group 171 has failed.  The second one and the VDisk of group 172
are being processed. -/
def oneFailed : Run Int VDisk Str Str where
  slots :=
    [⟨171, [], .inside (vdiskAt 171 3), [errorMessage (vdiskAt 171 1) "timeout".toList]⟩,
      ⟨172, [], .inside (vdiskAt 172 0), []⟩]
  calls := [vdiskAt 171 1, vdiskAt 172 0, vdiskAt 171 3]
  failed := 1
  done := 1
  errors := 1
  report := []

theorem inOperation_oneFailed :
    InOperation 2 twoGroups oneFailed := by
  unfold InOperation Reachable poolSize
  rw [groupTasks_twoGroups]
  refine .head (.take _ [] [_] _ rfl rfl (by simp) (by decide)) ?_
  refine .head (.take _ [_] [] _ rfl rfl (by simp) (by decide)) ?_
  refine .head (.start _ [] [_] _ _ _ rfl rfl rfl) ?_
  refine .head (.start _ [_] [] _ _ _ rfl rfl rfl) ?_
  refine .head (.leave _ [] [_] _ _ (.error "timeout".toList) rfl rfl) ?_
  refine .head (.mark _ [] [_] _ _ _ rfl rfl) ?_
  exact .single (.start _ [] [⟨172, [], .inside (vdiskAt 172 0), []⟩]
    ⟨171, [vdiskAt 171 3], .ready, [errorMessage (vdiskAt 171 1) "timeout".toList]⟩ _ _
    rfl rfl rfl)

/-- All calls are over, and only the first one has failed. -/
def allOver : Run Int VDisk Str Str where
  slots := [⟨171, [], .finished, []⟩, ⟨172, [], .finished, []⟩]
  calls := oneFailed.calls
  failed := 1
  done := 3
  errors := 1
  report := [errorMessage (vdiskAt 171 1) "timeout".toList]

theorem inOperation_allOver :
    InOperation 2 twoGroups allOver := by
  refine inOperation_oneFailed.tail (.leave _ [] [_] _ _ (.ok ()) rfl rfl) |>.trans ?_
  refine .head (.mark _ [] [_] _ _ _ rfl rfl) ?_
  refine .head (.finish _ [] [_] _ rfl rfl rfl) ?_
  refine .head (.leave _ [_] [] _ _ (.ok ()) rfl rfl) ?_
  refine .head (.mark _ [_] [] _ _ _ rfl rfl) ?_
  exact .single (.finish _ [⟨171, [], .finished, []⟩] [] ⟨172, [], .ready, []⟩ rfl rfl rfl)

/-- Two threads while two VDisks of two groups are being processed, and at the end. -/
theorem run_operations_one_at_a_time_two_groups :
    ((oneFailed.inside = [vdiskAt 171 3, vdiskAt 172 0] ∧
        (oneFailed.inside.map VDisk.groupId).Nodup) ∧
      (∀ groupId, Ascending inGroupKey (ofGroup groupId oneFailed.calls)) ∧
      (∀ v, oneFailed.calls.count v ≤ twoGroups.count v) ∧
      (∃ run', Step errorMessage (poolSize 2 twoGroups) oneFailed run') ∧
      ∀ run', Step errorMessage (poolSize 2 twoGroups) oneFailed run' →
        run'.work < oneFailed.work) ∧
    allOver.calls.Perm twoGroups ∧ allOver.done = 3 ∧ allOver.errors = 1 ∧
      allOver.report.length = 1 := by
  obtain ⟨hinside, hcalls, hcount, -, hstep, hwork⟩ :=
    run_operations_one_at_a_time twoGroups 2 oneFailed (by omega) inOperation_oneFailed
  obtain ⟨-, -, -, hover, -, -⟩ :=
    run_operations_one_at_a_time twoGroups 2 allOver (by omega) inOperation_allOver
  refine ⟨⟨⟨rfl, hinside⟩, hcalls, hcount, hstep fun hfinished => ?_, hwork⟩, hover ?_⟩
  · have hphase := hfinished _ (List.mem_cons_self ..)
    cases hphase
  · intro slot hslot
    simp only [allOver, List.mem_cons, List.not_mem_nil, or_false] at hslot
    rcases hslot with rfl | rfl
    · rfl
    · rfl

end Operations

end VDisks
end YdbSnippets
