import YdbSnippets.Lists.Replaced
import Mathlib.Algebra.BigOperators.Group.List.Basic
import Mathlib.Algebra.GroupWithZero.Nat
import Mathlib.Logic.Relation

/-!
# Pools of sequential workers

A pool of workers takes tasks from a queue, as many at a time as it has workers.
A task is a list of items with a common key; the worker calls a function for one
item after the other, counts the call as done when it has returned or raised, and
hands over the messages of the failed calls when its items are used up.

Nothing is locked: that no two items with the same key are ever in a call
follows from how the items are split into tasks.
-/

namespace YdbSnippets
namespace Pools

open Matching

universe u v w x

variable {κ : Type u} {α : Type v} {ε : Type w} {ω : Type x}

section Definitions

/-- The items of one key, in the order of processing. -/
structure Task (κ : Type u) (α : Type v) where
  key : κ
  items : List α

/-- Where the worker of a task stands. -/
inductive Phase (α : Type v) (ε : Type w)
  | queued
  | ready
  | inside (item : α)
  | leaving (item : α) (outcome : Except ε Unit)
  | finished

/-- A task on its way: the items not yet called, and the messages so far. -/
structure Slot (κ : Type u) (α : Type v) (ε : Type w) (ω : Type x) where
  key : κ
  pending : List α
  phase : Phase α ε
  messages : List ω

/-- The state of the pool.  `calls` lists the calls in the order in which they
began, and `failed` counts those that raised. -/
structure Run (κ : Type u) (α : Type v) (ε : Type w) (ω : Type x) where
  slots : List (Slot κ α ε ω)
  calls : List α
  failed : Nat
  done : Nat
  errors : Nat
  report : List ω

namespace Phase

/-- The phase takes up a worker. -/
def busy : Phase α ε → Bool
  | queued | finished => false
  | ready | inside _ | leaving _ _ => true

/-- The item whose call is under way. -/
def current : Phase α ε → Option α
  | inside item => some item
  | queued | ready | leaving _ _ | finished => none

/-- The call has begun and is not counted as done. -/
def uncounted : Phase α ε → Nat
  | inside _ | leaving _ _ => 1
  | queued | ready | finished => 0

end Phase

/-- 1 for an exception, 0 for a return. -/
def failures : Except ε Unit → Nat
  | .ok _ => 0
  | .error _ => 1

/-- The call has raised and is not counted as an error. -/
def Phase.unreported : Phase α ε → Nat
  | leaving _ outcome => failures outcome
  | queued | ready | inside _ | finished => 0

/-- The messages a call leaves. -/
def messagesOf (message : α → ε → ω) (item : α) : Except ε Unit → List ω
  | .ok _ => []
  | .error exc => [message item exc]

/-- All tasks in the queue. -/
def Run.initial (tasks : List (Task κ α)) : Run κ α ε ω where
  slots := tasks.map fun task =>
    { key := task.key, pending := task.items, phase := .queued, messages := [] }
  calls := []
  failed := 0
  done := 0
  errors := 0
  report := []

/-- The number of workers that have a task. -/
def Run.running (run : Run κ α ε ω) : Nat :=
  run.slots.countP fun slot => slot.phase.busy

/-- The items whose calls are under way. -/
def Run.inside (run : Run κ α ε ω) : List α :=
  run.slots.filterMap fun slot => slot.phase.current

/-- All tasks are over. -/
def Run.Finished (run : Run κ α ε ω) : Prop :=
  ∀ slot ∈ run.slots, slot.phase = .finished

/-- The run with another state of one task. -/
def Run.replace (run : Run κ α ε ω) (before : List (Slot κ α ε ω)) (slot : Slot κ α ε ω)
    (after : List (Slot κ α ε ω)) : Run κ α ε ω :=
  { run with slots := before ++ slot :: after }

/-- One step of a pool of `workers` workers. -/
inductive Step (message : α → ε → ω) (workers : Nat) :
    Run κ α ε ω → Run κ α ε ω → Prop
  /-- A free worker takes the first task of the queue. -/
  | take
      (run : Run κ α ε ω) (before after : List (Slot κ α ε ω)) (slot : Slot κ α ε ω)
      (hslots : run.slots = before ++ slot :: after)
      (hphase : slot.phase = .queued)
      (hfirst : ∀ other ∈ before, other.phase ≠ .queued)
      (hfree : run.running < workers) :
      Step message workers run (run.replace before { slot with phase := .ready } after)
  /-- The worker begins the call for its next item. -/
  | start
      (run : Run κ α ε ω) (before after : List (Slot κ α ε ω)) (slot : Slot κ α ε ω)
      (item : α) (rest : List α)
      (hslots : run.slots = before ++ slot :: after)
      (hphase : slot.phase = .ready)
      (hpending : slot.pending = item :: rest) :
      Step message workers run
        { run.replace before { slot with phase := .inside item, pending := rest } after with
          calls := run.calls ++ [item] }
  /-- The call returns or raises. -/
  | leave
      (run : Run κ α ε ω) (before after : List (Slot κ α ε ω)) (slot : Slot κ α ε ω)
      (item : α) (outcome : Except ε Unit)
      (hslots : run.slots = before ++ slot :: after)
      (hphase : slot.phase = .inside item) :
      Step message workers run
        { run.replace before { slot with phase := .leaving item outcome } after with
          failed := run.failed + failures outcome }
  /-- The worker counts the call as done. -/
  | mark
      (run : Run κ α ε ω) (before after : List (Slot κ α ε ω)) (slot : Slot κ α ε ω)
      (item : α) (outcome : Except ε Unit)
      (hslots : run.slots = before ++ slot :: after)
      (hphase : slot.phase = .leaving item outcome) :
      Step message workers run
        { run.replace before
            { slot with
              phase := .ready
              messages := slot.messages ++ messagesOf message item outcome } after with
          done := run.done + 1
          errors := run.errors + failures outcome }
  /-- The worker hands over its messages and is free again. -/
  | finish
      (run : Run κ α ε ω) (before after : List (Slot κ α ε ω)) (slot : Slot κ α ε ω)
      (hslots : run.slots = before ++ slot :: after)
      (hphase : slot.phase = .ready)
      (hpending : slot.pending = []) :
      Step message workers run
        { run.replace before { slot with phase := .finished, messages := [] } after with
          report := run.report ++ slot.messages }

/-- The states a pool gets to. -/
def Reachable (message : α → ε → ω) (workers : Nat) (tasks : List (Task κ α))
    (run : Run κ α ε ω) : Prop :=
  Relation.ReflTransGen (Step message workers) (Run.initial tasks) run

end Definitions

section Totals

/-- The sum of a number over the tasks. -/
def total (weight : Slot κ α ε ω → Nat) (slots : List (Slot κ α ε ω)) : Nat :=
  (slots.map weight).sum

@[simp] theorem total_split
    (weight : Slot κ α ε ω → Nat) (before after : List (Slot κ α ε ω))
    (slot : Slot κ α ε ω) :
    total weight (before ++ slot :: after) =
      total weight before + (weight slot + total weight after) := by
  simp [total]

theorem total_eq_zero
    {weight : Slot κ α ε ω → Nat} {slots : List (Slot κ α ε ω)}
    (h : ∀ slot ∈ slots, weight slot = 0) :
    total weight slots = 0 := by
  unfold total
  refine List.sum_eq_zero ?_
  intro n hn
  obtain ⟨slot, hslot, rfl⟩ := List.mem_map.mp hn
  exact h slot hslot

/-- A call leaves one message for each failure. -/
theorem length_messagesOf
    (message : α → ε → ω) (item : α) (outcome : Except ε Unit) :
    (messagesOf message item outcome).length = failures outcome := by
  cases outcome <;> rfl

end Totals

/-! ## The invariant -/

section Invariant

variable {message : α → ε → ω} {workers : Nat}
variable [DecidableEq κ] {keyOf : α → κ} {tasks : List (Task κ α)}
variable {run run' : Run κ α ε ω}

/-- The tasks have different keys, and their items have the key of the task. -/
structure WellFormed (keyOf : α → κ) (tasks : List (Task κ α)) : Prop where
  nodup : (tasks.map Task.key).Nodup
  keyed : ∀ task ∈ tasks, ∀ item ∈ task.items, keyOf item = task.key

/-- The calls for the items of one key, in their order. -/
def callsOf (keyOf : α → κ) (k : κ) (calls : List α) : List α :=
  calls.filter fun item => decide (keyOf item = k)

/-- What the state of a task says about the calls so far. -/
structure SlotOf
    (keyOf : α → κ) (calls : List α) (slot : Slot κ α ε ω) (task : Task κ α) : Prop where
  key : slot.key = task.key
  /-- The calls so far and the pending items make up the task. -/
  split : callsOf keyOf task.key calls ++ slot.pending = task.items
  current : ∀ item, slot.phase.current = some item → keyOf item = task.key
  finished : slot.phase = .finished → slot.pending = [] ∧ slot.messages = []

/-- What holds in every state the pool gets to. -/
structure Valid
    (keyOf : α → κ) (tasks : List (Task κ α)) (run : Run κ α ε ω) : Prop where
  slots : List.Forall₂ (SlotOf keyOf run.calls) run.slots tasks
  calls : ∀ item ∈ run.calls, ∃ task ∈ tasks, task.key = keyOf item
  done : run.done + total (fun slot => slot.phase.uncounted) run.slots = run.calls.length
  errors : run.errors + total (fun slot => slot.phase.unreported) run.slots = run.failed
  report : run.report.length + total (fun slot => slot.messages.length) run.slots = run.errors

theorem valid_initial (tasks : List (Task κ α)) :
    Valid keyOf tasks (Run.initial tasks : Run κ α ε ω) := by
  have hzero : ∀ {weight : Slot κ α ε ω → Nat},
      (∀ task : Task κ α, weight ⟨task.key, task.items, .queued, []⟩ = 0) →
      total weight (Run.initial tasks : Run κ α ε ω).slots = 0 := by
    intro weight hweight
    refine total_eq_zero ?_
    intro slot hslot
    obtain ⟨task, -, rfl⟩ := List.mem_map.mp hslot
    exact hweight task
  constructor
  · unfold Run.initial
    rw [List.forall₂_map_left_iff, List.forall₂_same]
    intro task _
    exact ⟨rfl, rfl, nofun, nofun⟩
  · nofun
  · rw [hzero fun _ => rfl]
    rfl
  · rw [hzero fun _ => rfl]
    rfl
  · rw [hzero fun _ => rfl]
    rfl

/-- Another state of one task, which fits the same calls. -/
theorem forall₂_replace
    {calls : List α} {before after : List (Slot κ α ε ω)} {slot slot' : Slot κ α ε ω}
    (h : List.Forall₂ (SlotOf keyOf calls) (before ++ slot :: after) tasks)
    (hslot : ∀ task, SlotOf keyOf calls slot task → SlotOf keyOf calls slot' task) :
    List.Forall₂ (SlotOf keyOf calls) (before ++ slot' :: after) tasks := by
  obtain ⟨front, rest, rfl, hfront, hrest⟩ := forall₂_append_left_iff.mp h
  obtain ⟨task, back, htask, hback, rfl⟩ := List.forall₂_cons_left_iff.mp hrest
  exact List.rel_append hfront (List.Forall₂.cons (hslot task htask) hback)

/-- A call for an item of one task leaves the other tasks alone. -/
theorem SlotOf.call_other
    {calls : List α} {slot : Slot κ α ε ω} {task : Task κ α} {item : α}
    (h : SlotOf keyOf calls slot task)
    (hkey : keyOf item ≠ task.key) :
    SlotOf keyOf (calls ++ [item]) slot task := by
  refine ⟨h.key, ?_, h.current, h.finished⟩
  have hnone : callsOf keyOf task.key [item] = [] := by
    simp [callsOf, hkey]
  unfold callsOf at hnone ⊢
  rw [List.filter_append, hnone, List.append_nil]
  exact h.split

/-- The first pending item of a task is called. -/
theorem SlotOf.call_self
    {calls : List α} {slot : Slot κ α ε ω} {task : Task κ α} {item : α} {rest : List α}
    (h : SlotOf keyOf calls slot task)
    (hkey : keyOf item = task.key)
    (hpending : slot.pending = item :: rest) :
    SlotOf keyOf (calls ++ [item])
      ({ slot with phase := .inside item, pending := rest } : Slot κ α ε ω) task := by
  refine ⟨h.key, ?_, ?_, nofun⟩
  · have hone : callsOf keyOf task.key [item] = [item] := by
      simp [callsOf, hkey]
    have hsplit := h.split
    rw [hpending] at hsplit
    unfold callsOf at hone hsplit ⊢
    rw [List.filter_append, hone, List.append_assoc]
    exact hsplit
  · intro other hother
    cases hother
    exact hkey

/-- The first pending item of a task is called, and it is an item of that task. -/
theorem forall₂_call
    (hwell : WellFormed keyOf tasks)
    {calls : List α} {before after : List (Slot κ α ε ω)} {slot : Slot κ α ε ω}
    {item : α} {rest : List α}
    (h : List.Forall₂ (SlotOf keyOf calls) (before ++ slot :: after) tasks)
    (hpending : slot.pending = item :: rest) :
    List.Forall₂ (SlotOf keyOf (calls ++ [item]))
        (before ++ { slot with phase := .inside item, pending := rest } :: after) tasks ∧
      ∃ task ∈ tasks, task.key = keyOf item := by
  obtain ⟨front, rest', rfl, hfront, hrest⟩ := forall₂_append_left_iff.mp h
  obtain ⟨task, back, htask, hback, rfl⟩ := List.forall₂_cons_left_iff.mp hrest
  have hmem : item ∈ task.items := by
    rw [← htask.split, hpending]
    simp
  have hkey := hwell.keyed task (by simp) item hmem
  have hnodup := hwell.nodup
  rw [List.map_append, List.map_cons] at hnodup
  obtain ⟨-, hcons, hdisjoint⟩ := List.nodup_append.mp hnodup
  have hother : ∀ other : Task κ α, other ∈ front ∨ other ∈ back → keyOf item ≠ other.key := by
    rintro other (hother | hother) heq
    · refine hdisjoint _ (List.mem_map_of_mem hother) _ List.mem_cons_self ?_
      rw [← hkey, heq]
    · refine (List.nodup_cons.mp hcons).1 ?_
      rw [← hkey, heq]
      exact List.mem_map_of_mem hother
  have hall : ∀ {slots : List (Slot κ α ε ω)} {others : List (Task κ α)},
      (∀ other ∈ others, keyOf item ≠ other.key) →
      List.Forall₂ (SlotOf keyOf calls) slots others →
      List.Forall₂ (SlotOf keyOf (calls ++ [item])) slots others := by
    intro slots others hne hslots
    induction hslots with
    | nil => exact List.Forall₂.nil
    | cons hslot _ ih =>
        exact List.Forall₂.cons (hslot.call_other (hne _ List.mem_cons_self))
          (ih fun other hmem => hne other (List.mem_cons_of_mem _ hmem))
  refine ⟨?_, task, by simp, hkey.symm⟩
  refine List.rel_append (hall (fun other hmem => hother other (Or.inl hmem)) hfront) ?_
  exact List.Forall₂.cons (htask.call_self hkey hpending)
    (hall (fun other hmem => hother other (Or.inr hmem)) hback)

/-- A step keeps the invariant. -/
theorem Valid.step
    (hwell : WellFormed keyOf tasks)
    (h : Valid keyOf tasks run)
    (hstep : Step message workers run run') :
    Valid keyOf tasks run' := by
  obtain ⟨hslotsOf, hcalls, hdone, herrors, hreport⟩ := h
  cases hstep with
  | take before after slot hslots hphase hfirst hfree =>
      rw [hslots, total_split, hphase] at hdone herrors
      rw [hslots, total_split] at hreport
      rw [hslots] at hslotsOf
      constructor
      · refine forall₂_replace hslotsOf ?_
        intro task htask
        exact ⟨htask.key, htask.split, nofun, nofun⟩
      · exact hcalls
      · simpa [Run.replace, Phase.uncounted] using hdone
      · simpa [Run.replace, Phase.unreported] using herrors
      · simpa [Run.replace] using hreport
  | start before after slot item rest hslots hphase hpending =>
      rw [hslots, total_split, hphase] at hdone herrors
      rw [hslots, total_split] at hreport
      rw [hslots] at hslotsOf
      obtain ⟨hslotsOf', task, htask, hkey⟩ := forall₂_call hwell hslotsOf hpending
      constructor
      · exact hslotsOf'
      · intro other hother
        rcases List.mem_append.mp hother with hother | hother
        · exact hcalls other hother
        · rw [List.mem_singleton.mp hother]
          exact ⟨task, htask, hkey⟩
      · simp only [Run.replace, total_split, Phase.uncounted, List.length_append,
          List.length_singleton] at hdone ⊢
        omega
      · simpa [Run.replace, Phase.unreported] using herrors
      · simpa [Run.replace] using hreport
  | leave before after slot item outcome hslots hphase =>
      rw [hslots, total_split, hphase] at hdone herrors
      rw [hslots, total_split] at hreport
      rw [hslots] at hslotsOf
      constructor
      · refine forall₂_replace hslotsOf ?_
        intro task htask
        exact ⟨htask.key, htask.split, nofun, nofun⟩
      · exact hcalls
      · simpa [Run.replace, Phase.uncounted] using hdone
      · simp only [Run.replace, total_split, Phase.unreported] at herrors ⊢
        omega
      · simpa [Run.replace] using hreport
  | mark before after slot item outcome hslots hphase =>
      rw [hslots, total_split, hphase] at hdone herrors
      rw [hslots, total_split] at hreport
      rw [hslots] at hslotsOf
      constructor
      · refine forall₂_replace hslotsOf ?_
        intro task htask
        exact ⟨htask.key, htask.split, nofun, nofun⟩
      · exact hcalls
      · simp only [Run.replace, total_split, Phase.uncounted] at hdone ⊢
        omega
      · simp only [Run.replace, total_split, Phase.unreported] at herrors ⊢
        omega
      · simp only [Run.replace, total_split, List.length_append, length_messagesOf] at hreport ⊢
        omega
  | finish before after slot hslots hphase hpending =>
      rw [hslots, total_split, hphase] at hdone herrors
      rw [hslots, total_split] at hreport
      rw [hslots] at hslotsOf
      constructor
      · refine forall₂_replace hslotsOf ?_
        intro task htask
        exact ⟨htask.key, htask.split, nofun, fun _ => ⟨hpending, rfl⟩⟩
      · exact hcalls
      · simpa [Run.replace, Phase.uncounted] using hdone
      · simpa [Run.replace, Phase.unreported] using herrors
      · simp only [Run.replace, total_split, List.length_append, List.length_nil] at hreport ⊢
        omega

/-- The invariant holds in every state the pool gets to. -/
theorem valid_of_reachable
    (hwell : WellFormed keyOf tasks)
    (h : Reachable message workers tasks run) :
    Valid keyOf tasks run := by
  induction h with
  | refl => exact valid_initial tasks
  | tail _ hstep ih => exact ih.step hwell hstep

end Invariant

/-! ## What follows for every run -/

section Consequences

variable {message : α → ε → ω} {workers : Nat} {run run' : Run κ α ε ω}

section Keys

variable [DecidableEq κ] {keyOf : α → κ} {tasks : List (Task κ α)}

/-- No two calls for items with the same key are ever under way. -/
theorem Valid.nodup_inside
    (hwell : WellFormed keyOf tasks)
    (h : Valid keyOf tasks run) :
    (run.inside.map keyOf).Nodup := by
  have hsub : (run.inside.map keyOf).Sublist (tasks.map Task.key) := by
    unfold Run.inside
    generalize run.slots = slots, h.slots = hslots
    clear hwell h
    induction hslots with
    | nil => exact List.Sublist.slnil
    | @cons slot task slots tasks hslot _ ih =>
        rw [List.filterMap_cons, List.map_cons]
        cases hcurrent : slot.phase.current with
        | none => exact ih.cons _
        | some item =>
            rw [List.map_cons, hslot.current item hcurrent]
            exact ih.cons_cons _
  exact hsub.nodup hwell.nodup

/-- The items of a task are called in their order. -/
theorem Valid.callsOf_prefix
    (h : Valid keyOf tasks run)
    {task : Task κ α}
    (htask : task ∈ tasks) :
    callsOf keyOf task.key run.calls <+: task.items := by
  obtain ⟨slot, -, hslot⟩ := exists_of_forall₂_right h.slots htask
  exact ⟨slot.pending, hslot.split⟩

/-- At the end every item was called. -/
theorem Valid.callsOf_eq
    (h : Valid keyOf tasks run)
    (hfinished : run.Finished)
    {task : Task κ α}
    (htask : task ∈ tasks) :
    callsOf keyOf task.key run.calls = task.items := by
  obtain ⟨slot, hmem, hslot⟩ := exists_of_forall₂_right h.slots htask
  have hsplit := hslot.split
  rwa [(hslot.finished (hfinished slot hmem)).1, List.append_nil] at hsplit

/-- At the end every call is counted, the failed ones as errors, and each of
them has left a message. -/
theorem Valid.counts
    (h : Valid keyOf tasks run)
    (hfinished : run.Finished) :
    run.done = run.calls.length ∧ run.errors = run.failed ∧
      run.report.length = run.failed := by
  have huncounted : total (fun slot => slot.phase.uncounted) run.slots = 0 := by
    refine total_eq_zero ?_
    intro slot hslot
    rw [hfinished slot hslot]
    rfl
  have hunreported : total (fun slot => slot.phase.unreported) run.slots = 0 := by
    refine total_eq_zero ?_
    intro slot hslot
    rw [hfinished slot hslot]
    rfl
  have hmessages : total (fun slot => slot.messages.length) run.slots = 0 := by
    refine total_eq_zero ?_
    intro slot hmem
    obtain ⟨task, -, hslot⟩ := exists_of_forall₂_left h.slots hmem
    rw [(hslot.finished (hfinished slot hmem)).2]
    rfl
  have hdone := h.done
  have herrors := h.errors
  have hreport := h.report
  omega

end Keys

/-- What the pool still has to do. -/
def Run.work (run : Run κ α ε ω) : Nat :=
  total (fun slot => match slot.phase with
    | .queued => 3 * slot.pending.length + 2
    | .ready => 3 * slot.pending.length + 1
    | .inside _ => 3 * slot.pending.length + 3
    | .leaving _ _ => 3 * slot.pending.length + 2
    | .finished => 0) run.slots

/-- Every step leaves less to do. -/
theorem Step.work_lt
    (h : Step message workers run run') :
    run'.work < run.work := by
  cases h with
  | take before after slot hslots hphase hfirst hfree =>
      simp only [Run.work, Run.replace, hslots, total_split, hphase]
      omega
  | start before after slot item rest hslots hphase hpending =>
      simp only [Run.work, Run.replace, hslots, total_split, hphase, hpending,
        List.length_cons]
      omega
  | leave before after slot item outcome hslots hphase =>
      simp only [Run.work, Run.replace, hslots, total_split, hphase]
      omega
  | mark before after slot item outcome hslots hphase =>
      simp only [Run.work, Run.replace, hslots, total_split, hphase]
      omega
  | finish before after slot hslots hphase hpending =>
      simp only [Run.work, Run.replace, hslots, total_split, hphase]
      omega

/-- A list with an entry of a kind has a first one. -/
theorem exists_first
    {β : Type*} {p : β → Prop} {xs : List β}
    (h : ∃ x ∈ xs, p x) :
    ∃ before x after, xs = before ++ x :: after ∧ p x ∧ ∀ y ∈ before, ¬ p y := by
  induction xs with
  | nil =>
      obtain ⟨x, hx, -⟩ := h
      cases hx
  | cons a rest ih =>
      by_cases ha : p a
      · exact ⟨[], a, rest, rfl, ha, nofun⟩
      · have hrest : ∃ x ∈ rest, p x := by
          obtain ⟨x, hx, hp⟩ := h
          rcases List.mem_cons.mp hx with rfl | hx
          · exact absurd hp ha
          · exact ⟨x, hx, hp⟩
        obtain ⟨before, x, after, rfl, hp, hbefore⟩ := ih hrest
        exact ⟨a :: before, x, after, rfl, hp, List.forall_mem_cons.mpr ⟨ha, hbefore⟩⟩

/-- A pool with a worker goes on until all tasks are over. -/
theorem exists_step
    (message : α → ε → ω)
    (hworkers : 0 < workers)
    (hrun : ¬ run.Finished) :
    ∃ run', Step message workers run run' := by
  by_cases hbusy : ∃ slot ∈ run.slots, slot.phase.busy = true
  · obtain ⟨slot, hmem, hslot⟩ := hbusy
    obtain ⟨before, after, hslots⟩ := List.append_of_mem hmem
    cases hphase : slot.phase with
    | queued =>
        rw [hphase] at hslot
        cases hslot
    | finished =>
        rw [hphase] at hslot
        cases hslot
    | ready =>
        cases hpending : slot.pending with
        | nil => exact ⟨_, Step.finish run before after slot hslots hphase hpending⟩
        | cons item rest =>
            exact ⟨_, Step.start run before after slot item rest hslots hphase hpending⟩
    | inside item =>
        exact ⟨_, Step.leave run before after slot item (.ok ()) hslots hphase⟩
    | leaving item outcome =>
        exact ⟨_, Step.mark run before after slot item outcome hslots hphase⟩
  · have hidle : ∀ slot ∈ run.slots, slot.phase.busy = false := by
      intro slot hslot
      by_contra h
      exact hbusy ⟨slot, hslot, by simpa using h⟩
    have hqueued : ∃ slot ∈ run.slots, slot.phase = .queued := by
      unfold Run.Finished at hrun
      push Not at hrun
      obtain ⟨slot, hmem, hne⟩ := hrun
      refine ⟨slot, hmem, ?_⟩
      have hslot := hidle slot hmem
      cases hphase : slot.phase with
      | queued => rfl
      | finished => exact absurd hphase hne
      | ready | inside _ | leaving _ _ =>
          rw [hphase] at hslot
          cases hslot
    obtain ⟨before, slot, after, hslots, hphase, hfirst⟩ := exists_first hqueued
    refine ⟨_, Step.take run before after slot hslots hphase hfirst ?_⟩
    unfold Run.running
    rw [List.countP_eq_zero.mpr]
    · exact hworkers
    · intro other hother
      rw [hidle other hother]
      exact Bool.false_ne_true

end Consequences

end Pools
end YdbSnippets
