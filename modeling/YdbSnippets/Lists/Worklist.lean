import Mathlib.Data.List.Nodup
import Mathlib.Logic.Relation

/-!
# Walks with a queue

A walk takes the items of a queue one after the other, visits an item it has not
seen before, and appends the items that follow it to the queue.  On a finite
universe it ends, and it has visited exactly what the start reaches, each item
once.
-/

namespace YdbSnippets
namespace Worklist

universe u

variable {α : Type u}

section Definitions

/-- The queue, and the visited items in the order of the visits. -/
structure State (α : Type u) where
  queue : List α
  seen : List α

variable (expand : α → List α)

/-- What an item leads to. -/
def Reaches : α → α → Prop :=
  Relation.ReflTransGen fun a b => b ∈ expand a

variable [DecidableEq α]

/-- Takes one item from the queue. -/
def step (s : State α) : State α :=
  match s.queue with
  | [] => s
  | a :: rest =>
      if a ∈ s.seen then { s with queue := rest }
      else ⟨rest ++ expand a, s.seen ++ [a]⟩

/-- The visited items, if the queue is empty after at most this many steps. -/
def run : Nat → State α → Option (List α)
  | 0, s => if s.queue = [] then some s.seen else none
  | fuel + 1, s => if s.queue = [] then some s.seen else run fuel (step expand s)

end Definitions

section Invariants

variable {expand : α → List α} {start : α} {s : State α}

/-- What holds between two steps of a walk from `start`. -/
structure Invariant (expand : α → List α) (start : α) (s : State α) : Prop where
  nodup : s.seen.Nodup
  reached : ∀ a, a ∈ s.seen ∨ a ∈ s.queue → Reaches expand start a
  start_mem : start ∈ s.seen ∨ start ∈ s.queue
  closed : ∀ a ∈ s.seen, ∀ b ∈ expand a, b ∈ s.seen ∨ b ∈ s.queue

theorem invariant_start (expand : α → List α) (start : α) :
    Invariant expand start ⟨[start], []⟩ where
  nodup := List.nodup_nil
  reached a h := by
    have ha : a = start := by simpa using h
    exact ha ▸ Relation.ReflTransGen.refl
  start_mem := Or.inr List.mem_cons_self
  closed a ha := by cases ha

/-- When the queue is empty, the walk has visited what the start reaches. -/
theorem Invariant.mem_seen_iff
    (h : Invariant expand start s) (hqueue : s.queue = []) (a : α) :
    a ∈ s.seen ↔ Reaches expand start a := by
  have hseen : ∀ b, b ∈ s.seen ∨ b ∈ s.queue → b ∈ s.seen := by
    intro b hb
    exact hb.resolve_right (by simp [hqueue])
  constructor
  · exact fun ha => h.reached a (Or.inl ha)
  · intro ha
    induction ha with
    | refl => exact hseen start h.start_mem
    | tail _ hstep ih => exact hseen _ (h.closed _ ih _ hstep)

variable [DecidableEq α]

/-- All that a step can do to a queue that is not empty. -/
theorem step_cases
    (expand : α → List α) {s : State α} {a : α} {rest : List α}
    (h : s.queue = a :: rest) :
    (a ∈ s.seen ∧ step expand s = { s with queue := rest }) ∨
      (a ∉ s.seen ∧ step expand s = ⟨rest ++ expand a, s.seen ++ [a]⟩) := by
  unfold step
  rw [h]
  by_cases ha : a ∈ s.seen
  · exact Or.inl ⟨ha, if_pos ha⟩
  · exact Or.inr ⟨ha, if_neg ha⟩

theorem Invariant.step
    (h : Invariant expand start s) :
    Invariant expand start (step expand s) := by
  cases hqueue : s.queue with
  | nil =>
      have heq : Worklist.step expand s = s := by
        unfold Worklist.step
        rw [hqueue]
      rw [heq]
      exact h
  | cons a rest =>
      have hmem : ∀ b, b ∈ s.seen ∨ b ∈ s.queue ↔ b ∈ s.seen ∨ b = a ∨ b ∈ rest := by
        intro b
        rw [hqueue, List.mem_cons]
      rcases step_cases expand hqueue with ⟨ha, heq⟩ | ⟨ha, heq⟩
      · have hkeep : ∀ b, b ∈ s.seen ∨ b ∈ s.queue → b ∈ s.seen ∨ b ∈ rest := by
          intro b hb
          rcases (hmem b).mp hb with hb | rfl | hb
          · exact Or.inl hb
          · exact Or.inl ha
          · exact Or.inr hb
        rw [heq]
        constructor
        · exact h.nodup
        · exact fun b hb => h.reached b ((hmem b).mpr (hb.imp_right Or.inr))
        · exact hkeep start h.start_mem
        · exact fun b hb c hc => hkeep c (h.closed b hb c hc)
      · have hreach : Reaches expand start a :=
          h.reached a ((hmem a).mpr (Or.inr (Or.inl rfl)))
        have hkeep : ∀ b, b ∈ s.seen ∨ b ∈ s.queue →
            b ∈ s.seen ++ [a] ∨ b ∈ rest ++ expand a := by
          intro b hb
          rcases (hmem b).mp hb with hb | rfl | hb
          · exact Or.inl (List.mem_append_left _ hb)
          · exact Or.inl (by simp)
          · exact Or.inr (List.mem_append_left _ hb)
        rw [heq]
        constructor
        · refine List.nodup_append.mpr ⟨h.nodup, List.nodup_singleton a, ?_⟩
          intro b hb c hc hbc
          rw [List.mem_singleton.mp hc] at hbc
          exact ha (hbc ▸ hb)
        · intro b hb
          simp only [List.mem_append, List.mem_singleton] at hb
          rcases hb with (hb | rfl) | hb | hb
          · exact h.reached b (Or.inl hb)
          · exact hreach
          · exact h.reached b ((hmem b).mpr (Or.inr (Or.inr hb)))
          · exact hreach.tail hb
        · exact hkeep start h.start_mem
        · intro b hb c hc
          rcases List.mem_append.mp hb with hb | hb
          · exact hkeep c (h.closed b hb c hc)
          · rw [List.mem_singleton.mp hb] at hc
            exact Or.inr (List.mem_append_right _ hc)

theorem Invariant.of_run
    {fuel : Nat} {seen : List α}
    (h : Invariant expand start s)
    (hrun : run expand fuel s = some seen) :
    seen.Nodup ∧ ∀ a, a ∈ seen ↔ Reaches expand start a := by
  induction fuel generalizing s with
  | zero =>
      unfold run at hrun
      split at hrun
      · next hqueue =>
          cases hrun
          exact ⟨h.nodup, h.mem_seen_iff hqueue⟩
      · cases hrun
  | succ fuel ih =>
      unfold run at hrun
      split at hrun
      · next hqueue =>
          cases hrun
          exact ⟨h.nodup, h.mem_seen_iff hqueue⟩
      · exact ih h.step hrun

end Invariants

section Termination

variable [DecidableEq α] {expand : α → List α} {s : State α}

/-- More steps do not change the result. -/
theorem run_mono
    {fuel more : Nat} {seen : List α}
    (h : run expand fuel s = some seen)
    (hle : fuel ≤ more) :
    run expand more s = some seen := by
  induction fuel generalizing s more with
  | zero =>
      unfold run at h
      split at h
      · next hqueue =>
          cases more with
          | zero => rw [run, if_pos hqueue, h]
          | succ more => rw [run, if_pos hqueue, h]
      · cases h
  | succ fuel ih =>
      obtain ⟨more, rfl⟩ : ∃ m, more = m + 1 := ⟨more - 1, by omega⟩
      unfold run at h ⊢
      split at h
      · next hqueue => rw [if_pos hqueue, h]
      · next hqueue =>
          rw [if_neg hqueue]
          exact ih h (by omega)

/-- On a finite universe every walk ends: a step visits a new item of the
universe or makes the queue shorter. -/
theorem exists_run
    {items : List α}
    (hclosed : ∀ a ∈ items, ∀ b ∈ expand a, b ∈ items)
    (hqueue : ∀ a ∈ s.queue, a ∈ items) :
    ∃ fuel seen, run expand fuel s = some seen := by
  induction hnew : (items.filter fun a => a ∉ s.seen).length
    using Nat.strongRecOn generalizing s with
  | ind n ih =>
      obtain ⟨queue, visited⟩ := s
      induction queue with
      | nil => exact ⟨0, visited, rfl⟩
      | cons a rest ihRest =>
          have hrest : ∀ b ∈ rest, b ∈ items := fun b hb =>
            hqueue b (List.mem_cons_of_mem a hb)
          have hfuel : ∀ fuel, run expand (fuel + 1) ⟨a :: rest, visited⟩ =
              run expand fuel (step expand ⟨a :: rest, visited⟩) := by
            intro fuel
            rw [run, if_neg (List.cons_ne_nil a rest)]
          rcases step_cases expand (s := ⟨a :: rest, visited⟩) rfl with
            ⟨ha, heq⟩ | ⟨ha, heq⟩
          · obtain ⟨fuel, seen, hrun⟩ := ihRest hrest hnew
            exact ⟨fuel + 1, seen, by rw [hfuel, heq, hrun]⟩
          · have hitem : a ∈ items := hqueue a List.mem_cons_self
            have hless : (items.filter fun b => b ∉ visited ++ [a]).length < n := by
              have hsplit : (items.filter fun b => b ∉ visited ++ [a]) =
                  (items.filter fun b => b ∉ visited).filter fun b => b ≠ a := by
                rw [List.filter_filter]
                refine List.filter_congr fun b _ => ?_
                simp [and_comm]
              rw [← hnew, hsplit, List.length_filter_lt_length_iff_exists]
              exact ⟨a, List.mem_filter.mpr ⟨hitem, by simpa using ha⟩, by simp⟩
            obtain ⟨fuel, seen, hrun⟩ := ih _ hless (s := ⟨rest ++ expand a, visited ++ [a]⟩)
              (by
                intro b hb
                rcases List.mem_append.mp hb with hb | hb
                · exact hrest b hb
                · exact hclosed a hitem b hb) rfl
            exact ⟨fuel + 1, seen, by rw [hfuel, heq, hrun]⟩

end Termination

end Worklist
end YdbSnippets
