import Mathlib.Data.List.Nodup
import Mathlib.Data.List.Perm.Basic

/-!
# Entries under keys

A log in which every entry has a key.  Its entries under one key form a log of
their own, and logs that agree under every key have the same entries.
-/

namespace YdbSnippets
namespace Keyed

universe u v

variable {κ : Type u} {ν : Type v} [DecidableEq κ]

/-- The entries under a key. -/
def entriesOf (k : κ) (log : List (κ × ν)) : List (κ × ν) :=
  log.filter fun entry => decide (entry.1 = k)

theorem mem_entriesOf
    {k : κ} {entry : κ × ν} {log : List (κ × ν)} :
    entry ∈ entriesOf k log ↔ entry ∈ log ∧ entry.1 = k := by
  unfold entriesOf
  rw [List.mem_filter, decide_eq_true_eq]

theorem entriesOf_append (k : κ) (log log' : List (κ × ν)) :
    entriesOf k (log ++ log') = entriesOf k log ++ entriesOf k log' :=
  List.filter_append _ _

theorem entriesOf_self (k : κ) (v : ν) :
    entriesOf k [(k, v)] = [(k, v)] := by
  simp [entriesOf]

theorem entriesOf_of_ne
    {k k' : κ} (h : k' ≠ k) (v : ν) :
    entriesOf k [(k', v)] = [] := by
  simp [entriesOf, h]

/-- Logs with the same entries under each key are the same but for the order. -/
theorem perm_of_entriesOf [DecidableEq ν]
    {log log' : List (κ × ν)}
    (h : ∀ k, entriesOf k log = entriesOf k log') :
    log.Perm log' := by
  rw [List.perm_iff_count]
  intro entry
  have hcount : ∀ log : List (κ × ν), log.count entry = (entriesOf entry.1 log).count entry := by
    intro log
    unfold entriesOf
    rw [List.count_filter (by simp)]
  rw [hcount log, hcount log', h]

/-- Where no key stands twice, a key has its entry and no other. -/
theorem entriesOf_eq_singleton
    {log : List (κ × ν)} {k : κ} {v : ν}
    (hnodup : (log.map Prod.fst).Nodup) (h : (k, v) ∈ log) :
    entriesOf k log = [(k, v)] := by
  induction log with
  | nil => cases h
  | cons entry log ih =>
      rw [List.map_cons, List.nodup_cons] at hnodup
      have hsplit := entriesOf_append k [entry] log
      rw [List.singleton_append] at hsplit
      rw [hsplit]
      rcases List.mem_cons.mp h with rfl | hmem
      · have hrest : entriesOf k log = [] := by
          refine List.filter_eq_nil_iff.mpr fun other hother heq => hnodup.1 ?_
          exact List.mem_map.mpr ⟨other, hother, of_decide_eq_true heq⟩
        rw [entriesOf_self, hrest, List.append_nil]
      · have hne : entry.1 ≠ k := fun heq =>
          hnodup.1 (List.mem_map.mpr ⟨(k, v), hmem, heq.symm⟩)
        have hfirst : entriesOf k [entry] = [] := entriesOf_of_ne hne entry.2
        rw [hfirst, List.nil_append, ih hnodup.2 hmem]

end Keyed
end YdbSnippets
