import Mathlib.Data.List.Sort
import Mathlib.Order.Defs.LinearOrder

/-!
# Stable sorting by a key

`sorted(items, key=…)` of Python: the items in ascending order of their keys,
and items with equal keys in the order in which they came.  A list is
determined by being sorted and by its items of each key.
-/

namespace YdbSnippets
namespace Sorting

universe u v w

variable {α : Type u} {κ : Type v} [LinearOrder κ]

/-- `sorted(items, key=key)` -/
def sortedBy (key : α → κ) (items : List α) : List α :=
  items.mergeSort fun a b => decide (key a ≤ key b)

/-- The keys ascend along the list. -/
def Ascending (key : α → κ) (items : List α) : Prop :=
  items.Pairwise fun a b => key a ≤ key b

/-- The items with a key, in the order of the list. -/
def withKey (key : α → κ) (k : κ) (items : List α) : List α :=
  items.filter fun a => decide (key a = k)

variable {key : α → κ}

theorem withKey_cons
    (key : α → κ) (k : κ) (a : α) (items : List α) :
    withKey key k (a :: items) =
      if key a = k then a :: withKey key k items else withKey key k items := by
  unfold withKey
  split
  · next h => exact List.filter_cons_of_pos (decide_eq_true h)
  · next h => exact List.filter_cons_of_neg (by simpa using h)

theorem mem_withKey
    {k : κ} {a : α} {items : List α} :
    a ∈ withKey key k items ↔ a ∈ items ∧ key a = k := by
  unfold withKey
  rw [List.mem_filter, decide_eq_true_eq]

theorem le_trans_bool (a b c : α)
    (hab : decide (key a ≤ key b) = true) (hbc : decide (key b ≤ key c) = true) :
    decide (key a ≤ key c) = true :=
  decide_eq_true ((of_decide_eq_true hab).trans (of_decide_eq_true hbc))

theorem le_total_bool (a b : α) :
    (decide (key a ≤ key b) || decide (key b ≤ key a)) = true := by
  rw [Bool.or_eq_true, decide_eq_true_eq, decide_eq_true_eq]
  exact le_total (key a) (key b)

theorem sortedBy_perm
    (key : α → κ) (items : List α) :
    (sortedBy key items).Perm items :=
  List.mergeSort_perm _ _

@[simp] theorem mem_sortedBy
    {items : List α} {a : α} :
    a ∈ sortedBy key items ↔ a ∈ items :=
  (sortedBy_perm key items).mem_iff

@[simp] theorem length_sortedBy
    (key : α → κ) (items : List α) :
    (sortedBy key items).length = items.length :=
  (sortedBy_perm key items).length_eq

theorem ascending_sortedBy
    (key : α → κ) (items : List α) :
    Ascending key (sortedBy key items) := by
  have h : (sortedBy key items).Pairwise fun a b => decide (key a ≤ key b) = true :=
    List.pairwise_mergeSort le_trans_bool le_total_bool items
  exact h.imp of_decide_eq_true

/-- A list in order is left as it is. -/
theorem sortedBy_eq_self
    {items : List α}
    (h : Ascending key items) :
    sortedBy key items = items :=
  List.mergeSort_of_pairwise (h.imp decide_eq_true)

/-- Items with equal keys keep their order. -/
theorem withKey_sortedBy
    (key : α → κ) (k : κ) (items : List α) :
    withKey key k (sortedBy key items) = withKey key k items := by
  have hequal : (withKey key k items).Pairwise
      fun a b => decide (key a ≤ key b) = true := by
    refine List.pairwise_of_forall_mem_list ?_
    intro a ha b hb
    have hka := (mem_withKey.mp ha).2
    have hkb := (mem_withKey.mp hb).2
    exact decide_eq_true (hka.trans hkb.symm).le
  have hsub : (withKey key k items).Sublist (sortedBy key items) :=
    List.sublist_mergeSort le_trans_bool le_total_bool hequal List.filter_sublist
  have hkept : (withKey key k items).Sublist (withKey key k (sortedBy key items)) := by
    have h := hsub.filter fun a => decide (key a = k)
    simpa [withKey] using h
  have hlength := ((sortedBy_perm key items).filter fun a => decide (key a = k)).length_eq
  exact (hkept.eq_of_length hlength.symm).symm

/-- A list is determined by being sorted and by its items of each key. -/
theorem eq_of_ascending
    {xs ys : List α}
    (hxs : Ascending key xs) (hys : Ascending key ys)
    (h : ∀ k, withKey key k xs = withKey key k ys) :
    xs = ys := by
  induction xs generalizing ys with
  | nil =>
      cases ys with
      | nil => rfl
      | cons b ys =>
          have hb := h (key b)
          rw [withKey_cons, if_pos rfl] at hb
          cases hb
  | cons a xs ih =>
      cases ys with
      | nil =>
          have ha := h (key a)
          rw [withKey_cons, if_pos rfl] at ha
          cases ha
      | cons b ys =>
          obtain ⟨hax, htail⟩ := List.pairwise_cons.mp hxs
          obtain ⟨hby, htail'⟩ := List.pairwise_cons.mp hys
          have hle : ∀ {a b : α} {xs ys : List α},
              (∀ c ∈ xs, key a ≤ key c) →
              withKey key (key b) (a :: xs) = withKey key (key b) (b :: ys) →
              key a ≤ key b := by
            intro a b xs ys hax heq
            have hmem : b ∈ withKey key (key b) (a :: xs) := by
              rw [heq]
              exact mem_withKey.mpr ⟨List.mem_cons_self, rfl⟩
            rcases List.mem_cons.mp (mem_withKey.mp hmem).1 with rfl | hmem
            · exact le_rfl
            · exact hax b hmem
          have hkey : key a = key b :=
            le_antisymm (hle hax (h (key b))) (hle hby (h (key a)).symm)
          have hhead := h (key a)
          rw [withKey_cons, if_pos rfl, withKey_cons, if_pos hkey.symm] at hhead
          obtain ⟨rfl, -⟩ := List.cons.inj hhead
          refine congrArg _ (ih htail htail' ?_)
          intro k
          have hk := h k
          rw [withKey_cons, withKey_cons] at hk
          by_cases hak : key a = k
          · rw [if_pos hak, if_pos hak] at hk
            exact (List.cons.inj hk).2
          · rw [if_neg hak, if_neg hak] at hk
            exact hk

/-- Sorting gives the sorted list that has the same items of each key. -/
theorem sortedBy_eq_iff
    {items out : List α} :
    sortedBy key items = out ↔
      Ascending key out ∧ ∀ k, withKey key k items = withKey key k out := by
  constructor
  · rintro rfl
    exact ⟨ascending_sortedBy key items, fun k => (withKey_sortedBy key k items).symm⟩
  · rintro ⟨hasc, hsame⟩
    refine eq_of_ascending (ascending_sortedBy key items) hasc ?_
    intro k
    rw [withKey_sortedBy, hsame]

/-- Sorting commutes with a change of the items that keeps their keys. -/
theorem map_sortedBy
    {β : Type w} (f : α → β) (key : β → κ) (items : List α) :
    (sortedBy (fun a => key (f a)) items).map f = sortedBy key (items.map f) :=
  List.map_mergeSort fun _ _ _ _ => rfl

/-- Items with different keys are sorted the same way from whatever order. -/
theorem sortedBy_eq_of_perm
    {xs ys : List α}
    (hperm : xs.Perm ys)
    (hinj : ∀ a ∈ xs, ∀ b ∈ xs, key a = key b → a = b) :
    sortedBy key xs = sortedBy key ys := by
  have hsorted : (sortedBy key xs).Perm (sortedBy key ys) :=
    (sortedBy_perm key xs).trans (hperm.trans (sortedBy_perm key ys).symm)
  refine hsorted.eq_of_pairwise ?_ (ascending_sortedBy key xs) (ascending_sortedBy key ys)
  intro a b ha hb hab hba
  refine hinj a (mem_sortedBy.mp ha) b ?_ (le_antisymm hab hba)
  exact hperm.mem_iff.mpr (mem_sortedBy.mp hb)

/-- Sorting commutes with a selection. -/
theorem filter_sortedBy
    (keep : α → Bool) (key : α → κ) (items : List α) :
    (sortedBy key items).filter keep = sortedBy key (items.filter keep) := by
  refine (sortedBy_eq_iff.mpr ⟨(ascending_sortedBy key items).filter keep, ?_⟩).symm
  intro k
  have hcomm : ∀ xs : List α, withKey key k (xs.filter keep) = (withKey key k xs).filter keep := by
    intro xs
    exact List.filter_comm _ keep xs
  rw [hcomm, hcomm, withKey_sortedBy]

end Sorting
end YdbSnippets
