import YdbSnippets.Lists.Sorting
import Mathlib.Data.List.Nodup

/-!
# The first item of each key

A loop that skips an item when it has met its key before keeps the first item of
each key.  What it keeps depends on the order of the items only as far as the
first item of a key does.
-/

namespace YdbSnippets
namespace Firsts

universe u v w

variable {α : Type u} {κ : Type v} [DecidableEq κ]

/-- The items whose keys are neither in `seen` nor met before. -/
def firstsFrom (key : α → κ) : List κ → List α → List α
  | _, [] => []
  | seen, a :: rest =>
      if key a ∈ seen then firstsFrom key seen rest
      else a :: firstsFrom key (key a :: seen) rest

/-- The first item with a key. -/
def firstWith (key : α → κ) (k : κ) (items : List α) : Option α :=
  items.find? fun a => decide (key a = k)

variable {key : α → κ} {seen : List κ} {items : List α}

theorem firstWith_cons
    (key : α → κ) (k : κ) (a : α) (items : List α) :
    firstWith key k (a :: items) = if key a = k then some a else firstWith key k items := by
  unfold firstWith
  rw [List.find?_cons]
  by_cases h : key a = k
  · simp [h]
  · simp [h]

theorem firstWith_append
    (key : α → κ) (k : κ) (xs ys : List α) :
    firstWith key k (xs ++ ys) = (firstWith key k xs).or (firstWith key k ys) :=
  List.find?_append

theorem firstWith_eq_none_iff
    {k : κ} :
    firstWith key k items = none ↔ ∀ a ∈ items, key a ≠ k := by
  unfold firstWith
  simp [List.find?_eq_none]

theorem mem_of_firstWith
    {k : κ} {a : α}
    (h : firstWith key k items = some a) :
    a ∈ items ∧ key a = k := by
  unfold firstWith at h
  exact ⟨List.mem_of_find?_eq_some h, by simpa using List.find?_some h⟩

/-- What is kept: the first items of the keys that are not in `seen`. -/
theorem mem_firstsFrom_iff
    {a : α} :
    a ∈ firstsFrom key seen items ↔ key a ∉ seen ∧ firstWith key (key a) items = some a := by
  induction items generalizing seen with
  | nil => simp [firstsFrom, firstWith]
  | cons b rest ih =>
      rw [firstsFrom, firstWith_cons]
      by_cases hseen : key b ∈ seen
      · rw [if_pos hseen, ih]
        refine and_congr_right fun ha => ?_
        have hne : key b ≠ key a := fun heq => ha (heq ▸ hseen)
        rw [if_neg hne]
      · rw [if_neg hseen, List.mem_cons, ih]
        by_cases hkey : key b = key a
        · rw [if_pos hkey, ← hkey]
          constructor
          · rintro (rfl | ⟨hnew, -⟩)
            · exact ⟨hseen, rfl⟩
            · exact absurd List.mem_cons_self hnew
          · rintro ⟨-, heq⟩
            exact Or.inl (Option.some.inj heq).symm
        · rw [if_neg hkey, List.mem_cons, not_or]
          constructor
          · rintro (rfl | ⟨⟨-, hnew⟩, hfirst⟩)
            · exact absurd rfl hkey
            · exact ⟨hnew, hfirst⟩
          · rintro ⟨hnew, hfirst⟩
            exact Or.inr ⟨⟨fun heq => hkey heq.symm, hnew⟩, hfirst⟩

theorem firstsFrom_sublist
    (key : α → κ) (seen : List κ) (items : List α) :
    (firstsFrom key seen items).Sublist items := by
  induction items generalizing seen with
  | nil => exact List.Sublist.refl _
  | cons a rest ih =>
      rw [firstsFrom]
      split
      · exact (ih seen).cons a
      · exact (ih _).cons_cons a

/-- A key is kept once. -/
theorem nodup_firstsFrom
    (key : α → κ) (seen : List κ) (items : List α) :
    ((firstsFrom key seen items).map key).Nodup := by
  induction items generalizing seen with
  | nil => exact List.nodup_nil
  | cons a rest ih =>
      rw [firstsFrom]
      split
      · exact ih seen
      · rw [List.map_cons, List.nodup_cons]
        refine ⟨?_, ih _⟩
        intro hmem
        obtain ⟨b, hb, hkey⟩ := List.mem_map.mp hmem
        exact (mem_firstsFrom_iff.mp hb).1 (hkey ▸ List.mem_cons_self)

/-- Every key that is met and not in `seen` is kept. -/
theorem mem_keys_firstsFrom_iff
    {k : κ} :
    k ∈ (firstsFrom key seen items).map key ↔ k ∉ seen ∧ k ∈ items.map key := by
  constructor
  · intro h
    obtain ⟨a, ha, rfl⟩ := List.mem_map.mp h
    obtain ⟨hnew, hfirst⟩ := mem_firstsFrom_iff.mp ha
    exact ⟨hnew, List.mem_map_of_mem (mem_of_firstWith hfirst).1⟩
  · rintro ⟨hnew, hmem⟩
    obtain ⟨b, hb, hkey⟩ := List.mem_map.mp hmem
    cases hfirst : firstWith key k items with
    | none => exact absurd hkey (firstWith_eq_none_iff.mp hfirst b hb)
    | some a =>
        have ha := (mem_of_firstWith hfirst).2
        refine List.mem_map.mpr ⟨a, mem_firstsFrom_iff.mpr ?_, ha⟩
        rw [ha]
        exact ⟨hnew, hfirst⟩

/-- Lists with the same first items keep the same items. -/
theorem firstsFrom_perm
    {xs ys : List α}
    (seen : List κ)
    (h : ∀ k, firstWith key k xs = firstWith key k ys) :
    (firstsFrom key seen xs).Perm (firstsFrom key seen ys) := by
  have hnodup := fun items => (nodup_firstsFrom key seen items).of_map
  rw [List.perm_ext_iff_of_nodup (hnodup xs) (hnodup ys)]
  intro a
  rw [mem_firstsFrom_iff, mem_firstsFrom_iff, h]

/-- In a list in order, the item that is kept of a key comes before the others of
its key. -/
theorem rel_of_mem_firstsFrom
    {r : α → α → Prop} {a b : α}
    (hrefl : ∀ a, r a a)
    (hsorted : items.Pairwise r)
    (ha : a ∈ firstsFrom key seen items) (hb : b ∈ items)
    (hkey : key b = key a) :
    r a b := by
  obtain ⟨-, before, after, rfl, hbefore⟩ :=
    List.find?_eq_some_iff_append.mp (mem_firstsFrom_iff.mp ha).2
  rcases List.mem_append.mp hb with hb | hb
  · exact absurd hkey (by simpa using hbefore b hb)
  · rcases List.mem_cons.mp hb with rfl | hb
    · exact hrefl b
    · exact List.rel_of_pairwise_cons (List.pairwise_append.mp hsorted).2.1 hb

/-- The first item of a key is found in the only list that has the key. -/
theorem firstWith_flatMap
    {β : Type w} {f : β → List α} {xs : List β} {x : β} {k : κ}
    (hx : x ∈ xs)
    (hothers : ∀ y ∈ xs, y ≠ x → firstWith key k (f y) = none) :
    firstWith key k (xs.flatMap f) = firstWith key k (f x) := by
  induction xs with
  | nil => cases hx
  | cons y rest ih =>
      rw [List.flatMap_cons, firstWith_append]
      have hrest : ∀ z ∈ rest, z ≠ x → firstWith key k (f z) = none := fun z hz =>
        hothers z (List.mem_cons_of_mem y hz)
      by_cases hy : y = x
      · subst hy
        by_cases hmem : y ∈ rest
        · rw [ih hmem hrest, Option.or_self]
        · have hnone : firstWith key k (rest.flatMap f) = none := by
            rw [firstWith_eq_none_iff]
            intro a ha
            obtain ⟨z, hz, ha⟩ := List.mem_flatMap.mp ha
            have hzx : z ≠ y := fun heq => hmem (heq ▸ hz)
            exact firstWith_eq_none_iff.mp (hrest z hz hzx) a ha
          rw [hnone, Option.or_none]
      · rw [hothers y List.mem_cons_self hy, Option.none_or]
        exact ih ((List.mem_cons.mp hx).resolve_left fun heq => hy heq.symm) hrest

/-- When every key belongs to one of the lists, the order in which the lists are
put together does not matter for the first items. -/
theorem firstWith_flatMap_perm
    {β : Type w} {f : β → List α} {xs ys : List β}
    (hperm : xs.Perm ys)
    (hapart : ∀ x ∈ xs, ∀ y ∈ xs, ∀ a ∈ f x, ∀ b ∈ f y, key a = key b → x = y)
    (k : κ) :
    firstWith key k (xs.flatMap f) = firstWith key k (ys.flatMap f) := by
  by_cases hnone : ∃ x ∈ xs, ∃ a ∈ f x, key a = k
  · obtain ⟨x, hx, a, ha, rfl⟩ := hnone
    have hothers : ∀ y ∈ xs, y ≠ x → firstWith key (key a) (f y) = none := by
      intro y hy hne
      rw [firstWith_eq_none_iff]
      intro b hb hkey
      exact hne (hapart y hy x hx b hb a ha hkey)
    rw [firstWith_flatMap hx hothers,
      firstWith_flatMap (hperm.mem_iff.mp hx) fun y hy => hothers y (hperm.mem_iff.mpr hy)]
  · have hall : ∀ zs : List β, (∀ z ∈ zs, z ∈ xs) → firstWith key k (zs.flatMap f) = none := by
      intro zs hzs
      rw [firstWith_eq_none_iff]
      intro a ha hkey
      obtain ⟨z, hz, ha⟩ := List.mem_flatMap.mp ha
      exact hnone ⟨z, hzs z hz, a, ha, hkey⟩
    rw [hall xs fun z hz => hz, hall ys fun z hz => hperm.mem_iff.mpr hz]

/-- A selection by the key commutes with keeping the first items. -/
theorem filter_firstsFrom
    {keep : κ → Bool} {seen seen' : List κ}
    (hseen : ∀ k, keep k = true → (k ∈ seen ↔ k ∈ seen')) :
    (firstsFrom key seen items).filter (fun a => keep (key a)) =
      firstsFrom key seen' (items.filter fun a => keep (key a)) := by
  induction items generalizing seen seen' with
  | nil => rfl
  | cons a rest ih =>
      cases hkeep : keep (key a) with
      | true =>
          rw [List.filter_cons, if_pos hkeep, firstsFrom, firstsFrom]
          by_cases hmem : key a ∈ seen
          · rw [if_pos hmem, if_pos ((hseen _ hkeep).mp hmem), ih hseen]
          · rw [if_neg hmem, if_neg fun h => hmem ((hseen _ hkeep).mpr h),
              List.filter_cons, if_pos hkeep, ih]
            intro k hk
            rw [List.mem_cons, List.mem_cons, hseen k hk]
      | false =>
          have hdrop : ¬ keep (key a) = true := by simp [hkeep]
          rw [List.filter_cons, if_neg hdrop, firstsFrom]
          split
          · exact ih hseen
          · rw [List.filter_cons, if_neg hdrop]
            refine ih ?_
            intro k hk
            have hne : k ≠ key a := fun heq => hdrop (heq ▸ hk)
            rw [List.mem_cons, or_iff_right hne, hseen k hk]

section Sorted

open Sorting

variable {ρ : Type w} [LinearOrder ρ] {rank : α → ρ}

/-- The first items of a list in order are those with the smallest ranks. -/
theorem mem_firstsFrom_sortedBy_iff
    (hrank : Function.Injective rank)
    {a : α} :
    a ∈ firstsFrom key [] (sortedBy rank items) ↔
      a ∈ items ∧ ∀ b ∈ items, key b = key a → rank a ≤ rank b := by
  have hsorted := ascending_sortedBy rank items
  constructor
  · intro h
    refine ⟨mem_sortedBy.mp ((firstsFrom_sublist _ _ _).subset h), ?_⟩
    intro b hb hkey
    exact rel_of_mem_firstsFrom (r := fun a b => rank a ≤ rank b) (fun a => le_refl (rank a))
      hsorted h (mem_sortedBy.mpr hb) hkey
  · rintro ⟨hmem, hleast⟩
    have hkept : key a ∈ (firstsFrom key [] (sortedBy rank items)).map key :=
      mem_keys_firstsFrom_iff.mpr
        ⟨List.not_mem_nil, List.mem_map_of_mem (mem_sortedBy.mpr hmem)⟩
    obtain ⟨b, hb, hkey⟩ := List.mem_map.mp hkept
    have hitem := mem_sortedBy.mp ((firstsFrom_sublist _ _ _).subset hb)
    have hle := rel_of_mem_firstsFrom (r := fun a b => rank a ≤ rank b)
      (fun a => le_refl (rank a)) hsorted hb (mem_sortedBy.mpr hmem) hkey.symm
    rwa [hrank (le_antisymm (hleast b hitem hkey) hle)]

/-- The first items of a list that is put in order depend on its members only. -/
theorem firstsFrom_sortedBy_congr
    (hrank : Function.Injective rank)
    {xs ys : List α}
    (h : ∀ a, a ∈ xs ↔ a ∈ ys) :
    firstsFrom key [] (sortedBy rank xs) = firstsFrom key [] (sortedBy rank ys) := by
  have hnodup := fun items : List α => (nodup_firstsFrom key [] (sortedBy rank items)).of_map
  have hperm : (firstsFrom key [] (sortedBy rank xs)).Perm
      (firstsFrom key [] (sortedBy rank ys)) := by
    rw [List.perm_ext_iff_of_nodup (hnodup xs) (hnodup ys)]
    intro a
    rw [mem_firstsFrom_sortedBy_iff hrank, mem_firstsFrom_sortedBy_iff hrank, h]
    simp only [h]
  have hsorted := fun items : List α =>
    (ascending_sortedBy rank items).sublist (firstsFrom_sublist key [] (sortedBy rank items))
  refine hperm.eq_of_pairwise ?_ (hsorted xs) (hsorted ys)
  exact fun a b _ _ hab hba => hrank (le_antisymm hab hba)

end Sorted

end Firsts
end YdbSnippets
