import Mathlib.Data.List.Perm.Basic
import Mathlib.Data.List.Nodup
import Mathlib.Data.List.Sort
import Mathlib.Data.Set.Function

/-!
# Matching two lists

Two lists are matched when one of them, put into another order, corresponds to
the other entry by entry.  Equal sorted lists of values are such a matching,
and a matching of lists without repetitions is a bijection of their entries.
-/

namespace YdbSnippets
namespace Matching

universe u

section Sorting

variable {κ : Type*} [LinearOrder κ]

/-- Sorted lists are equal if and only if the lists hold the same values. -/
theorem mergeSort_eq_mergeSort_iff
    {xs ys : List κ} :
    xs.mergeSort (fun a b => decide (a ≤ b)) = ys.mergeSort (fun a b => decide (a ≤ b)) ↔
      xs.Perm ys := by
  constructor
  · intro h
    exact (List.mergeSort_perm xs _).symm.trans (h ▸ List.mergeSort_perm ys _)
  · intro h
    refine List.Perm.eq_of_pairwise' (List.pairwise_mergeSort' (· ≤ ·) xs)
      (List.pairwise_mergeSort' (· ≤ ·) ys) ?_
    exact (List.mergeSort_perm xs _).trans (h.trans (List.mergeSort_perm ys _).symm)

end Sorting

section Matching

variable {α β γ : Type*}

/-- `ys` can be put into an order in which it corresponds to `xs`. -/
def Matched (R : α → β → Prop) (xs : List α) (ys : List β) : Prop :=
  ∃ zs, zs.Perm ys ∧ List.Forall₂ R xs zs

theorem Matched.imp
    {R S : α → β → Prop} {xs : List α} {ys : List β}
    (h : Matched R xs ys) (himp : ∀ x ∈ xs, ∀ y ∈ ys, R x y → S x y) :
    Matched S xs ys := by
  obtain ⟨zs, hperm, hzs⟩ := h
  refine ⟨zs, hperm, ?_⟩
  have hmem : ∀ z ∈ zs, z ∈ ys := fun z hz => hperm.mem_iff.mp hz
  clear hperm
  induction hzs with
  | nil => exact List.Forall₂.nil
  | cons hR _ ih =>
      refine List.Forall₂.cons (himp _ List.mem_cons_self _ (hmem _ List.mem_cons_self) hR) ?_
      exact ih (fun x hx => himp x (List.mem_cons_of_mem _ hx))
        fun z hz => hmem z (List.mem_cons_of_mem _ hz)

/-- Two lists have the same values if and only if they can be matched by value. -/
theorem map_perm_map_iff
    {f : α → γ} {g : β → γ} {xs : List α} {ys : List β} :
    (xs.map f).Perm (ys.map g) ↔ Matched (fun x y => f x = g y) xs ys := by
  constructor
  · intro h
    have hself : List.Forall₂ (fun c y => c = g y) (ys.map g) ys := by
      rw [List.forall₂_map_left_iff]
      exact List.forall₂_same.mpr fun _ _ => rfl
    obtain ⟨zs, hzs, hperm⟩ := List.perm_comp_forall₂ h hself
    exact ⟨zs, hperm, List.forall₂_map_left_iff.mp hzs⟩
  · rintro ⟨zs, hperm, hzs⟩
    have heq : xs.map f = zs.map g := by
      rw [← List.forall₂_eq_eq_eq, List.forall₂_map_left_iff, List.forall₂_map_right_iff]
      exact hzs
    rw [heq]
    exact hperm.map g

/-- Entries that correspond one by one are given by a function, if no entry is
repeated. -/
theorem exists_map_of_forall₂
    [DecidableEq α] {R : α → β → Prop} {xs : List α} {ys : List β}
    (hnodup : xs.Nodup) (h : List.Forall₂ R xs ys) (default : α → β) :
    ∃ f : α → β, xs.map f = ys ∧ ∀ x ∈ xs, R x (f x) := by
  induction h with
  | nil => exact ⟨default, rfl, fun x hx => by cases hx⟩
  | @cons x y xs ys hR _ ih =>
      obtain ⟨hx, hnodup⟩ := List.nodup_cons.mp hnodup
      obtain ⟨f, hmap, hf⟩ := ih hnodup
      have hother : ∀ z ∈ xs, Function.update f x y z = f z := by
        intro z hz
        refine Function.update_of_ne ?_ _ _
        rintro rfl
        exact hx hz
      refine ⟨Function.update f x y, ?_, ?_⟩
      · rw [List.map_cons, Function.update_self, List.map_congr_left hother, hmap]
      · intro z hz
        rcases List.mem_cons.mp hz with rfl | hz
        · rw [Function.update_self]
          exact hR
        · rw [hother z hz]
          exact hf z hz

/-- A function that lists `ys` along `xs`, both without repetitions, is a
bijection of their entries. -/
theorem bijOn_iff_map_perm
    {f : α → β} {xs : List α} {ys : List β}
    (hxs : xs.Nodup) (hys : ys.Nodup) :
    Set.BijOn f {x | x ∈ xs} {y | y ∈ ys} ↔ (xs.map f).Perm ys := by
  constructor
  · intro h
    have hnodup : (xs.map f).Nodup := hxs.map_on fun x hx y hy => h.injOn hx hy
    refine (List.perm_ext_iff_of_nodup hnodup hys).mpr fun y => ?_
    rw [List.mem_map]
    constructor
    · rintro ⟨x, hx, rfl⟩
      exact h.mapsTo hx
    · intro hy
      exact h.surjOn hy
  · intro h
    refine ⟨?_, ?_, ?_⟩
    · intro x hx
      exact h.mem_iff.mp (List.mem_map_of_mem hx)
    · intro x hx y hy heq
      exact List.inj_on_of_nodup_map (h.nodup_iff.mpr hys) hx hy heq
    · intro y hy
      exact List.mem_map.mp (h.mem_iff.mpr hy)

theorem Matched.length_eq
    {R : α → β → Prop} {xs : List α} {ys : List β}
    (h : Matched R xs ys) :
    xs.length = ys.length := by
  obtain ⟨zs, hperm, hzs⟩ := h
  rw [hzs.length_eq, hperm.length_eq]

theorem Matched.symm
    {R : α → β → Prop} {xs : List α} {ys : List β}
    (h : Matched R xs ys) :
    Matched (fun y x => R x y) ys xs := by
  obtain ⟨zs, hperm, hzs⟩ := h
  obtain ⟨ws, hws, hperm'⟩ := List.perm_comp_forall₂ hperm.symm hzs.flip
  exact ⟨ws, hperm', hws⟩

/-- Every entry of the first list has a counterpart. -/
theorem exists_of_forall₂_left
    {R : α → β → Prop} {xs : List α} {ys : List β} {x : α}
    (h : List.Forall₂ R xs ys) (hx : x ∈ xs) :
    ∃ y ∈ ys, R x y := by
  induction h with
  | nil => cases hx
  | @cons a b _ _ hab _ ih =>
      rcases List.mem_cons.mp hx with rfl | hx
      · exact ⟨b, List.mem_cons_self, hab⟩
      · obtain ⟨y, hy, hxy⟩ := ih hx
        exact ⟨y, List.mem_cons_of_mem _ hy, hxy⟩

/-- Every entry of the second list has a counterpart. -/
theorem exists_of_forall₂_right
    {R : α → β → Prop} {xs : List α} {ys : List β} {y : β}
    (h : List.Forall₂ R xs ys) (hy : y ∈ ys) :
    ∃ x ∈ xs, R x y :=
  exists_of_forall₂_left h.flip hy

/-- Everything in the second list has its counterpart in the first. -/
theorem Matched.exists_left
    {R : α → β → Prop} {xs : List α} {ys : List β} {y : β}
    (h : Matched R xs ys) (hy : y ∈ ys) :
    ∃ x ∈ xs, R x y := by
  obtain ⟨zs, hperm, hzs⟩ := h
  exact exists_of_forall₂_right hzs (hperm.mem_iff.mpr hy)

theorem Matched.perm_left
    {R : α → β → Prop} {xs xs' : List α} {ys : List β}
    (hperm : xs.Perm xs') (h : Matched R xs ys) :
    Matched R xs' ys := by
  obtain ⟨zs, hzs, hR⟩ := h
  obtain ⟨ws, hws, hzw⟩ := List.perm_comp_forall₂ hperm.symm hR
  exact ⟨ws, hzw.trans hzs, hws⟩

/-- Lists that are matched part by part are matched. -/
theorem Matched.flatten
    {R : α → β → Prop} {xss : List (List α)} {yss : List (List β)}
    (h : List.Forall₂ (Matched R) xss yss) :
    Matched R xss.flatten yss.flatten := by
  induction h with
  | nil => exact ⟨[], List.Perm.refl _, List.Forall₂.nil⟩
  | cons hpart _ ih =>
      obtain ⟨zs, hzs, hR⟩ := hpart
      obtain ⟨ws, hws, hR'⟩ := ih
      exact ⟨zs ++ ws, hzs.append hws, List.rel_append hR hR'⟩

/-- What corresponds to a list corresponds to its counterpart as well. -/
theorem forall₂_of_forall₂
    {R : α → β → Prop} {S : α → γ → Prop} {T : β → γ → Prop}
    {xs : List α} {ys : List β} {zs : List γ}
    (hxy : List.Forall₂ R xs ys) (hxz : List.Forall₂ S xs zs)
    (himp : ∀ x ∈ xs, ∀ y z, R x y → S x z → T y z) :
    List.Forall₂ T ys zs := by
  induction hxy generalizing zs with
  | nil =>
      cases hxz
      exact List.Forall₂.nil
  | cons hR _ ih =>
      cases hxz with
      | cons hS hxz =>
          refine List.Forall₂.cons (himp _ List.mem_cons_self _ _ hR hS) ?_
          exact ih hxz fun x hx => himp x (List.mem_cons_of_mem _ hx)

/-- Values that tell apart what distinct values tell apart are distinct. -/
theorem nodup_map_of_nodup_map
    {f : α → β} {k : α → γ} {xs : List α}
    (h : (xs.map f).Nodup) (hfk : ∀ x ∈ xs, ∀ y ∈ xs, k x = k y → f x = f y) :
    (xs.map k).Nodup := by
  refine (h.of_map _).map_on fun x hx y hy hk => ?_
  exact List.inj_on_of_nodup_map h hx hy (hfk x hx y hy hk)

theorem Matched.filterMap
    {δ : Type*} {R : α → β → Prop} {S : γ → δ → Prop} {f : α → Option γ} {g : β → Option δ}
    {xs : List α} {ys : List β}
    (h : Matched R xs ys)
    (hfg : ∀ x y, R x y → Option.Rel S (f x) (g y)) :
    Matched S (xs.filterMap f) (ys.filterMap g) := by
  obtain ⟨zs, hperm, hzs⟩ := h
  refine ⟨zs.filterMap g, hperm.filterMap g, ?_⟩
  clear hperm
  induction hzs with
  | nil => exact List.Forall₂.nil
  | @cons x z _ _ hR _ ih =>
      have hrel := hfg x z hR
      rw [List.filterMap_cons, List.filterMap_cons]
      cases hx : f x with
      | none =>
          cases hz : g z with
          | none => exact ih
          | some d =>
              rw [hx, hz] at hrel
              cases hrel
      | some c =>
          cases hz : g z with
          | none =>
              rw [hx, hz] at hrel
              cases hrel
          | some d =>
              rw [hx, hz] at hrel
              cases hrel with
              | some hS => exact List.Forall₂.cons hS ih

theorem Matched.filter
    {R : α → β → Prop} {p : α → Bool} {q : β → Bool} {xs : List α} {ys : List β}
    (h : Matched R xs ys) (hpq : ∀ x y, R x y → p x = q y) :
    Matched R (xs.filter p) (ys.filter q) := by
  rw [← List.filterMap_eq_filter, ← List.filterMap_eq_filter]
  refine h.filterMap fun x y hR => ?_
  simp only [Option.guard, hpq x y hR]
  split_ifs
  · exact Option.Rel.some hR
  · exact Option.Rel.none

/-- Lists that are matched with equal keys, no two of them the same, correspond
entry by entry when they are sorted by the keys. -/
theorem Matched.mergeSort
    {κ : Type*} [LinearOrder κ] {R : α → β → Prop} {k : α → κ} {k' : β → κ}
    {xs : List α} {ys : List β}
    (h : Matched R xs ys) (hkey : ∀ x ∈ xs, ∀ y ∈ ys, R x y → k x = k' y)
    (hdistinct : (xs.map k).Nodup) :
    List.Forall₂ R (xs.mergeSort fun a b => decide (k a ≤ k b))
      (ys.mergeSort fun a b => decide (k' a ≤ k' b)) := by
  obtain ⟨zs, hperm, hzs⟩ := h.imp fun x hx y hy hR => And.intro hR (hkey x hx y hy hR)
  obtain ⟨ws, hws, hwsPerm⟩ := List.perm_comp_forall₂
    (List.mergeSort_perm xs fun a b => decide (k a ≤ k b)) hzs
  have hkeys : (xs.mergeSort fun a b => decide (k a ≤ k b)).map k = ws.map k' := by
    rw [← List.forall₂_eq_eq_eq, List.forall₂_map_left_iff, List.forall₂_map_right_iff]
    exact hws.imp fun _ _ h => h.2
  -- both lists of keys are sorted, so they are the same
  have hsorted : ws.map k' = (ys.mergeSort fun a b => decide (k' a ≤ k' b)).map k' := by
    have hwsMap : ws.map k' = (ys.map k').mergeSort fun a b => decide (a ≤ b) := by
      rw [← hkeys, List.map_mergeSort (s := fun a b => decide (a ≤ b)) (fun _ _ _ _ => rfl)]
      refine mergeSort_eq_mergeSort_iff.mpr ?_
      have hxs : ((xs.mergeSort fun a b => decide (k a ≤ k b)).map k).Perm (xs.map k) :=
        (List.mergeSort_perm xs _).map k
      rw [hkeys] at hxs
      exact hxs.symm.trans ((hwsPerm.trans hperm).map k')
    rw [hwsMap, List.map_mergeSort (s := fun a b => decide (a ≤ b)) (fun _ _ _ _ => rfl)]
  have hnodup : (ws.map k').Nodup := by
    rw [← hkeys]
    exact ((List.mergeSort_perm xs _).map k).nodup_iff.mpr hdistinct
  have hsame : ws = ys.mergeSort fun a b => decide (k' a ≤ k' b) := by
    have hmem : ws.Perm (ys.mergeSort fun a b => decide (k' a ≤ k' b)) :=
      (hwsPerm.trans hperm).trans (List.mergeSort_perm ys _).symm
    rw [← List.forall₂_eq_eq_eq, List.forall₂_map_left_iff, List.forall₂_map_right_iff,
      List.forall₂_iff_zip] at hsorted
    rw [← List.forall₂_eq_eq_eq, List.forall₂_iff_zip]
    refine ⟨hsorted.1, fun {a b} hab => ?_⟩
    have hzip := List.of_mem_zip hab
    exact List.inj_on_of_nodup_map hnodup hzip.1 (hmem.mem_iff.mpr hzip.2) (hsorted.2 hab)
  rw [← hsame]
  exact hws.imp fun _ _ h => h.1

theorem map_fst_zip_sublist
    (xs : List α) (ys : List β) :
    ((xs.zip ys).map Prod.fst).Sublist xs := by
  induction xs generalizing ys with
  | nil => exact List.Sublist.refl _
  | cons x xs ih =>
      cases ys with
      | nil => exact List.nil_sublist _
      | cons y ys =>
          rw [List.zip_cons_cons, List.map_cons]
          exact (ih ys).cons_cons x

theorem exists_of_isOk
    {ε α : Type*} {x : Except ε α}
    (h : x.isOk = true) :
    ∃ a, x = .ok a := by
  cases x with
  | ok a => exact ⟨a, rfl⟩
  | error e => cases h

theorem exists_of_any
    {ε α : Type*} {x : Except ε α} {p : α → Bool}
    (h : x.toOption.any p = true) :
    ∃ a, x = .ok a ∧ p a = true := by
  cases x with
  | ok a => exact ⟨a, rfl, h⟩
  | error e => cases h

/-- Two steps succeed if and only if the first does and then the second. -/
theorem bind_ok_iff
    {ε : Type*} {α β : Type u} {x : Except ε α} {f : α → Except ε β} {b : β} :
    (x >>= f) = .ok b ↔ ∃ a, x = .ok a ∧ f a = .ok b := by
  cases x with
  | error e =>
      constructor
      · intro h
        cases h
      · rintro ⟨a, h, -⟩
        cases h
  | ok a =>
      constructor
      · intro h
        exact ⟨a, rfl, h⟩
      · rintro ⟨a', h, h'⟩
        cases h
        exact h'

/-- Two steps fail if and only if the first does, or the second after it. -/
theorem bind_error_iff
    {ε : Type*} {α β : Type u} {x : Except ε α} {f : α → Except ε β} {e : ε} :
    (x >>= f) = .error e ↔ x = .error e ∨ ∃ a, x = .ok a ∧ f a = .error e := by
  cases x with
  | error e' =>
      constructor
      · intro h
        exact Or.inl (congrArg Except.error (Except.error.inj h))
      · rintro (h | ⟨a, h, -⟩)
        · exact congrArg Except.error (Except.error.inj h)
        · cases h
  | ok a =>
      constructor
      · intro h
        exact Or.inr ⟨a, rfl, h⟩
      · rintro (h | ⟨a', h, h'⟩)
        · cases h
        · cases h
          exact h'

/-- A list is mapped without an error if and only if each of its entries is. -/
theorem mapM_ok_iff
    {ε : Type*} {f : α → Except ε β} {xs : List α} {ys : List β} :
    xs.mapM f = .ok ys ↔ List.Forall₂ (fun x y => f x = .ok y) xs ys := by
  induction xs generalizing ys with
  | nil =>
      rw [List.mapM_nil, List.forall₂_nil_left_iff]
      exact ⟨fun h => (Except.ok.inj h).symm, fun h => h ▸ rfl⟩
  | cons x xs ih =>
      rw [List.mapM_cons, List.forall₂_cons_left_iff, bind_ok_iff]
      constructor
      · rintro ⟨y, hx, h⟩
        obtain ⟨rest, hrest, heq⟩ := bind_ok_iff.mp h
        exact ⟨y, rest, hx, ih.mp hrest, (Except.ok.inj heq).symm⟩
      · rintro ⟨y, rest, hx, hrest, rfl⟩
        exact ⟨y, hx, bind_ok_iff.mpr ⟨rest, ih.mpr hrest, rfl⟩⟩

/-- Mapping a list fails if and only if it fails for an entry. -/
theorem mapM_error_iff
    {ε : Type*} {f : α → Except ε β} {xs : List α} :
    (∃ e, xs.mapM f = .error e) ↔ ∃ x ∈ xs, ∃ e, f x = .error e := by
  induction xs with
  | nil =>
      rw [List.mapM_nil]
      constructor
      · rintro ⟨e, h⟩
        cases h
      · rintro ⟨x, hx, -⟩
        cases hx
  | cons x xs ih =>
      rw [List.mapM_cons, List.exists_mem_cons_iff, ← ih]
      cases hx : f x with
      | error e =>
          refine iff_of_true ⟨e, rfl⟩ (Or.inl ⟨e, rfl⟩)
      | ok y =>
          cases hxs : xs.mapM f with
          | error e => exact iff_of_true ⟨e, rfl⟩ (Or.inr ⟨e, rfl⟩)
          | ok ys =>
              refine iff_of_false ?_ ?_
              · rintro ⟨e, h⟩
                cases h
              · rintro (⟨e, h⟩ | ⟨e, h⟩)
                · cases h
                · cases h

end Matching

section Distinct

/-- Nothing is left twice when repetitions are erased. -/
theorem nodup_eraseDups [BEq α] [LawfulBEq α] (xs : List α) : xs.eraseDups.Nodup := by
  induction hlength : xs.length using Nat.strongRecOn generalizing xs with
  | ind n ih =>
      cases xs with
      | nil => exact List.nodup_nil
      | cons x xs =>
          rw [List.eraseDups_cons, List.nodup_cons]
          constructor
          · rw [List.mem_eraseDups]
            simp
          · refine ih _ ?_ _ rfl
            have hle := List.length_filter_le (fun y => !y == x) xs
            rw [List.length_cons] at hlength
            omega

/-- If one entry passes a test, it stands at one place. -/
theorem index_unique_of_filter_eq_singleton
    {p : α → Bool} {xs : List α} {x a b : α} {i j : Nat}
    (h : xs.filter p = [x])
    (hi : xs[i]? = some a) (ha : p a = true)
    (hj : xs[j]? = some b) (hb : p b = true) :
    i = j := by
  obtain ⟨before, after, rfl, hbefore, -, hafter⟩ := List.filter_eq_cons_iff.mp h
  have hplace : ∀ k c, (before ++ x :: after)[k]? = some c → p c = true → k = before.length := by
    intro k c hk hc
    rcases Nat.lt_trichotomy k before.length with hlt | heq | hgt
    · rw [List.getElem?_append_left hlt] at hk
      exact absurd hc (hbefore c (List.mem_of_getElem? hk))
    · exact heq
    · rw [List.getElem?_append_right (by omega)] at hk
      obtain ⟨m, hm⟩ : ∃ m, k - before.length = m + 1 := ⟨k - before.length - 1, by omega⟩
      rw [hm, List.getElem?_cons_succ] at hk
      exact absurd hc (List.filter_eq_nil_iff.mp hafter c (List.mem_of_getElem? hk))
  rw [hplace i a hi ha, hplace j b hj hb]

end Distinct

end Matching
end YdbSnippets
