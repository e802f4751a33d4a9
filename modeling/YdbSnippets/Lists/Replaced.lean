import YdbSnippets.Lists.Matching

/-!
# Lists that differ at one place

One entry of a list is replaced by a related one.  The operations on lists
keep this: what comes out differs at one place too.
-/

namespace YdbSnippets
namespace Matching

section Replaced

variable {α β γ : Type*}

/-- `ys` is `xs` with one entry replaced by a related one. -/
def Replaced (R : α → α → Prop) (xs ys : List α) : Prop :=
  ∃ front x y back, xs = front ++ x :: back ∧ ys = front ++ y :: back ∧ R x y

variable {R : α → α → Prop} {S : β → β → Prop} {xs ys : List α}

theorem Replaced.imp
    {R' : α → α → Prop}
    (h : Replaced R xs ys) (himp : ∀ x ∈ xs, ∀ y ∈ ys, R x y → R' x y) :
    Replaced R' xs ys := by
  obtain ⟨front, x, y, back, rfl, rfl, hR⟩ := h
  exact ⟨front, x, y, back, rfl, rfl, himp x (by simp) y (by simp) hR⟩

theorem Replaced.length_eq
    (h : Replaced R xs ys) :
    xs.length = ys.length := by
  obtain ⟨front, x, y, back, rfl, rfl, -⟩ := h
  rw [List.length_append, List.length_append, List.length_cons, List.length_cons]

theorem Replaced.forall_mem
    {P : α → Prop}
    (h : Replaced R xs ys) (hxs : ∀ x ∈ xs, P x) (hP : ∀ x y, R x y → P x → P y) :
    ∀ y ∈ ys, P y := by
  obtain ⟨front, x, y, back, rfl, rfl, hR⟩ := h
  simp only [List.forall_mem_append, List.forall_mem_cons] at hxs ⊢
  exact ⟨hxs.1, hP x y hR hxs.2.1, hxs.2.2⟩

theorem Replaced.symm
    (h : Replaced R xs ys) :
    Replaced (fun y x => R x y) ys xs := by
  obtain ⟨front, x, y, back, rfl, rfl, hR⟩ := h
  exact ⟨front, y, x, back, rfl, rfl, hR⟩

theorem Replaced.append_left
    (zs : List α) (h : Replaced R xs ys) :
    Replaced R (zs ++ xs) (zs ++ ys) := by
  obtain ⟨front, x, y, back, rfl, rfl, hR⟩ := h
  exact ⟨zs ++ front, x, y, back, by rw [List.append_assoc], by rw [List.append_assoc], hR⟩

theorem Replaced.append_right
    (zs : List α) (h : Replaced R xs ys) :
    Replaced R (xs ++ zs) (ys ++ zs) := by
  obtain ⟨front, x, y, back, rfl, rfl, hR⟩ := h
  refine ⟨front, x, y, back ++ zs, ?_, ?_, hR⟩
  · rw [List.append_assoc, List.cons_append]
  · rw [List.append_assoc, List.cons_append]

theorem Replaced.map
    {f : α → β}
    (h : Replaced R xs ys) (hf : ∀ x y, R x y → S (f x) (f y)) :
    Replaced S (xs.map f) (ys.map f) := by
  obtain ⟨front, x, y, back, rfl, rfl, hR⟩ := h
  exact ⟨front.map f, f x, f y, back.map f, by simp, by simp, hf x y hR⟩

theorem Replaced.flatten
    {xss yss : List (List α)}
    (h : Replaced (Replaced R) xss yss) :
    Replaced R xss.flatten yss.flatten := by
  obtain ⟨front, xs, ys, back, rfl, rfl, hR⟩ := h
  rw [List.flatten_append, List.flatten_append, List.flatten_cons, List.flatten_cons]
  exact (hR.append_right _).append_left _

/-- The entry replaced gets the same partner. -/
theorem Replaced.zip_left
    {zs : List β}
    (h : Replaced R xs ys) (hlength : xs.length ≤ zs.length) :
    Replaced (fun a b : β × α => a.1 = b.1 ∧ R a.2 b.2) (zs.zip xs) (zs.zip ys) := by
  obtain ⟨front, x, y, back, rfl, rfl, hR⟩ := h
  rw [List.length_append, List.length_cons] at hlength
  obtain ⟨zfront, zrest, rfl, hzfront⟩ : ∃ zfront zrest, zs = zfront ++ zrest ∧
      zfront.length = front.length :=
    ⟨zs.take front.length, zs.drop front.length, (List.take_append_drop _ _).symm, by
      rw [List.length_take]
      omega⟩
  cases zrest with
  | nil =>
      rw [List.append_nil] at hlength
      omega
  | cons z zback =>
      refine ⟨zfront.zip front, (z, x), (z, y), zback.zip back, ?_, ?_, rfl, hR⟩
      · rw [List.zip_append hzfront, List.zip_cons_cons]
      · rw [List.zip_append hzfront, List.zip_cons_cons]

/-- What corresponds to the two halves of a list are the halves of the other. -/
theorem forall₂_append_left_iff
    {T : α → β → Prop} {front back : List α} {zs : List β} :
    List.Forall₂ T (front ++ back) zs ↔
      ∃ zfront zback, zs = zfront ++ zback ∧
        List.Forall₂ T front zfront ∧ List.Forall₂ T back zback := by
  constructor
  · intro h
    induction front generalizing zs with
    | nil => exact ⟨[], zs, rfl, List.Forall₂.nil, h⟩
    | cons a front ih =>
        rw [List.cons_append, List.forall₂_cons_left_iff] at h
        obtain ⟨z, rest, hz, hrest, rfl⟩ := h
        obtain ⟨zfront, zback, rfl, hfront, hback⟩ := ih hrest
        exact ⟨z :: zfront, zback, rfl, List.Forall₂.cons hz hfront, hback⟩
  · rintro ⟨zfront, zback, rfl, hfront, hback⟩
    exact List.rel_append hfront hback

/-- What corresponds to a list still does at every other place when one entry
and its counterpart are replaced. -/
theorem Replaced.forall₂
    {T : α → β → Prop} {zs : List β}
    (h : Replaced R xs ys) (hxs : List.Forall₂ T xs zs)
    (hR : ∀ x y, R x y → ∀ z, T x z → ∃ w, T y w ∧ S z w) :
    ∃ ws, List.Forall₂ T ys ws ∧ Replaced S zs ws := by
  obtain ⟨front, x, y, back, rfl, rfl, hxy⟩ := h
  obtain ⟨zfront, zrest, rfl, hfront, hrest⟩ := forall₂_append_left_iff.mp hxs
  obtain ⟨z, zback, hz, hback, rfl⟩ := List.forall₂_cons_left_iff.mp hrest
  obtain ⟨w, hw, hzw⟩ := hR x y hxy z hz
  exact ⟨zfront ++ w :: zback,
    forall₂_append_left_iff.mpr ⟨zfront, w :: zback, rfl, hfront, List.Forall₂.cons hw hback⟩,
    zfront, z, w, zback, rfl, rfl, hzw⟩

theorem Replaced.filterMap
    {f : α → Option β}
    (h : Replaced R xs ys)
    (hf : ∀ x y, R x y → ∃ a b, f x = some a ∧ f y = some b ∧ S a b) :
    Replaced S (xs.filterMap f) (ys.filterMap f) := by
  obtain ⟨front, x, y, back, rfl, rfl, hR⟩ := h
  obtain ⟨a, b, ha, hb, hS⟩ := hf x y hR
  refine ⟨front.filterMap f, a, b, back.filterMap f, ?_, ?_, hS⟩
  · rw [List.filterMap_append, List.filterMap_cons_some ha]
  · rw [List.filterMap_append, List.filterMap_cons_some hb]

/-- Sorting by keys puts the new entry where the old one was, if their keys are
the same. -/
theorem Replaced.mergeSort
    {κ : Type*} [LinearOrder κ] {k : α → κ}
    (h : Replaced R xs ys) (hkey : ∀ x ∈ xs, ∀ y ∈ ys, R x y → k x = k y) :
    Replaced R (xs.mergeSort fun a b => decide (k a ≤ k b))
      (ys.mergeSort fun a b => decide (k a ≤ k b)) := by
  obtain ⟨front, x, y, back, rfl, rfl, hR⟩ := h
  have hxy : k x = k y := hkey x (by simp) y (by simp) hR
  -- both lists are sorted as one list of pairs
  let pairs : List (α × α) := front.map (fun a => (a, a)) ++ (x, y) :: back.map fun a => (a, a)
  have hsame : ∀ p ∈ pairs, k p.1 = k p.2 := by
    intro p hp
    simp only [pairs, List.mem_append, List.mem_cons, List.mem_map] at hp
    rcases hp with ⟨a, -, rfl⟩ | rfl | ⟨a, -, rfl⟩
    · rfl
    · exact hxy
    · rfl
  have hfst : (pairs.mergeSort fun p q => decide (k p.1 ≤ k q.1)).map Prod.fst =
      (front ++ x :: back).mergeSort fun a b => decide (k a ≤ k b) := by
    rw [List.map_mergeSort (s := fun a b => decide (k a ≤ k b)) fun _ _ _ _ => rfl]
    simp [pairs, Function.comp_def]
  have hsnd : (pairs.mergeSort fun p q => decide (k p.1 ≤ k q.1)).map Prod.snd =
      (front ++ y :: back).mergeSort fun a b => decide (k a ≤ k b) := by
    rw [List.map_mergeSort (s := fun a b => decide (k a ≤ k b)) fun p hp q hq => by
      rw [hsame p hp, hsame q hq]]
    simp [pairs, Function.comp_def]
  have hperm := List.mergeSort_perm pairs fun p q => decide (k p.1 ≤ k q.1)
  obtain ⟨front', back', hsplit⟩ := List.append_of_mem
    (hperm.mem_iff.mpr (by simp [pairs] : (x, y) ∈ pairs))
  rw [← hfst, ← hsnd, hsplit]
  have hrest : ∀ p ∈ front' ++ back', p.1 = p.2 := by
    rw [hsplit] at hperm
    have hcons : (front' ++ back').Perm
        (front.map (fun a => (a, a)) ++ back.map fun a => (a, a)) :=
      List.Perm.cons_inv (List.perm_middle.symm.trans (hperm.trans List.perm_middle))
    intro p hp
    have hp := hcons.mem_iff.mp hp
    simp only [List.mem_append, List.mem_map] at hp
    rcases hp with ⟨a, -, rfl⟩ | ⟨a, -, rfl⟩
    · rfl
    · rfl
  have hmap : ∀ part : List (α × α), (∀ p ∈ part, p ∈ front' ++ back') →
      part.map Prod.fst = part.map Prod.snd :=
    fun part hpart => List.map_congr_left fun p hp => hrest p (hpart p hp)
  refine ⟨front'.map Prod.fst, x, y, back'.map Prod.fst, by simp, ?_, hR⟩
  rw [hmap front' fun p hp => List.mem_append_left _ hp,
    hmap back' fun p hp => List.mem_append_right _ hp]
  simp

end Replaced

end Matching
end YdbSnippets
