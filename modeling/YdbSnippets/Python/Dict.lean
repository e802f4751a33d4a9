import Mathlib.Data.List.Nodup
import Mathlib.Data.List.Induction

/-!
# Dictionaries in insertion order

A Python `dict` lists its items in the order in which the keys were first
assigned.  Assigning to a key that is already there changes the value and
keeps the place.
-/

namespace YdbSnippets
namespace Python

universe u v w

/-- A dictionary: its items in insertion order, one for each key. -/
structure Dict (κ : Type u) (ν : Type v) where
  items : List (κ × ν)
  nodup : (items.map Prod.fst).Nodup

namespace Dict

variable {κ : Type u} {ν : Type v} {α : Type w}

/-- `d.keys()` -/
def keys (d : Dict κ ν) : List κ :=
  d.items.map Prod.fst

/-- `d.values()` -/
def values (d : Dict κ ν) : List ν :=
  d.items.map Prod.snd

/-- `{}` -/
def empty : Dict κ ν where
  items := []
  nodup := List.nodup_nil

theorem nodup_keys (d : Dict κ ν) : d.keys.Nodup :=
  d.nodup

@[simp] theorem keys_empty : (empty : Dict κ ν).keys = [] := rfl

theorem mem_keys_of_mem_items
    {d : Dict κ ν} {k : κ} {v : ν}
    (h : (k, v) ∈ d.items) :
    k ∈ d.keys :=
  List.mem_map.mpr ⟨(k, v), h, rfl⟩

variable [DecidableEq κ]

/-- The items after `d[k] = v`. -/
def setItems (k : κ) (v : ν) : List (κ × ν) → List (κ × ν)
  | [] => [(k, v)]
  | (k', v') :: rest =>
      if k' = k then (k', v) :: rest else (k', v') :: setItems k v rest

theorem keys_setItems
    (k : κ) (v : ν) (items : List (κ × ν)) :
    (setItems k v items).map Prod.fst =
      if k ∈ items.map Prod.fst then items.map Prod.fst
      else items.map Prod.fst ++ [k] := by
  induction items with
  | nil => rfl
  | cons item rest ih =>
      obtain ⟨k', v'⟩ := item
      unfold setItems
      by_cases hk : k' = k
      · subst hk
        simp
      · simp only [if_neg hk, List.map_cons, List.mem_cons, ih, Ne.symm hk, false_or]
        split
        · rfl
        · rfl

theorem lookup_cons_ite
    [BEq κ] [LawfulBEq κ] (k k' : κ) (v : ν) (items : List (κ × ν)) :
    ((k, v) :: items).lookup k' = if k' = k then some v else items.lookup k' := by
  rw [List.lookup_cons]
  by_cases hk : k' = k
  · simp [hk]
  · simp [beq_false_of_ne hk, hk]

/-- What is looked up after an assignment. -/
theorem lookup_setItems
    [BEq κ] [LawfulBEq κ] (k k' : κ) (v : ν) (items : List (κ × ν)) :
    (setItems k v items).lookup k' = if k' = k then some v else items.lookup k' := by
  induction items with
  | nil => exact lookup_cons_ite k k' v []
  | cons first rest ih =>
      obtain ⟨k₀, v₀⟩ := first
      rw [setItems]
      by_cases hfirst : k₀ = k
      · subst hfirst
        rw [if_pos rfl, lookup_cons_ite, lookup_cons_ite]
        by_cases hk : k' = k₀
        · rw [if_pos hk, if_pos hk]
        · rw [if_neg hk, if_neg hk, if_neg hk]
      · rw [if_neg hfirst, lookup_cons_ite, lookup_cons_ite, ih]
        by_cases hk : k' = k₀
        · rw [if_pos hk, if_neg (hk ▸ hfirst), if_pos hk]
        · rw [if_neg hk, if_neg hk]

/-- A dict comprehension without repeated keys keeps its items. -/
theorem foldl_setItems
    {items before : List (κ × ν)}
    (hnodup : ((before ++ items).map Prod.fst).Nodup) :
    items.foldl (fun d item => setItems item.1 item.2 d) before = before ++ items := by
  have happend : ∀ (d : List (κ × ν)) (item : κ × ν), item.1 ∉ d.map Prod.fst →
      setItems item.1 item.2 d = d ++ [item] := by
    intro d item hnew
    induction d with
    | nil => rfl
    | cons first rest ih =>
        rw [List.map_cons, List.mem_cons, not_or] at hnew
        rw [setItems, if_neg (Ne.symm hnew.1), ih hnew.2, List.cons_append]
  induction items generalizing before with
  | nil => rw [List.foldl_nil, List.append_nil]
  | cons item items ih =>
      have hnew : item.1 ∉ before.map Prod.fst := by
        rw [List.map_append, List.map_cons, List.nodup_middle, List.nodup_cons] at hnodup
        exact fun hmem => hnodup.1 (List.mem_append_left _ hmem)
      rw [List.append_cons] at hnodup
      rw [List.foldl_cons, happend before item hnew, ih hnodup, ← List.append_cons]

/-- `d[k] = v` -/
def set (d : Dict κ ν) (k : κ) (v : ν) : Dict κ ν where
  items := setItems k v d.items
  nodup := by
    rw [keys_setItems]
    split
    · exact d.nodup
    · next hnot =>
        refine List.nodup_append.mpr ⟨d.nodup, List.nodup_singleton k, ?_⟩
        intro a ha b hb hab
        rw [List.mem_singleton.mp hb] at hab
        exact hnot (hab ▸ ha)

/-- `d.get(k)` -/
def get? (d : Dict κ ν) (k : κ) : Option ν :=
  d.items.lookup k

/-- `d.get(k, default)` -/
def getD (d : Dict κ ν) (k : κ) (default : ν) : ν :=
  (d.get? k).getD default

/-- `d.setdefault(k, default)`, and the change made to the slot it returns. -/
def modifyDefault (d : Dict κ ν) (k : κ) (default : ν) (change : ν → ν) : Dict κ ν :=
  d.set k (change (d.getD k default))

/-- `d.update(items)` -/
def update (d : Dict κ ν) (items : List (κ × ν)) : Dict κ ν :=
  items.foldl (fun d item => d.set item.1 item.2) d

/-- `{key: value for …}` -/
def ofItems (items : List (κ × ν)) : Dict κ ν :=
  empty.update items

@[simp] theorem get?_empty (k : κ) : (empty : Dict κ ν).get? k = none := rfl

theorem mem_items_iff
    {d : Dict κ ν} {k : κ} {v : ν} :
    (k, v) ∈ d.items ↔ d.get? k = some v := by
  obtain ⟨items, hnodup⟩ := d
  unfold get?
  induction items with
  | nil => simp
  | cons item rest ih =>
      obtain ⟨k', v'⟩ := item
      simp only [List.map_cons, List.nodup_cons] at hnodup
      have hrest := ih hnodup.2
      simp only [List.mem_cons, Prod.mk.injEq, List.lookup_cons]
      by_cases hk : k = k'
      · subst hk
        have hnot : (k, v) ∉ rest := fun hmem =>
          hnodup.1 (List.mem_map.mpr ⟨(k, v), hmem, rfl⟩)
        simp [hnot, eq_comm]
      · have hbeq : (k == k') = false := beq_eq_false_iff_ne.mpr hk
        simp only [hk, false_and, false_or, hbeq]
        exact hrest

theorem mem_keys_iff
    {d : Dict κ ν} {k : κ} :
    k ∈ d.keys ↔ ∃ v, d.get? k = some v := by
  constructor
  · intro h
    obtain ⟨⟨k', v⟩, hmem, hk⟩ := List.mem_map.mp h
    subst hk
    exact ⟨v, mem_items_iff.mp hmem⟩
  · rintro ⟨v, hv⟩
    exact mem_keys_of_mem_items (mem_items_iff.mpr hv)

/-- What is read after an assignment. -/
@[simp] theorem get?_set
    (d : Dict κ ν) (k k' : κ) (v : ν) :
    (d.set k v).get? k' = if k' = k then some v else d.get? k' :=
  lookup_setItems k k' v d.items

theorem keys_set
    (d : Dict κ ν) (k : κ) (v : ν) :
    (d.set k v).keys = if k ∈ d.keys then d.keys else d.keys ++ [k] :=
  keys_setItems k v d.items

@[simp] theorem mem_keys_set
    {d : Dict κ ν} {k k' : κ} {v : ν} :
    k' ∈ (d.set k v).keys ↔ k' = k ∨ k' ∈ d.keys := by
  rw [mem_keys_iff, mem_keys_iff]
  by_cases hk : k' = k
  · simp [hk]
  · simp [hk]

@[simp] theorem get?_modifyDefault
    (d : Dict κ ν) (k k' : κ) (default : ν) (change : ν → ν) :
    (d.modifyDefault k default change).get? k' =
      if k' = k then some (change (d.getD k default)) else d.get? k' :=
  get?_set d k k' _

/-- The slots of distinct keys are changed once each. -/
theorem get?_foldl_modifyDefault
    (d : Dict κ ν) {keys : List κ} (k : κ) (default : ν) (change : ν → ν)
    (h : keys.Nodup) :
    (keys.foldl (fun d key => d.modifyDefault key default change) d).get? k =
      if k ∈ keys then some (change (d.getD k default)) else d.get? k := by
  induction keys generalizing d with
  | nil => rfl
  | cons key rest ih =>
      obtain ⟨hnot, hrest⟩ := List.nodup_cons.mp h
      rw [List.foldl_cons, ih _ hrest]
      by_cases hk : k = key
      · subst hk
        simp [hnot]
      · simp [hk, getD]

theorem update_cons
    (d : Dict κ ν) (item : κ × ν) (items : List (κ × ν)) :
    d.update (item :: items) = (d.set item.1 item.2).update items := rfl

theorem update_append
    (d : Dict κ ν) (items items' : List (κ × ν)) :
    d.update (items ++ items') = (d.update items).update items' :=
  List.foldl_append

/-- The last item of a key wins. -/
theorem get?_update
    (d : Dict κ ν) (items : List (κ × ν)) (k : κ) :
    (d.update items).get? k = (items.reverse.lookup k).or (d.get? k) := by
  induction items using List.reverseRecOn generalizing d with
  | nil => rfl
  | append_singleton init item ih =>
      rw [update_append, update_cons, List.reverse_append, List.reverse_singleton,
        List.singleton_append, List.lookup_cons]
      change ((d.update init).set item.1 item.2).get? k = _
      rw [get?_set, ih]
      by_cases hk : k = item.1
      · simp [hk]
      · have hbeq : (k == item.1) = false := beq_eq_false_iff_ne.mpr hk
        simp [hk, hbeq]

/-- Whatever is read from a dictionary was put there. -/
theorem mem_of_get?_ofItems
    {items : List (κ × ν)} {k : κ} {v : ν}
    (h : (ofItems items).get? k = some v) :
    (k, v) ∈ items := by
  unfold ofItems at h
  rw [get?_update] at h
  cases hlookup : items.reverse.lookup k with
  | none =>
      rw [hlookup] at h
      cases h
  | some v' =>
      rw [hlookup] at h
      cases h
      obtain ⟨before, after, hsplit, _⟩ := List.lookup_eq_some_iff.mp hlookup
      have hmem : (k, v) ∈ items.reverse := by
        rw [hsplit]
        simp
      exact List.mem_reverse.mp hmem

/-- Every key that was put there is found. -/
theorem exists_get?_ofItems
    {items : List (κ × ν)} {k : κ} {v : ν}
    (h : (k, v) ∈ items) :
    ∃ v', (ofItems items).get? k = some v' := by
  unfold ofItems
  rw [get?_update]
  cases hlookup : items.reverse.lookup k with
  | some v' => exact ⟨v', rfl⟩
  | none =>
      have hne := List.lookup_eq_none_iff.mp hlookup (k, v) (List.mem_reverse.mpr h)
      simp at hne

/-- Items with different keys are all read back. -/
theorem get?_ofItems_of_mem
    {items : List (κ × ν)} {k : κ} {v : ν}
    (hnodup : (items.map Prod.fst).Nodup)
    (h : (k, v) ∈ items) :
    (ofItems items).get? k = some v := by
  unfold ofItems
  rw [get?_update]
  have hreverse : (items.reverse.map Prod.fst).Nodup := by
    rw [List.map_reverse]
    exact List.nodup_reverse.mpr hnodup
  have hread : (⟨items.reverse, hreverse⟩ : Dict κ ν).get? k = some v :=
    mem_items_iff.mp (List.mem_reverse.mpr h)
  unfold get? at hread
  rw [hread]
  rfl

end Dict

end Python
end YdbSnippets
