import YdbSnippets.Lists.Sorting

/-!
# Pages behind a cursor

A reader that asks for the first rows behind the key of the last row it has, in
the order of the keys, reads the rows page by page.  Rows that share the key of
the last row of a page are skipped with it.
-/

namespace YdbSnippets
namespace Paging

open Sorting

universe u v

variable {α : Type u} {κ : Type v} [LinearOrder κ] {key : α → κ} {rows : List α}

/-- The rows behind a cursor. -/
def after (key : α → κ) (cursor : κ) (rows : List α) : List α :=
  rows.filter fun a => decide (cursor < key a)

theorem mem_after
    {cursor : κ} {a : α} :
    a ∈ after key cursor rows ↔ a ∈ rows ∧ cursor < key a := by
  unfold after
  rw [List.mem_filter, decide_eq_true_eq]

theorem after_sublist (key : α → κ) (cursor : κ) (rows : List α) :
    (after key cursor rows).Sublist rows :=
  List.filter_sublist

/-- A later cursor is all that counts. -/
theorem after_after
    {cursor later : κ} (h : cursor ≤ later) (rows : List α) :
    after key later (after key cursor rows) = after key later rows := by
  unfold after
  rw [List.filter_filter]
  refine List.filter_congr fun a _ => ?_
  by_cases hlater : later < key a
  · simp [hlater, h.trans_lt hlater]
  · simp [hlater]

theorem after_eq_self
    {cursor : κ} (h : ∀ a ∈ rows, cursor < key a) :
    after key cursor rows = rows :=
  List.filter_eq_self.mpr fun a ha => decide_eq_true (h a ha)

theorem after_eq_nil
    {cursor : κ} (h : ∀ a ∈ rows, key a ≤ cursor) :
    after key cursor rows = [] := by
  refine List.filter_eq_nil_iff.mpr fun a ha => ?_
  rw [decide_eq_true_eq]
  exact (h a ha).not_gt

theorem after_append (key : α → κ) (cursor : κ) (xs ys : List α) :
    after key cursor (xs ++ ys) = after key cursor xs ++ after key cursor ys :=
  List.filter_append xs ys

/-- Behind the last row of a page are rows behind the page. -/
theorem after_last
    {page rest : List α} {last : α}
    (hsorted : Ascending key (page ++ rest)) (hlast : page.getLast? = some last) :
    after key (key last) (page ++ rest) = after key (key last) rest := by
  have hpage : ∀ a ∈ page, key a ≤ key last := by
    obtain ⟨init, rfl⟩ := List.getLast?_eq_some_iff.mp hlast
    have hinit := (List.pairwise_append.mp hsorted).1
    intro a ha
    rcases List.mem_append.mp ha with ha | ha
    · exact (List.pairwise_append.mp hinit).2.2 a ha last (List.mem_singleton.mpr rfl)
    · rw [List.mem_singleton.mp ha]
  rw [after_append, after_eq_nil hpage, List.nil_append]

theorem length_after_le (key : α → κ) (cursor : κ) (rows : List α) :
    (after key cursor rows).length ≤ rows.length :=
  List.length_filter_le _ _

/-- The pages of this many rows that a reader gets. -/
def pages (key : α → κ) (limit : Nat) (rows : List α) : List (List α) :=
  if _h : rows = [] ∨ limit = 0 then []
  else
    match (rows.take limit).getLast? with
    | none => []
    | some last =>
        rows.take limit :: pages key limit (after key (key last) (rows.drop limit))
termination_by rows.length
decreasing_by
  rw [not_or] at _h
  have hle := length_after_le key (key last) (rows.drop limit)
  have hpos := List.length_pos_iff.mpr _h.1
  rw [List.length_drop] at hle
  omega

variable {limit : Nat}

@[simp] theorem pages_nil (key : α → κ) (limit : Nat) :
    pages key limit [] = [] := by
  rw [pages, dif_pos (Or.inl rfl)]

theorem pages_eq
    {last : α}
    (hlimit : 0 < limit) (hlast : (rows.take limit).getLast? = some last) :
    pages key limit rows =
      rows.take limit :: pages key limit (after key (key last) (rows.drop limit)) := by
  have hne : ¬ (rows = [] ∨ limit = 0) := by
    rintro (rfl | hzero)
    · simp at hlast
    · omega
  rw [pages, dif_neg hne]
  split
  · next hnone =>
      rw [hnone] at hlast
      cases hlast
  · next other hother =>
      rw [hother] at hlast
      cases hlast
      rfl

theorem exists_last
    (hlimit : 0 < limit) (hrows : rows ≠ []) :
    ∃ last, (rows.take limit).getLast? = some last := by
  have hne : rows.take limit ≠ [] := by
    rw [ne_eq, List.take_eq_nil_iff]
    rintro (hzero | hnil)
    · omega
    · exact hrows hnil
  exact ⟨_, List.getLast?_eq_some_getLast hne⟩

/-- The reader gets rows of the list, in their order. -/
theorem flatten_pages_sublist (key : α → κ) (limit : Nat) (rows : List α) :
    (pages key limit rows).flatten.Sublist rows := by
  induction hlength : rows.length using Nat.strongRecOn generalizing rows with
  | ind n ih =>
      by_cases hend : rows = [] ∨ limit = 0
      · rw [pages, dif_pos hend]
        exact List.nil_sublist rows
      · obtain ⟨hrows, hlimit⟩ := not_or.mp hend
        have hpos : 0 < limit := Nat.pos_of_ne_zero hlimit
        obtain ⟨last, hlast⟩ := exists_last hpos hrows
        have hless : (after key (key last) (rows.drop limit)).length < n := by
          have hle := length_after_le key (key last) (rows.drop limit)
          have hlen := List.length_pos_iff.mpr hrows
          rw [List.length_drop] at hle
          omega
        rw [pages_eq hpos hlast, List.flatten_cons]
        have hrest := (ih _ hless _ rfl).trans (after_sublist key (key last) (rows.drop limit))
        have hall := (List.Sublist.refl (rows.take limit)).append hrest
        rwa [List.take_append_drop] at hall

/-- No page ends between two rows with one key. -/
def EndsBetweenKeys (key : α → κ) (limit : Nat) (rows : List α) : Prop :=
  ∀ i a b, 0 < i → rows[limit * i - 1]? = some a → rows[limit * i]? = some b → key a ≠ key b

omit [LinearOrder κ] in
theorem endsBetweenKeys_iff_drop
    (hlimit : 0 < limit) :
    EndsBetweenKeys key limit rows ↔
      (∀ a b, rows[limit - 1]? = some a → rows[limit]? = some b → key a ≠ key b) ∧
        EndsBetweenKeys key limit (rows.drop limit) := by
  have hshift : ∀ j, 0 < j → limit * (j + 1) - 1 = limit + (limit * j - 1) ∧
      limit * (j + 1) = limit + limit * j := by
    intro j hj
    have hpos : 0 < limit * j := Nat.mul_pos hlimit hj
    rw [Nat.mul_succ]
    omega
  constructor
  · intro h
    refine ⟨fun a b ha hb => h 1 a b Nat.one_pos (by rwa [Nat.mul_one]) (by rwa [Nat.mul_one]),
      ?_⟩
    intro j a b hj ha hb
    rw [List.getElem?_drop] at ha hb
    obtain ⟨hlast, hfirst⟩ := hshift j hj
    exact h (j + 1) a b (Nat.succ_pos j) (by rwa [hlast]) (by rwa [hfirst])
  · rintro ⟨hfirst, hrest⟩ i a b hi ha hb
    obtain ⟨j, rfl⟩ := Nat.exists_eq_succ_of_ne_zero hi.ne'
    rcases Nat.eq_zero_or_pos j with rfl | hj
    · exact hfirst a b (by simpa using ha) (by simpa using hb)
    · obtain ⟨hlast, hnext⟩ := hshift j hj
      rw [Nat.succ_eq_add_one, hlast] at ha
      rw [Nat.succ_eq_add_one, hnext] at hb
      exact hrest j a b hj (by rwa [List.getElem?_drop]) (by rwa [List.getElem?_drop])

/-- The first row behind a page, unless there is none, stands behind the last of
the page. -/
theorem after_drop_eq_iff
    (hlimit : 0 < limit) (hsorted : Ascending key rows)
    {last : α} (hlast : (rows.take limit).getLast? = some last) :
    after key (key last) (rows.drop limit) = rows.drop limit ↔
      ∀ a b, rows[limit - 1]? = some a → rows[limit]? = some b → key a ≠ key b := by
  have hsplit : Ascending key (rows.take limit ++ rows.drop limit) := by
    rwa [List.take_append_drop]
  obtain ⟨-, hdrop, hcross⟩ := List.pairwise_append.mp hsplit
  have hmem : last ∈ rows.take limit := List.mem_of_getLast? hlast
  have hindex : limit < rows.length → rows[limit - 1]? = some last := by
    intro hlong
    rw [List.getLast?_eq_getElem?, List.length_take_of_le hlong.le,
      List.getElem?_take_of_lt (by omega)] at hlast
    exact hlast
  constructor
  · intro heq a b ha hb
    have hb' : b ∈ rows.drop limit := by
      refine List.mem_of_getElem? (i := 0) ?_
      rwa [List.getElem?_drop]
    obtain ⟨hlong, -⟩ := List.getElem?_eq_some_iff.mp hb
    rw [hindex hlong] at ha
    cases ha
    rw [← heq] at hb'
    exact (mem_after.mp hb').2.ne
  · intro hne
    refine after_eq_self ?_
    cases hrest : rows.drop limit with
    | nil => exact fun a ha => absurd ha List.not_mem_nil
    | cons b rest =>
        rw [hrest] at hdrop hcross
        have hb : rows[limit]? = some b := by
          have hhead := congrArg (·[0]?) hrest
          simpa [List.getElem?_drop] using hhead
        obtain ⟨hlong, -⟩ := List.getElem?_eq_some_iff.mp hb
        have hlt : key last < key b :=
          lt_of_le_of_ne (hcross last hmem b List.mem_cons_self) (hne last b (hindex hlong) hb)
        intro a ha
        rcases List.mem_cons.mp ha with rfl | ha
        · exact hlt
        · exact hlt.trans_le (List.rel_of_pairwise_cons hdrop ha)

/-- A reader gets all rows if and only if no page ends between two rows with one
key. -/
theorem flatten_pages_eq_iff
    (hlimit : 0 < limit) (hsorted : Ascending key rows) :
    (pages key limit rows).flatten = rows ↔ EndsBetweenKeys key limit rows := by
  induction hlength : rows.length using Nat.strongRecOn generalizing rows with
  | ind n ih =>
      by_cases hrows : rows = []
      · subst hrows
        refine iff_of_true (by simp) ?_
        intro i a b _ ha
        simp at ha
      · obtain ⟨last, hlast⟩ := exists_last hlimit hrows
        have hdrop : Ascending key (rows.drop limit) := hsorted.sublist (List.drop_sublist _ _)
        have hless : (rows.drop limit).length < n := by
          have hlen := List.length_pos_iff.mpr hrows
          rw [List.length_drop]
          omega
        have hsub := flatten_pages_sublist key limit (after key (key last) (rows.drop limit))
        have hafter := after_sublist key (key last) (rows.drop limit)
        rw [endsBetweenKeys_iff_drop hlimit, ← after_drop_eq_iff hlimit hsorted hlast,
          ← ih _ hless hdrop rfl, pages_eq hlimit hlast, List.flatten_cons]
        constructor
        · intro h
          conv_rhs at h => rw [← List.take_append_drop limit rows]
          have hrest := List.append_cancel_left h
          have hsame : after key (key last) (rows.drop limit) = rows.drop limit := by
            have hle := hsub.length_le
            rw [hrest] at hle
            exact hafter.eq_of_length (le_antisymm hafter.length_le hle)
          rw [hsame] at hrest
          exact ⟨hsame, hrest⟩
        · rintro ⟨hsame, hrest⟩
          rw [hsame, hrest, List.take_append_drop]

end Paging
end YdbSnippets
