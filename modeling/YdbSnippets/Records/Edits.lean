import Mathlib.Data.List.Basic
import Mathlib.Data.List.Nodup

/-!
# Editing keyed records

A collection of records some of which have a key, changed by requests that
remove records and add others.  An edit belongs to one key: it removes the
record of that key, adds one, or both.  Edits of different keys do not
interfere, so a list of them may be applied in one request or in several.
-/

namespace YdbSnippets
namespace Records

/-- An edit of the record with one key. -/
structure Edit (R K : Type) where
  key : K
  removed : Option R
  added : Option R

section Edits

variable {R K : Type} [DecidableEq K]

/-- The records with a key. -/
def named (key : R → Option K) (k : K) (records : List R) : List R :=
  records.filter (fun r => decide (key r = some k))

/-- The records of an edit have its key. -/
structure Edit.WellKeyed (key : R → Option K) (e : Edit R K) : Prop where
  removed : ∀ r ∈ e.removed, key r = some e.key
  added : ∀ r ∈ e.added, key r = some e.key

/-- The edit removes what is there. -/
def Edit.Fits (key : R → Option K) (records : List R) (e : Edit R K) : Prop :=
  named key e.key records = e.removed.toList

/-- Edits that can be applied: well keyed, fitting, and of distinct keys. -/
structure Applicable
    (key : R → Option K) (records : List R) (edits : List (Edit R K)) : Prop where
  wellKeyed : ∀ e ∈ edits, e.WellKeyed key
  fits : ∀ e ∈ edits, e.Fits key records
  distinct : (edits.map Edit.key).Nodup

variable {key : R → Option K} {records : List R} {edits : List (Edit R K)}

theorem named_append
    (k : K) (records records' : List R) :
    named key k (records ++ records') = named key k records ++ named key k records' := by
  simp [named]

theorem mem_named
    {k : K} {r : R} :
    r ∈ named key k records ↔ r ∈ records ∧ key r = some k := by
  simp [named]

/-- The additions of edits have the keys of the edits. -/
theorem named_added_of_notMem
    {k : K}
    (hwell : ∀ e ∈ edits, e.WellKeyed key)
    (hk : k ∉ edits.map Edit.key) :
    named key k (edits.filterMap Edit.added) = [] := by
  rw [named, List.filter_eq_nil_iff]
  intro r hr hkey
  obtain ⟨e, he, hadded⟩ := List.mem_filterMap.mp hr
  have heq := (hwell e he).added r hadded
  rw [of_decide_eq_true hkey, Option.some.injEq] at heq
  exact hk (List.mem_map.mpr ⟨e, he, heq.symm⟩)

/-- The only addition with the key of an edit is its own. -/
theorem named_added_of_mem
    {e : Edit R K}
    (hwell : ∀ e ∈ edits, e.WellKeyed key)
    (hdistinct : (edits.map Edit.key).Nodup)
    (he : e ∈ edits) :
    named key e.key (edits.filterMap Edit.added) = e.added.toList := by
  induction edits with
  | nil => cases he
  | cons first rest ih =>
      obtain ⟨hnew, hrest⟩ := List.nodup_cons.mp hdistinct
      have hwellRest : ∀ e ∈ rest, e.WellKeyed key :=
        fun e he => hwell e (List.mem_cons_of_mem _ he)
      have hsplit : named key e.key ((first :: rest).filterMap Edit.added) =
          named key e.key first.added.toList ++
            named key e.key (rest.filterMap Edit.added) := by
        rw [← named_append]
        cases hadded : first.added <;> simp [hadded]
      rw [hsplit]
      rcases List.mem_cons.mp he with rfl | he
      · rw [named_added_of_notMem hwellRest hnew, List.append_nil]
        cases hadded : e.added with
        | none => rfl
        | some r =>
            have hkey := (hwell e List.mem_cons_self).added r hadded
            simp [named, hkey]
      · have hne : first.key ≠ e.key := by
          intro heq
          exact hnew (List.mem_map.mpr ⟨e, he, heq.symm⟩)
        have hfirst : named key e.key first.added.toList = [] := by
          cases hadded : first.added with
          | none => rfl
          | some r =>
              have hkey := (hwell first List.mem_cons_self).added r hadded
              simp [named, hkey, hne]
        rw [hfirst, List.nil_append]
        exact ih hwellRest hrest he

theorem Applicable.first
    {done todo : List (Edit R K)}
    (h : Applicable key records (done ++ todo)) :
    Applicable key records done := by
  have hdistinct := h.distinct
  rw [List.map_append, List.nodup_append] at hdistinct
  exact ⟨fun e he => h.wellKeyed e (by simp [he]), fun e he => h.fits e (by simp [he]),
    hdistinct.1⟩

/-- Every record removed was there. -/
theorem Applicable.removed_mem
    (h : Applicable key records edits) :
    ∀ r ∈ edits.filterMap Edit.removed, r ∈ records := by
  intro r hr
  obtain ⟨e, he, hremoved⟩ := List.mem_filterMap.mp hr
  have hnamed : r ∈ named key e.key records := by
    rw [h.fits e he, Option.mem_toList]
    exact hremoved
  exact (mem_named.mp hnamed).1

/-- No record added has the key of a record left in place. -/
theorem Applicable.added_ne
    (h : Applicable key records edits) :
    ∀ a ∈ edits.filterMap Edit.added,
      ∀ r ∈ records, r ∉ edits.filterMap Edit.removed → key r ≠ key a := by
  intro a ha r hr hkept hkey
  obtain ⟨e, he, hadded⟩ := List.mem_filterMap.mp ha
  rw [(h.wellKeyed e he).added a hadded] at hkey
  have hnamed : r ∈ named key e.key records := mem_named.mpr ⟨hr, hkey⟩
  rw [h.fits e he, Option.mem_toList] at hnamed
  exact hkept (List.mem_filterMap.mpr ⟨e, he, hnamed⟩)

/-! ## One request -/

variable [DecidableEq R]

/-- The effect of one request. -/
def update (records removals additions : List R) : List R :=
  records.filter (fun r => decide (r ∉ removals)) ++ additions

/-- All edits in one request. -/
def applyEdits (records : List R) (edits : List (Edit R K)) : List R :=
  update records (edits.filterMap Edit.removed) (edits.filterMap Edit.added)

/-- A key without an edit keeps its records. -/
theorem named_applyEdits_of_notMem
    {k : K}
    (hwell : ∀ e ∈ edits, e.WellKeyed key)
    (hk : k ∉ edits.map Edit.key) :
    named key k (applyEdits records edits) = named key k records := by
  unfold applyEdits update
  rw [named_append, named_added_of_notMem hwell hk, List.append_nil]
  unfold named
  rw [List.filter_filter]
  apply List.filter_congr
  intro r _
  by_cases hkey : key r = some k
  · have hkept : r ∉ edits.filterMap Edit.removed := by
      intro hr
      obtain ⟨e, he, hremoved⟩ := List.mem_filterMap.mp hr
      have heq := (hwell e he).removed r hremoved
      rw [hkey, Option.some.injEq] at heq
      exact hk (List.mem_map.mpr ⟨e, he, heq.symm⟩)
    simp only [hkey, decide_true, hkept, not_false_eq_true, Bool.and_self]
  · simp [hkey]

/-- A key with an edit has the record the edit adds, or none. -/
theorem named_applyEdits_of_mem
    {e : Edit R K}
    (h : Applicable key records edits)
    (he : e ∈ edits) :
    named key e.key (applyEdits records edits) = e.added.toList := by
  unfold applyEdits update
  rw [named_append, named_added_of_mem h.wellKeyed h.distinct he]
  have hgone : named key e.key
      (records.filter (fun r => decide (r ∉ edits.filterMap Edit.removed))) = [] := by
    rw [named, List.filter_eq_nil_iff]
    intro r hr hkey
    obtain ⟨hmem, hkept⟩ := List.mem_filter.mp hr
    have hnamed : r ∈ named key e.key records :=
      mem_named.mpr ⟨hmem, of_decide_eq_true hkey⟩
    rw [h.fits e he, Option.mem_toList] at hnamed
    exact of_decide_eq_true hkept (List.mem_filterMap.mpr ⟨e, he, hnamed⟩)
  rw [hgone, List.nil_append]

omit [DecidableEq K] in
/-- Records without a key are never touched. -/
theorem unkeyed_applyEdits
    (hwell : ∀ e ∈ edits, e.WellKeyed key) :
    (applyEdits records edits).filter (fun r => (key r).isNone) =
      records.filter (fun r => (key r).isNone) := by
  unfold applyEdits update
  rw [List.filter_append]
  have hadded : (edits.filterMap Edit.added).filter (fun r => (key r).isNone) = [] := by
    rw [List.filter_eq_nil_iff]
    intro r hr hnone
    obtain ⟨e, he, hmem⟩ := List.mem_filterMap.mp hr
    rw [(hwell e he).added r hmem] at hnone
    cases hnone
  rw [hadded, List.append_nil, List.filter_filter]
  apply List.filter_congr
  intro r _
  cases hkey : key r with
  | some k => simp
  | none =>
      have hkept : r ∉ edits.filterMap Edit.removed := by
        intro hr
        obtain ⟨e, he, hremoved⟩ := List.mem_filterMap.mp hr
        rw [(hwell e he).removed r hremoved] at hkey
        cases hkey
      simp only [Option.isNone_none, hkept, not_false_eq_true, decide_true, Bool.and_self]

/-! ## Several requests -/

/-- One request for each batch of edits. -/
def applyBatches (records : List R) (batches : List (List (Edit R K))) : List R :=
  batches.foldl applyEdits records

/-- After some of the edits were applied the others still can be. -/
theorem Applicable.rest
    {done todo : List (Edit R K)}
    (h : Applicable key records (done ++ todo)) :
    Applicable key (applyEdits records done) todo := by
  have hdistinct := h.distinct
  rw [List.map_append, List.nodup_append] at hdistinct
  refine ⟨fun e he => h.wellKeyed e (by simp [he]), ?_, hdistinct.2.1⟩
  intro e he
  unfold Edit.Fits
  rw [named_applyEdits_of_notMem (fun e he => h.wellKeyed e (by simp [he]))]
  · exact h.fits e (by simp [he])
  · intro hmem
    exact hdistinct.2.2 e.key hmem e.key (List.mem_map_of_mem he) rfl

/-- Two requests, one after the other, are one. -/
theorem Applicable.applyEdits_append
    {done todo : List (Edit R K)}
    (h : Applicable key records (done ++ todo)) :
    applyEdits (applyEdits records done) todo = applyEdits records (done ++ todo) := by
  have hdistinct := h.distinct
  rw [List.map_append, List.nodup_append] at hdistinct
  have hkept : (done.filterMap Edit.added).filter
      (fun r => decide (r ∉ todo.filterMap Edit.removed)) = done.filterMap Edit.added := by
    refine List.filter_eq_self.mpr fun a ha => decide_eq_true fun hremoved => ?_
    obtain ⟨e, he, hadded⟩ := List.mem_filterMap.mp ha
    obtain ⟨e', he', hremoved⟩ := List.mem_filterMap.mp hremoved
    have hkey := (h.wellKeyed e (List.mem_append_left _ he)).added a hadded
    have hkey' := (h.wellKeyed e' (List.mem_append_right _ he')).removed a hremoved
    rw [hkey, Option.some.injEq] at hkey'
    exact hdistinct.2.2 e.key (List.mem_map_of_mem he) e'.key (List.mem_map_of_mem he') hkey'
  unfold applyEdits update
  rw [List.filter_append, hkept, List.filter_filter, List.filterMap_append, List.filterMap_append,
    List.append_assoc]
  congr 1
  refine List.filter_congr fun r _ => ?_
  simp only [List.mem_append, not_or, Bool.decide_and, Bool.and_comm]

/-- Applied in batches, the edits do what they do in one request. -/
theorem Applicable.applyBatches_eq
    {batches : List (List (Edit R K))}
    (h : Applicable key records batches.flatten) :
    applyBatches records batches = applyEdits records batches.flatten := by
  induction batches generalizing records with
  | nil => simp [applyBatches, applyEdits, update]
  | cons batch rest ih =>
      rw [List.flatten_cons] at h ⊢
      calc applyBatches records (batch :: rest)
          = applyBatches (applyEdits records batch) rest := rfl
        _ = applyEdits (applyEdits records batch) rest.flatten := ih h.rest
        _ = applyEdits records (batch ++ rest.flatten) := h.applyEdits_append

/-- Batches leave a key without an edit alone. -/
theorem named_applyBatches_of_notMem
    {batches : List (List (Edit R K))} {k : K}
    (hwell : ∀ e ∈ batches.flatten, e.WellKeyed key)
    (hk : k ∉ batches.flatten.map Edit.key) :
    named key k (applyBatches records batches) = named key k records := by
  induction batches generalizing records with
  | nil => rfl
  | cons batch rest ih =>
      rw [List.flatten_cons] at hwell hk
      rw [List.map_append, List.mem_append, not_or] at hk
      calc named key k (applyBatches records (batch :: rest))
          = named key k (applyBatches (applyEdits records batch) rest) := rfl
        _ = named key k (applyEdits records batch) :=
            ih (fun e he => hwell e (List.mem_append_right _ he)) hk.2
        _ = named key k records :=
            named_applyEdits_of_notMem
              (fun e he => hwell e (List.mem_append_left _ he)) hk.1

/-- Applied in batches, every edit still leaves its key with the record it
adds, or with none. -/
theorem named_applyBatches_of_mem
    {batches : List (List (Edit R K))} {e : Edit R K}
    (h : Applicable key records batches.flatten)
    (he : e ∈ batches.flatten) :
    named key e.key (applyBatches records batches) = e.added.toList := by
  induction batches generalizing records with
  | nil => cases he
  | cons batch rest ih =>
      rw [List.flatten_cons] at h he
      rcases List.mem_append.mp he with hbatch | hlater
      · have hdistinct := h.distinct
        rw [List.map_append, List.nodup_append] at hdistinct
        have hnot : e.key ∉ rest.flatten.map Edit.key := by
          intro hmem
          exact hdistinct.2.2 e.key (List.mem_map_of_mem hbatch) e.key hmem rfl
        calc named key e.key (applyBatches records (batch :: rest))
            = named key e.key (applyBatches (applyEdits records batch) rest) := rfl
          _ = named key e.key (applyEdits records batch) :=
              named_applyBatches_of_notMem
                (fun e he => h.wellKeyed e (List.mem_append_right _ he)) hnot
          _ = e.added.toList := named_applyEdits_of_mem h.first hbatch
      · exact ih h.rest hlater

omit [DecidableEq K] in
theorem unkeyed_applyBatches
    {batches : List (List (Edit R K))}
    (hwell : ∀ e ∈ batches.flatten, e.WellKeyed key) :
    (applyBatches records batches).filter (fun r => (key r).isNone) =
      records.filter (fun r => (key r).isNone) := by
  induction batches generalizing records with
  | nil => rfl
  | cons batch rest ih =>
      rw [List.flatten_cons] at hwell
      calc (applyBatches records (batch :: rest)).filter (fun r => (key r).isNone)
          = (applyBatches (applyEdits records batch) rest).filter
              (fun r => (key r).isNone) := rfl
        _ = (applyEdits records batch).filter (fun r => (key r).isNone) :=
            ih (fun e he => hwell e (List.mem_append_right _ he))
        _ = records.filter (fun r => (key r).isNone) :=
            unkeyed_applyEdits (fun e he => hwell e (List.mem_append_left _ he))

end Edits

end Records
end YdbSnippets
