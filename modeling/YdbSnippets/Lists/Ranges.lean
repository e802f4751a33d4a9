import Mathlib.Algebra.GroupWithZero.Nat
import Mathlib.Data.List.Basic
import Mathlib.Data.List.Count
import Mathlib.Order.Defs.LinearOrder
import Mathlib.Order.Lattice

/-!
# Ranges between bounds

Bounds cut a linear order into ranges, the first without a lower bound and the
last without an upper one.  Elements are counted range by range.
-/

namespace YdbSnippets
namespace Ranges

variable {α : Type*}

section Bounds

/-- The ranges between the bounds, from a lower bound on. -/
def rangesFrom (lower : Option α) : List α → List (Option α × Option α)
  | [] => [(lower, none)]
  | bound :: bounds => (lower, some bound) :: rangesFrom (some bound) bounds

/-- A range without the bounds that are dropped. -/
def keepBounds (keep : α → Option α) (range : Option α × Option α) : Option α × Option α :=
  (range.1.bind keep, range.2.bind keep)

/-- The ranges between the images of the bounds. -/
theorem rangesFrom_map {β : Type*} (f : α → β) (lower : Option α) (bounds : List α) :
    rangesFrom (lower.map f) (bounds.map f) =
      (rangesFrom lower bounds).map fun range => (range.1.map f, range.2.map f) := by
  induction bounds generalizing lower with
  | nil => rfl
  | cons bound bounds ih =>
      rw [List.map_cons, rangesFrom, rangesFrom, List.map_cons, ← ih]
      rfl

@[simp] theorem length_rangesFrom (lower : Option α) (bounds : List α) :
    (rangesFrom lower bounds).length = bounds.length + 1 := by
  induction bounds generalizing lower with
  | nil => rfl
  | cons bound bounds ih => rw [rangesFrom, List.length_cons, ih, List.length_cons]

/-- If none is dropped the ranges stay as they are. -/
theorem map_keepBounds_of_kept
    {keep : α → Option α} {lower : Option α} {bounds : List α}
    (hkept : ∀ b ∈ lower.toList ++ bounds, keep b = some b) :
    (rangesFrom lower bounds).map (keepBounds keep) = rangesFrom lower bounds := by
  induction bounds generalizing lower with
  | nil =>
      cases lower with
      | none => rfl
      | some l => simp [rangesFrom, keepBounds, hkept l (by simp)]
  | cons bound bounds ih =>
      have hbound := hkept bound (by simp)
      have htail := @ih (some bound) fun b hb =>
        hkept b (List.mem_append_right _ (by simpa using hb))
      rw [rangesFrom, List.map_cons, htail]
      cases lower with
      | none => simp [keepBounds, hbound]
      | some l => simp [keepBounds, hbound, hkept l (by simp)]

/-- Of two conditions, one of which implies the other, the stronger holds as often only
if the two agree. -/
theorem countP_eq_iff_of_imp
    {p q : α → Prop} [DecidablePred p] [DecidablePred q] {xs : List α}
    (himp : ∀ x ∈ xs, p x → q x) :
    (xs.countP fun x => p x) = (xs.countP fun x => q x) ↔ ∀ x ∈ xs, q x → p x := by
  induction xs with
  | nil => simp
  | cons x xs ih =>
      have himp' : ∀ y ∈ xs, p y → q y := fun y hy => himp y (List.mem_cons_of_mem _ hy)
      have hle : (xs.countP fun x => p x) ≤ xs.countP fun x => q x :=
        List.countP_mono_left fun y hy hp => by
          simpa using himp' y hy (by simpa using hp)
      have ih := ih himp'
      have hx := himp x List.mem_cons_self
      rw [List.countP_cons, List.countP_cons, List.forall_mem_cons]
      by_cases hp : p x
      · simp [hp, hx hp, ih]
      · by_cases hq : q x
        · simp only [hp, hq, decide_true, decide_false, if_true, Bool.false_eq_true, if_false]
          constructor
          · intro h
            omega
          · rintro ⟨h, _⟩
            exact (h trivial).elim
        · simp [hp, hq, ih]

end Bounds

variable [LinearOrder α]

section Definitions

/-- The elements from the lower bound on and below the upper one; a bound that is
missing does not restrict them. -/
def Within (range : Option α × Option α) (x : α) : Prop :=
  (∀ lower ∈ range.1, lower ≤ x) ∧ (∀ upper ∈ range.2, x < upper)

instance (range : Option α × Option α) : DecidablePred (Within range) :=
  fun _ => inferInstanceAs (Decidable (_ ∧ _))

/-- How many elements are in each range. -/
def counts (ranges : List (Option α × Option α)) (xs : List α) : List Nat :=
  ranges.map fun range => xs.countP fun x => Within range x

/-- No element is in two of the ranges. -/
def NoOverlap (ranges : List (Option α × Option α)) : Prop :=
  ranges.Pairwise fun range other => ∀ x, ¬ (Within range x ∧ Within other x)

/-- Two bounds have the same of these elements below them. -/
def SameBelow (xs : List α) (bound other : α) : Prop :=
  ∀ x ∈ xs, x < bound ↔ x < other

end Definitions

section Cover

@[simp] theorem within_some_none
    {lower x : α} :
    Within (some lower, none) x ↔ lower ≤ x := by
  simp [Within]

@[simp] theorem within_none_some
    {upper x : α} :
    Within (none, some upper) x ↔ x < upper := by
  simp [Within]

@[simp] theorem within_some_some
    {lower upper x : α} :
    Within (some lower, some upper) x ↔ lower ≤ x ∧ x < upper := by
  simp [Within]

theorem Within.lower_le
    {lower x : α} {upper : Option α} (h : Within (some lower, upper) x) :
    lower ≤ x :=
  h.1 lower rfl

/-- The ranges leave out nothing. -/
theorem exists_within
    {lower : Option α} (bounds : List α) {x : α}
    (hlower : ∀ l ∈ lower, l ≤ x) :
    ∃ range ∈ rangesFrom lower bounds, Within range x := by
  induction bounds generalizing lower with
  | nil => exact ⟨_, List.mem_cons_self, hlower, by simp⟩
  | cons bound bounds ih =>
      rcases lt_or_ge x bound with hlt | hge
      · exact ⟨_, List.mem_cons_self, hlower, by simpa using hlt⟩
      · obtain ⟨range, hrange, hwithin⟩ := @ih (some bound) (by simpa using hge)
        exact ⟨range, List.mem_cons_of_mem _ hrange, hwithin⟩

/-- What is in one of the ranges is not below the lower bound. -/
theorem lower_le_of_within
    {lower x : α} {bounds : List α} (hsorted : (lower :: bounds).Pairwise (· < ·))
    {range : Option α × Option α} (hrange : range ∈ rangesFrom (some lower) bounds)
    (hwithin : Within range x) :
    lower ≤ x := by
  induction bounds generalizing lower with
  | nil =>
      rcases List.mem_singleton.mp hrange with rfl
      exact hwithin.lower_le
  | cons bound bounds ih =>
      rcases List.mem_cons.mp hrange with rfl | hrange
      · exact hwithin.lower_le
      · have hlt := (List.pairwise_cons.mp hsorted).1 bound List.mem_cons_self
        exact hlt.le.trans (ih (List.pairwise_cons.mp hsorted).2 hrange)

theorem noOverlap_of_ascending
    {lower : Option α} {bounds : List α} (hsorted : bounds.Pairwise (· < ·)) :
    NoOverlap (rangesFrom lower bounds) := by
  induction bounds generalizing lower with
  | nil => exact List.pairwise_singleton _ _
  | cons bound bounds ih =>
      refine List.pairwise_cons.mpr ⟨?_, ih (List.pairwise_cons.mp hsorted).2⟩
      rintro range hrange x ⟨hhead, htail⟩
      have hle := lower_le_of_within hsorted hrange htail
      exact (hhead.2 bound rfl).not_ge hle

/-- Ranges that are disjoint come from bounds in ascending order. -/
theorem ascending_of_noOverlap
    {lower : Option α} {bounds : List α} (hnodup : bounds.Nodup)
    (hlower : ∀ l ∈ lower, ∀ b ∈ bounds.head?, l < b)
    (h : NoOverlap (rangesFrom lower bounds)) :
    bounds.Pairwise (· < ·) := by
  induction bounds generalizing lower with
  | nil => exact List.Pairwise.nil
  | cons bound bounds ih =>
      obtain ⟨hhead, htail⟩ := List.pairwise_cons.mp h
      cases bounds with
      | nil => exact List.pairwise_singleton _ _
      | cons next bounds =>
          have hne : bound ≠ next := by
            rintro rfl
            exact (List.nodup_cons.mp hnodup).1 List.mem_cons_self
          have hlt : bound < next := by
            refine lt_of_le_of_ne (not_lt.mp ?_) hne
            intro hback
            -- An element from the second bound on and below the first is in two ranges.
            obtain ⟨x, hge, hwithin⟩ : ∃ x, next ≤ x ∧ Within (lower, some bound) x := by
              cases lower with
              | none => exact ⟨next, le_rfl, within_none_some.mpr hback⟩
              | some l =>
                  have hl := hlower l rfl bound rfl
                  exact ⟨max l next, le_max_right _ _,
                    within_some_some.mpr ⟨le_max_left _ _, max_lt hl hback⟩⟩
            have hnext : ∀ l ∈ some next, l ≤ x := by simpa using hge
            obtain ⟨range, hrange, hin⟩ := exists_within bounds hnext
            exact hhead range (List.mem_cons_of_mem _ hrange) x ⟨hwithin, hin⟩
          have hrest := ih (List.nodup_cons.mp hnodup).2 (by simpa using hlt) htail
          refine List.pairwise_cons.mpr ⟨?_, hrest⟩
          intro later hlater
          rcases List.mem_cons.mp hlater with rfl | hlater
          · exact hlt
          · exact hlt.trans ((List.pairwise_cons.mp hrest).1 later hlater)

theorem noOverlap_iff
    {bounds : List α} (hnodup : bounds.Nodup) :
    NoOverlap (rangesFrom none bounds) ↔ bounds.Pairwise (· < ·) :=
  ⟨ascending_of_noOverlap hnodup (by simp), noOverlap_of_ascending⟩

/-- A bound that is dropped is in the range before it and in the one behind it. -/
theorem not_noOverlap_of_dropped
    {keep : α → Option α} (hkeep : ∀ b, ∀ c ∈ keep b, c = b)
    {lower : Option α} {bounds : List α}
    (hsorted : (lower.toList ++ bounds).Pairwise (· < ·))
    {b : α} (hb : b ∈ bounds) (hdropped : keep b = none) :
    ¬ NoOverlap ((rangesFrom lower bounds).map (keepBounds keep)) := by
  induction bounds generalizing lower with
  | nil => cases hb
  | cons bound bounds ih =>
      intro h
      obtain ⟨hhead, htail⟩ := List.pairwise_cons.mp h
      have hrest : (bound :: bounds).Pairwise (· < ·) := (List.pairwise_append.mp hsorted).2.1
      rcases List.mem_cons.mp hb with rfl | hb
      · have hfirst : Within (keepBounds keep (lower, some b)) b := by
          refine ⟨?_, by simp [keepBounds, hdropped]⟩
          intro l hl
          obtain ⟨m, hm, hl⟩ := Option.mem_bind_iff.mp hl
          rw [hkeep m l hl]
          exact ((List.pairwise_append.mp hsorted).2.2 m (by simpa using hm) b
            List.mem_cons_self).le
        cases bounds with
        | nil =>
            refine hhead _ List.mem_cons_self b ⟨hfirst, ?_⟩
            simp [keepBounds, hdropped, Within]
        | cons next bounds =>
            refine hhead _ List.mem_cons_self b ⟨hfirst, by simp [keepBounds, hdropped], ?_⟩
            intro u hu
            rw [hkeep next u (by simpa [keepBounds] using hu)]
            exact (List.pairwise_cons.mp hrest).1 next List.mem_cons_self
      · exact @ih (some bound) hrest hb htail

end Cover

section Counts

/-- Two ranges whose lower bounds have the same elements below them have as many
elements iff their upper bounds have too. -/
theorem countP_within_eq_iff
    {xs : List α} {lower lower' : Option α} {bound bound' : α}
    (hlower : ∀ l ∈ lower, l < bound) (hlower' : ∀ l ∈ lower', l < bound')
    (hsame : ∀ x ∈ xs, (∀ l ∈ lower, l ≤ x) ↔ ∀ l ∈ lower', l ≤ x) :
    (xs.countP fun x => Within (lower, some bound) x) =
        (xs.countP fun x => Within (lower', some bound') x) ↔
      SameBelow xs bound bound' := by
  wlog hle : bound ≤ bound' generalizing lower lower' bound bound'
  · have h := this hlower' hlower (fun x hx => (hsame x hx).symm) (le_of_not_ge hle)
    rw [eq_comm, h]
    exact forall₂_congr fun x hx => Iff.comm
  · have hunder : ∀ x : α, ∀ {l : Option α} {b : α}, (∀ m ∈ l, m < b) →
        ¬ (∀ m ∈ l, m ≤ x) → x < b := by
      intro x l b hl hx
      cases l with
      | none => simp at hx
      | some m => exact (not_le.mp (by simpa using hx)).trans (hl m rfl)
    rw [countP_eq_iff_of_imp]
    · refine forall₂_congr fun x hx => ?_
      constructor
      · intro h
        refine ⟨fun hlt => hlt.trans_le hle, fun hlt => ?_⟩
        by_cases hin : ∀ m ∈ lower, m ≤ x
        · exact (h ⟨(hsame x hx).mp hin, by simpa using hlt⟩).2 bound rfl
        · exact hunder x hlower hin
      · rintro h ⟨hin, hup⟩
        exact ⟨(hsame x hx).mpr hin, by simpa using h.mpr (hup bound' rfl)⟩
    · rintro x hx ⟨hin, hup⟩
      exact ⟨(hsame x hx).mp hin, by simpa using (hup bound rfl).trans_le hle⟩

/-- Two ascending lists of bounds have the same elements in each range iff each bound
has the same elements below it as the other list's. -/
theorem counts_eq_iff
    {xs bounds bounds' : List α} {lower lower' : Option α}
    (hlength : bounds.length = bounds'.length)
    (hsorted : (lower.toList ++ bounds).Pairwise (· < ·))
    (hsorted' : (lower'.toList ++ bounds').Pairwise (· < ·))
    (hsame : ∀ x ∈ xs, (∀ l ∈ lower, l ≤ x) ↔ ∀ l ∈ lower', l ≤ x) :
    counts (rangesFrom lower bounds) xs = counts (rangesFrom lower' bounds') xs ↔
      List.Forall₂ (SameBelow xs) bounds bounds' := by
  induction bounds generalizing lower lower' bounds' with
  | nil =>
      rcases List.length_eq_zero_iff.mp hlength.symm with rfl
      simp only [List.Forall₂.nil, iff_true]
      unfold counts rangesFrom
      refine congrArg (fun n => [n]) (List.countP_congr fun x hx => ?_)
      simpa [Within] using hsame x hx
  | cons bound bounds ih =>
      obtain ⟨bound', bounds', rfl⟩ := List.exists_cons_of_length_eq_add_one hlength.symm
      have hlt : ∀ l ∈ lower, l < bound := fun l hl =>
        (List.pairwise_append.mp hsorted).2.2 l (by simpa using hl) bound List.mem_cons_self
      have hlt' : ∀ l ∈ lower', l < bound' := fun l hl =>
        (List.pairwise_append.mp hsorted').2.2 l (by simpa using hl) bound' List.mem_cons_self
      have hhead := countP_within_eq_iff hlt hlt' hsame
      have htail := fun hbelow : SameBelow xs bound bound' =>
        @ih bounds' (some bound) (some bound') (Nat.succ.inj hlength)
          (List.pairwise_append.mp hsorted).2.1 (List.pairwise_append.mp hsorted').2.1
          (fun x hx => by
            have h := not_congr (hbelow x hx)
            simpa using h)
      have hcounts : counts (rangesFrom lower (bound :: bounds)) xs =
            counts (rangesFrom lower' (bound' :: bounds')) xs ↔
          (xs.countP fun x => Within (lower, some bound) x) =
              (xs.countP fun x => Within (lower', some bound') x) ∧
            counts (rangesFrom (some bound) bounds) xs =
              counts (rangesFrom (some bound') bounds') xs := by
        unfold counts
        rw [rangesFrom, rangesFrom, List.map_cons, List.map_cons, List.cons.injEq]
      rw [hcounts, hhead, List.forall₂_cons]
      exact and_congr_right htail

/-- A bound splits what is behind the lower bound. -/
theorem countP_within_split
    {xs : List α} {lower : Option α} {bound : α}
    (hlower : ∀ l ∈ lower, l < bound) :
    (xs.countP fun x => Within (lower, some bound) x) +
        (xs.countP fun x => Within (some bound, none) x) =
      xs.countP fun x => Within (lower, none) x := by
  induction xs with
  | nil => rfl
  | cons x xs ih =>
      rw [List.countP_cons, List.countP_cons, List.countP_cons, ← ih]
      rcases lt_or_ge x bound with hlt | hge
      · have hnot : ¬ Within (some bound, none) x := by simpa using hlt
        have hsame : Within (lower, some bound) x ↔ Within (lower, none) x := by
          simp [Within, hlt]
        simp only [hnot, hsame, decide_false, Bool.false_eq_true, if_false]
        omega
      · have hin : Within (some bound, none) x := by simpa using hge
        have hnot : ¬ Within (lower, some bound) x := by simp [Within, hge]
        have hout : Within (lower, none) x :=
          ⟨fun l hl => (hlower l hl).le.trans hge, by simp⟩
        simp only [hin, hnot, hout, decide_true, decide_false, Bool.false_eq_true, if_true,
          if_false]
        omega

/-- Over disjoint ranges that leave out nothing the counts add up. -/
theorem sum_counts
    {xs bounds : List α} {lower : Option α}
    (hsorted : (lower.toList ++ bounds).Pairwise (· < ·)) :
    (counts (rangesFrom lower bounds) xs).sum =
      xs.countP fun x => Within (lower, none) x := by
  induction bounds generalizing lower with
  | nil => simp [counts, rangesFrom]
  | cons bound bounds ih =>
      have hlt : ∀ l ∈ lower, l < bound := fun l hl =>
        (List.pairwise_append.mp hsorted).2.2 l (by simpa using hl) bound List.mem_cons_self
      have hrest := @ih (some bound) (List.pairwise_append.mp hsorted).2.1
      have hcons : (counts (rangesFrom lower (bound :: bounds)) xs).sum =
          (xs.countP fun x => Within (lower, some bound) x) +
            (counts (rangesFrom (some bound) bounds) xs).sum := by
        unfold counts
        rw [rangesFrom, List.map_cons, List.sum_cons]
      rw [hcons, hrest, countP_within_split hlt]

end Counts

end Ranges
end YdbSnippets
