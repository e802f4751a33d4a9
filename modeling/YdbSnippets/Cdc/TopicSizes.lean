import YdbSnippets.Lists.Matching
import YdbSnippets.Lists.Sorting
import YdbSnippets.Python.Text
import Mathlib.Algebra.BigOperators.Group.List.Basic
import Mathlib.Algebra.GroupWithZero.Nat
import Mathlib.Data.Char
import Mathlib.Data.List.Lex
import Mathlib.Data.List.Perm.Basic

/-!
# Sizes of tables and of their changefeeds

`cdc_topic_sizes.py` describes every row table and every changefeed, and writes one
line with two sizes for each table that has changefeeds.
-/

namespace YdbSnippets
namespace Cdc

open Matching Python Sorting

section Describing

/-- The exceptions of an attempt to describe something.  `session` is raised where the
attempt gets its session, outside the `try`. -/
inductive Failure
  | overloaded
  | unavailable
  | aborted
  | badSession
  | session
  | other
deriving DecidableEq

/-- The exceptions after which `describe_topic` tries again. -/
def Failure.isTransient : Failure → Bool
  | .overloaded | .unavailable | .aborted => true
  | .badSession | .session | .other => false

/-- The exceptions after which `TableDescriber.describe` tries again. -/
def Failure.isRepeated : Failure → Bool
  | .badSession => true
  | e => e.isTransient

variable {α : Type}

/-- The loop over the attempts, from one of them on, with so many left. -/
def describeLoop (again : Failure → Bool) (attempt : Nat → Except Failure α) :
    Nat → Nat → Option α
  | 0, _ => none
  | left + 1, n =>
      match attempt n with
      | .ok description => some description
      | .error e => if again e then describeLoop again attempt left (n + 1) else none

/-- `for _attempt in range(5)`; `none` stands for the exception that is raised. -/
def describe (again : Failure → Bool) (attempt : Nat → Except Failure α) : Option α :=
  describeLoop again attempt 5 0

/-- One of five attempts gives this answer, and every one before it fails with an
exception after which there is another attempt. -/
def Answers (repeated : List Failure) (attempt : Nat → Except Failure α) (answer : α) : Prop :=
  ∃ n < 5, attempt n = .ok answer ∧ ∀ m < n, ∃ e ∈ repeated, attempt m = .error e

/-- The attempts that are left, from the `n`-th one on. -/
theorem describeLoop_eq_some_iff
    {again : Failure → Bool} {repeated : List Failure} (hagain : ∀ e, again e = true ↔ e ∈ repeated)
    {attempt : Nat → Except Failure α} {left n : Nat} {answer : α} :
    describeLoop again attempt left n = some answer ↔
      ∃ k < left, attempt (n + k) = .ok answer ∧
        ∀ m < k, ∃ e ∈ repeated, attempt (n + m) = .error e := by
  induction left generalizing n with
  | zero => simp [describeLoop]
  | succ left ih =>
      rw [describeLoop]
      cases hattempt : attempt n with
      | ok found =>
          constructor
          · intro h
            rcases Option.some.inj h with rfl
            exact ⟨0, Nat.succ_pos left, hattempt, fun m hm => absurd hm (Nat.not_lt_zero m)⟩
          · rintro ⟨k, -, hanswer, hbefore⟩
            rcases Nat.eq_zero_or_pos k with rfl | hk
            · exact congrArg some (Except.ok.inj (hattempt.symm.trans hanswer))
            · obtain ⟨e, -, he⟩ := hbefore 0 hk
              cases hattempt.symm.trans he
      | error e =>
          have hshift : ∀ k, n + 1 + k = n + (k + 1) := fun k => by omega
          dsimp only
          by_cases hrepeated : again e = true
          · rw [if_pos hrepeated, ih]
            simp only [hshift]
            constructor
            · rintro ⟨k, hk, hanswer, hbefore⟩
              refine ⟨k + 1, by omega, hanswer, fun m hm => ?_⟩
              cases m with
              | zero => exact ⟨e, (hagain e).mp hrepeated, hattempt⟩
              | succ m => exact hbefore m (by omega)
            · rintro ⟨k, hk, hanswer, hbefore⟩
              cases k with
              | zero => cases hattempt.symm.trans hanswer
              | succ k =>
                  exact ⟨k, by omega, hanswer, fun m hm => hbefore (m + 1) (by omega)⟩
          · rw [if_neg hrepeated]
            simp only [reduceCtorEq, false_iff, not_exists, not_and]
            intro k hk hanswer hbefore
            cases k with
            | zero => cases hattempt.symm.trans hanswer
            | succ k =>
                obtain ⟨e', he', hfailed⟩ := hbefore 0 (Nat.succ_pos k)
                rcases Except.error.inj (hattempt.symm.trans hfailed) with rfl
                exact hrepeated ((hagain e).mpr he')

theorem describe_eq_some_iff
    {again : Failure → Bool} {repeated : List Failure} (hagain : ∀ e, again e = true ↔ e ∈ repeated)
    {attempt : Nat → Except Failure α} {answer : α} :
    describe again attempt = some answer ↔ Answers repeated attempt answer := by
  rw [describe, describeLoop_eq_some_iff hagain]
  simp only [Nat.zero_add]
  rfl

end Describing

section Definitions

/-- `DescribeTable` with the statistics of the table: its store size, if there are any,
the sizes of its indexes, and its changefeeds. -/
structure TableDescription where
  storeSize : Option Nat
  indexSizes : List Nat
  changefeeds : List Str

/-- The row tables of a database and the answers to the attempts to describe them.
Whatever answer there is names the changefeeds of the table. -/
structure Cluster where
  rowTables : List Str
  nodup : rowTables.Nodup
  changefeeds : Str → List Str
  describeTable : Str → Nat → Except Failure TableDescription
  describeTopic : Str → Nat → Except Failure (Option Nat)
  changefeeds_eq : ∀ path n description, describeTable path n = .ok description →
    description.changefeeds = changefeeds path

/-- A row of the report. -/
structure Row where
  table : Str
  storageBytes : Int
  cdcBytes : Int

/-- `join_path` -/
def joinPath (parent name : Str) : Str :=
  rstrip '/' parent ++ '/' :: name

/-- `relative_table` -/
def relativeTable (database path : Str) : Str :=
  let pre := rstrip '/' database ++ ['/']
  if pre.isPrefixOf path then path.drop pre.length else path

/-- `storage_without_secondary_indexes`, or `none` if it raises. -/
def storageWithoutSecondaryIndexes (description : TableDescription) : Option Nat :=
  match description.storeSize with
  | none => none
  | some total =>
      let indexes := description.indexSizes.sum
      if total < indexes then none else some (total - indexes)

variable (cluster : Cluster)

/-- `TableDescriber.describe` -/
def describedTable (path : Str) : Option TableDescription :=
  describe Failure.isRepeated (cluster.describeTable path)

/-- `load_feed` -/
def loadFeed (table feed : Str) : Option Nat :=
  (describe Failure.isTransient (cluster.describeTopic (joinPath table feed))).bind id

/-- A metric in a row, -1 for one that could not be collected. -/
def cell : Option Nat → Int
  | some bytes => bytes
  | none => -1

/-- A table whose feeds are to be described. -/
structure Job where
  table : Str
  storageBytes : Int
  feeds : List Str

/-- The body of the first loop of `collect`. -/
def jobOf (path : Str) : Option Job :=
  match describedTable cluster path with
  | none => none
  | some description =>
      if description.changefeeds = [] then none
      else some ⟨path, cell (storageWithoutSecondaryIndexes description),
        description.changefeeds⟩

/-- The body of the last loop of `collect`.  The futures share nothing, so that the order
in which the workers run them does not matter. -/
def rowOf (job : Job) : Row :=
  let sizes := job.feeds.map (loadFeed cluster job.table)
  ⟨job.table, job.storageBytes,
    if sizes.any Option.isNone then -1 else ((sizes.filterMap id).sum : Nat)⟩

/-- `collect` -/
def collect : List Row :=
  (cluster.rowTables.filterMap (jobOf cluster)).map (rowOf cluster)

/-- The rows of the CSV file. -/
def csvRows (database : Str) : List Row :=
  (sortedBy (fun row => relativeTable database row.table) (collect cluster)).map
    fun row => { row with table := relativeTable database row.table }

/-- The exit code of `main`. -/
def exitCode : Nat :=
  if (collect cluster).any fun row => row.storageBytes < 0 || row.cdcBytes < 0 then 1 else 0

end Definitions

section Report

variable (cluster : Cluster)

/-- The describe call for the table gives this description. -/
def TableAnswers (path : Str) (description : TableDescription) : Prop :=
  Answers [.overloaded, .unavailable, .aborted, .badSession] (cluster.describeTable path)
    description

/-- The describe call for the topic of a feed gives this size. -/
def FeedAnswers (path feed : Str) (bytes : Nat) : Prop :=
  Answers [.overloaded, .unavailable, .aborted] (cluster.describeTopic (joinPath path feed))
    (some bytes)

/-- The store size of the table is this size and those of all its indexes. -/
def StorageSize (path : Str) (bytes : Nat) : Prop :=
  ∃ description, TableAnswers cluster path description ∧
    description.storeSize = some (bytes + description.indexSizes.sum)

/-- The table is described and so are its feeds, which have this size together. -/
def FeedsSize (path : Str) (bytes : Nat) : Prop :=
  (∃ description, TableAnswers cluster path description) ∧
  ∃ sizes, List.Forall₂ (FeedAnswers cluster path) (cluster.changefeeds path) sizes ∧
    sizes.sum = bytes

/-- The metric is the size, or -1 if there is none. -/
def Shows (size : Nat → Prop) (metric : Int) : Prop :=
  (∃ bytes : Nat, size bytes ∧ metric = bytes) ∨ ((∀ bytes, ¬ size bytes) ∧ metric = -1)

/-- The tables that have a changefeed. -/
def feedTables : List Str :=
  cluster.rowTables.filter fun path => !(cluster.changefeeds path).isEmpty

/-- The row that the report should have for a table. -/
structure IsRowOf (database path : Str) (row : Row) : Prop where
  table : row.table = relativeTable database path
  storage : Shows (StorageSize cluster path) row.storageBytes
  cdc : Shows (FeedsSize cluster path) row.cdcBytes

/-- Every table is described, and of each that has a changefeed the size of its storage
and of each feed is returned. -/
def AllCollected : Prop :=
  (∀ path ∈ cluster.rowTables, ∃ description, TableAnswers cluster path description) ∧
  ∀ path ∈ feedTables cluster, (∃ bytes, StorageSize cluster path bytes) ∧
    ∀ feed ∈ cluster.changefeeds path, ∃ bytes, FeedAnswers cluster path feed bytes

/-- The report has one row for each table with a changefeed, and the exit code tells
whether everything was collected. -/
def HidesNothing (database : Str) : Prop :=
  Matched (fun row path => IsRowOf cluster database path row) (csvRows cluster database)
    (feedTables cluster) ∧
  (exitCode cluster = 0 ↔ AllCollected cluster)

/-- The tables with a changefeed are described; and if another table is not, then a
size of one of them is missing as well. -/
def DescribesFeedTables : Prop :=
  (∀ path ∈ feedTables cluster, ∃ description, TableAnswers cluster path description) ∧
  ((∃ path ∈ cluster.rowTables, ∀ description, ¬ TableAnswers cluster path description) →
    ∃ path ∈ feedTables cluster, (∀ bytes, ¬ StorageSize cluster path bytes) ∨
      ∃ feed ∈ cluster.changefeeds path, ∀ bytes, ¬ FeedAnswers cluster path feed bytes)

end Report

section Answers

variable {cluster : Cluster} {path : Str}

/-- The size of a table without its indexes, as `collect` gets it. -/
def storageOf (cluster : Cluster) (path : Str) : Option Nat :=
  (describedTable cluster path).bind storageWithoutSecondaryIndexes

/-- The size of all feeds of a table, as `collect` gets it. -/
def cdcOf (cluster : Cluster) (path : Str) : Option Nat :=
  (describedTable cluster path).bind fun _ =>
    ((cluster.changefeeds path).mapM (loadFeed cluster path)).map List.sum

theorem describedTable_eq_some_iff
    {description : TableDescription} :
    describedTable cluster path = some description ↔ TableAnswers cluster path description :=
  describe_eq_some_iff fun e => by cases e <;> simp [Failure.isRepeated, Failure.isTransient]

theorem describedTable_ne_none_iff :
    describedTable cluster path ≠ none ↔
      ∃ description, TableAnswers cluster path description := by
  rw [Option.ne_none_iff_exists']
  simp only [describedTable_eq_some_iff]

theorem loadFeed_eq_some_iff
    {feed : Str} {bytes : Nat} :
    loadFeed cluster path feed = some bytes ↔ FeedAnswers cluster path feed bytes := by
  have hagain : ∀ e, Failure.isTransient e = true ↔
      e ∈ [Failure.overloaded, .unavailable, .aborted] :=
    fun e => by cases e <;> simp [Failure.isTransient]
  rw [loadFeed, Option.bind_eq_some_iff, FeedAnswers, ← describe_eq_some_iff hagain]
  simp

theorem storageOf_eq_some_iff
    {bytes : Nat} :
    storageOf cluster path = some bytes ↔ StorageSize cluster path bytes := by
  rw [storageOf, Option.bind_eq_some_iff, StorageSize]
  refine exists_congr fun description => and_congr describedTable_eq_some_iff ?_
  unfold storageWithoutSecondaryIndexes
  cases description.storeSize with
  | none => simp
  | some total =>
      simp only [Option.some.injEq]
      split_ifs with hless
      · simp only [false_iff]
        omega
      · rw [Option.some.injEq]
        omega

theorem mapM_eq_some_iff
    {α β : Type} {f : α → Option β} {xs : List α} {ys : List β} :
    xs.mapM f = some ys ↔ List.Forall₂ (fun x y => f x = some y) xs ys := by
  induction xs generalizing ys with
  | nil => simp [eq_comm]
  | cons x xs ih =>
      rw [List.mapM_cons, List.forall₂_cons_left_iff]
      simp only [Option.bind_eq_bind, Option.bind_eq_some_iff, ih, Option.pure_def,
        Option.some.injEq]
      constructor
      · rintro ⟨y, hy, ys', hys, rfl⟩
        exact ⟨y, ys', hy, hys, rfl⟩
      · rintro ⟨y, ys', hy, hys, rfl⟩
        exact ⟨y, hy, ys', hys, rfl⟩

theorem cdcOf_eq_some_iff
    {bytes : Nat} :
    cdcOf cluster path = some bytes ↔ FeedsSize cluster path bytes := by
  rw [cdcOf, Option.bind_eq_some_iff, FeedsSize]
  simp only [describedTable_eq_some_iff, Option.map_eq_some_iff, mapM_eq_some_iff,
    loadFeed_eq_some_iff, exists_and_right]

/-- The feeds have a size together if each of them has one. -/
theorem exists_feedsSize_iff
    (hdescribed : ∃ description, TableAnswers cluster path description) :
    (∃ bytes, FeedsSize cluster path bytes) ↔
      ∀ feed ∈ cluster.changefeeds path, ∃ bytes, FeedAnswers cluster path feed bytes := by
  constructor
  · rintro ⟨bytes, -, sizes, hsizes, -⟩ feed hfeed
    obtain ⟨size, -, hsize⟩ := exists_of_forall₂_left hsizes hfeed
    exact ⟨size, hsize⟩
  · intro h
    choose! size hsize using h
    refine ⟨_, hdescribed, (cluster.changefeeds path).map size, ?_, rfl⟩
    rw [List.forall₂_map_right_iff]
    exact List.forall₂_same.mpr hsize

theorem shows_iff
    {size : Nat → Prop} {found : Option Nat} (hfound : ∀ bytes, found = some bytes ↔ size bytes)
    {metric : Int} :
    Shows size metric ↔ metric = cell found := by
  simp only [Shows, ← hfound]
  cases found with
  | none => simp [cell]
  | some bytes => simp [cell]

/-- The row of a table, from the sizes that `collect` gets. -/
def expectedRow (cluster : Cluster) (database path : Str) : Row :=
  ⟨relativeTable database path, cell (storageOf cluster path), cell (cdcOf cluster path)⟩

theorem isRowOf_iff
    {database : Str} {row : Row} :
    IsRowOf cluster database path row ↔ row = expectedRow cluster database path := by
  constructor
  · rintro ⟨htable, hstorage, hcdc⟩
    rw [shows_iff fun _ => storageOf_eq_some_iff] at hstorage
    rw [shows_iff fun _ => cdcOf_eq_some_iff] at hcdc
    cases row
    rw [expectedRow, Row.mk.injEq]
    exact ⟨htable, hstorage, hcdc⟩
  · rintro rfl
    exact ⟨rfl, (shows_iff fun _ => storageOf_eq_some_iff).mpr rfl,
      (shows_iff fun _ => cdcOf_eq_some_iff).mpr rfl⟩

theorem matched_rows_iff
    {database : Str} {rows : List Row} {tables : List Str} :
    Matched (fun row path => IsRowOf cluster database path row) rows tables ↔
      rows.Perm (tables.map (expectedRow cluster database)) := by
  have hmap : (rows.map fun row => row).Perm (tables.map (expectedRow cluster database)) ↔
      Matched (fun row path => row = expectedRow cluster database path) rows tables :=
    map_perm_map_iff
  rw [List.map_id'] at hmap
  simp only [isRowOf_iff]
  exact hmap.symm

end Answers

section Rows

variable {cluster : Cluster} {path : Str}

theorem cell_neg_iff
    {metric : Option Nat} :
    cell metric < 0 ↔ metric = none := by
  cases metric with
  | none => simp [cell]
  | some bytes => simp [cell]

/-- The feeds of a description are those of the table. -/
theorem changefeeds_of_described
    {description : TableDescription} (h : describedTable cluster path = some description) :
    description.changefeeds = cluster.changefeeds path := by
  obtain ⟨n, -, hn, -⟩ := describedTable_eq_some_iff.mp h
  exact cluster.changefeeds_eq path n description hn

/-- The sum of the sizes is there if all sizes are. -/
theorem cell_mapM_sum
    {α : Type} (f : α → Option Nat) (xs : List α) :
    cell ((xs.mapM f).map List.sum) =
      if (xs.map f).any Option.isNone then (-1 : Int)
      else (((xs.map f).filterMap id).sum : Nat) := by
  have hall : (xs.map f).any Option.isNone = false →
      xs.mapM f = some ((xs.map f).filterMap id) := by
    induction xs with
    | nil => intro _; rfl
    | cons x xs ih =>
        intro h
        rw [List.map_cons, List.any_cons, Bool.or_eq_false_iff] at h
        rw [List.mapM_cons, ih h.2, List.map_cons]
        cases hx : f x with
        | none =>
            rw [hx] at h
            cases h.1
        | some n => rfl
  have hsome : (xs.map f).any Option.isNone = true → xs.mapM f = none := by
    clear hall
    induction xs with
    | nil => intro h; cases h
    | cons x xs ih =>
        intro h
        rw [List.map_cons, List.any_cons, Bool.or_eq_true] at h
        rw [List.mapM_cons]
        cases hx : f x with
        | none => rfl
        | some n =>
            rw [hx] at h
            rw [ih (h.resolve_left (by simp))]
            rfl
  cases hany : (xs.map f).any Option.isNone with
  | false =>
      rw [hall hany, if_neg Bool.false_ne_true]
      rfl
  | true =>
      rw [hsome hany, if_pos rfl]
      rfl

/-- The row of a table, before its path is shortened. -/
def plainRow (cluster : Cluster) (path : Str) : Row :=
  ⟨path, cell (storageOf cluster path), cell (cdcOf cluster path)⟩

/-- A table gives a row if it is described and has a changefeed. -/
theorem map_rowOf_jobOf :
    (jobOf cluster path).map (rowOf cluster) =
      if (describedTable cluster path).isSome && !(cluster.changefeeds path).isEmpty then
        some (plainRow cluster path)
      else none := by
  unfold jobOf
  cases hdescribed : describedTable cluster path with
  | none => rfl
  | some description =>
      have hfeeds := changefeeds_of_described hdescribed
      simp only [hfeeds]
      by_cases hempty : cluster.changefeeds path = []
      · simp [hempty]
      · have hstorage : storageOf cluster path = storageWithoutSecondaryIndexes description := by
          rw [storageOf, hdescribed]
          rfl
        have hcdc : cdcOf cluster path =
            ((cluster.changefeeds path).mapM (loadFeed cluster path)).map List.sum := by
          rw [cdcOf, hdescribed]
          rfl
        rw [if_neg hempty, Option.map_some, if_pos (by simpa using hempty), plainRow, hstorage,
          hcdc, cell_mapM_sum]
        rfl

/-- The tables that give a row. -/
def reportedTables (cluster : Cluster) : List Str :=
  (feedTables cluster).filter fun path => (describedTable cluster path).isSome

theorem collect_eq (cluster : Cluster) :
    collect cluster = (reportedTables cluster).map (plainRow cluster) := by
  unfold collect reportedTables feedTables
  rw [List.map_filterMap, List.filter_filter, ← List.filterMap_eq_map, List.filterMap_filter]
  refine List.filterMap_congr fun path _ => ?_
  exact map_rowOf_jobOf

theorem csvRows_perm (cluster : Cluster) (database : Str) :
    (csvRows cluster database).Perm
      ((reportedTables cluster).map (expectedRow cluster database)) := by
  unfold csvRows
  refine ((sortedBy_perm _ _).map _).trans ?_
  rw [collect_eq, List.map_map]
  exact List.Perm.refl _

/-- If the rows are those that are expected no table with a changefeed is left out. -/
theorem described_of_perm
    {database : Str}
    (h : (csvRows cluster database).Perm
      ((feedTables cluster).map (expectedRow cluster database))) :
    ∀ path ∈ feedTables cluster, describedTable cluster path ≠ none := by
  have hlength := ((csvRows_perm cluster database).symm.trans h).length_eq
  rw [List.length_map, List.length_map, reportedTables, List.length_filter_eq_length_iff]
    at hlength
  intro path hpath hnone
  have hsome := hlength path hpath
  rw [hnone] at hsome
  cases hsome

theorem reportedTables_eq
    (h : ∀ path ∈ feedTables cluster, describedTable cluster path ≠ none) :
    reportedTables cluster = feedTables cluster :=
  List.filter_eq_self.mpr fun path hpath => Option.isSome_iff_ne_none.mpr (h path hpath)

theorem exitCode_eq_zero_iff (cluster : Cluster) :
    exitCode cluster = 0 ↔
      ∀ path ∈ reportedTables cluster,
        storageOf cluster path ≠ none ∧ cdcOf cluster path ≠ none := by
  unfold exitCode
  rw [collect_eq, List.any_map]
  cases hany : (reportedTables cluster).any
      ((fun row : Row => decide (row.storageBytes < 0) || decide (row.cdcBytes < 0)) ∘
        plainRow cluster) with
  | true =>
      obtain ⟨path, hpath, hneg⟩ := List.any_eq_true.mp hany
      simp only [Function.comp_apply, plainRow, Bool.or_eq_true, decide_eq_true_eq,
        cell_neg_iff] at hneg
      simp only [if_true, Nat.one_ne_zero, false_iff]
      intro h
      exact hneg.elim (h path hpath).1 (h path hpath).2
  | false =>
      simp only [Bool.false_eq_true, if_false, true_iff]
      intro path hpath
      have hneg := List.any_eq_false.mp hany path hpath
      simpa only [Function.comp_apply, plainRow, Bool.or_eq_true, decide_eq_true_eq,
        cell_neg_iff, not_or] using hneg

end Rows

section HidesNothing

variable {cluster : Cluster}

theorem allCollected_iff
    (hdescribed : ∀ path ∈ feedTables cluster, describedTable cluster path ≠ none) :
    AllCollected cluster ↔
      (∀ path ∈ cluster.rowTables, describedTable cluster path ≠ none) ∧
        ∀ path ∈ feedTables cluster, storageOf cluster path ≠ none ∧ cdcOf cluster path ≠ none := by
  unfold AllCollected
  refine and_congr (forall₂_congr fun path _ => describedTable_ne_none_iff.symm)
    (forall₂_congr fun path hpath => and_congr ?_ ?_)
  · rw [Option.ne_none_iff_exists']
    simp only [storageOf_eq_some_iff]
  · rw [Option.ne_none_iff_exists']
    simp only [cdcOf_eq_some_iff]
    exact (exists_feedsSize_iff (describedTable_ne_none_iff.mp (hdescribed path hpath))).symm

theorem describesFeedTables_iff :
    DescribesFeedTables cluster ↔
      (∀ path ∈ feedTables cluster, describedTable cluster path ≠ none) ∧
      ((∃ path ∈ cluster.rowTables, describedTable cluster path = none) →
        ∃ path ∈ feedTables cluster,
          storageOf cluster path = none ∨ cdcOf cluster path = none) := by
  have hnone : ∀ path, describedTable cluster path = none ↔
      ∀ description, ¬ TableAnswers cluster path description := by
    intro path
    rw [← not_exists, ← describedTable_ne_none_iff, not_ne_iff]
  unfold DescribesFeedTables
  simp only [← describedTable_ne_none_iff, ← hnone]
  refine and_congr_right fun hdescribed => imp_congr_right fun _ => ?_
  refine exists_congr fun path => and_congr_right fun hpath => or_congr ?_ ?_
  · simp only [Option.eq_none_iff_forall_ne_some, ne_eq, storageOf_eq_some_iff]
  · have hfeeds := exists_feedsSize_iff (describedTable_ne_none_iff.mp (hdescribed path hpath))
    simp only [Option.eq_none_iff_forall_ne_some, ne_eq, cdcOf_eq_some_iff, ← not_exists]
    rw [hfeeds]
    push Not
    rfl

/-- The report hides nothing iff every table with a changefeed is described, and if no
other table fails to be described alone. -/
theorem hides_nothing_iff
    (cluster : Cluster)
    (database : Str) :
    HidesNothing cluster database ↔ DescribesFeedTables cluster := by
  have hexit : ∀ hdescribed : ∀ path ∈ feedTables cluster, describedTable cluster path ≠ none,
      (exitCode cluster = 0 ↔ AllCollected cluster) ↔
        ((∃ path ∈ cluster.rowTables, describedTable cluster path = none) →
          ∃ path ∈ feedTables cluster,
            storageOf cluster path = none ∨ cdcOf cluster path = none) := by
    intro hdescribed
    rw [exitCode_eq_zero_iff, reportedTables_eq hdescribed, allCollected_iff hdescribed]
    constructor
    · rintro h ⟨path, hpath, hnone⟩
      by_contra hnot
      push Not at hnot
      exact (h.mp hnot).1 path hpath hnone
    · intro h
      refine ⟨fun hall => ⟨fun path hpath hnone => ?_, hall⟩, And.right⟩
      obtain ⟨other, hother, hmissing⟩ := h ⟨path, hpath, hnone⟩
      exact hmissing.elim (hall other hother).1 (hall other hother).2
  rw [describesFeedTables_iff, HidesNothing, matched_rows_iff]
  constructor
  · rintro ⟨hrows, hcode⟩
    have hdescribed := described_of_perm hrows
    exact ⟨hdescribed, (hexit hdescribed).mp hcode⟩
  · rintro ⟨hdescribed, hother⟩
    refine ⟨?_, (hexit hdescribed).mpr hother⟩
    rw [← reportedTables_eq hdescribed]
    exact csvRows_perm cluster database

/-- A table with a changefeed that cannot be described. -/
def deniedCluster : Cluster where
  rowTables := ["/local/orders".toList]
  nodup := List.nodup_singleton _
  changefeeds _ := ["feed".toList]
  describeTable _ _ := .error .other
  describeTopic _ _ := .ok (some 1)
  changefeeds_eq _ _ _ h := by cases h

/-- Its row is missing, and the exit code is 0. -/
theorem not_hides_nothing_denied :
    csvRows deniedCluster "/local".toList = [] ∧
    exitCode deniedCluster = 0 ∧
    ¬ HidesNothing deniedCluster "/local".toList := by
  have hnone : reportedTables deniedCluster = [] := rfl
  have hrows := csvRows_perm deniedCluster "/local".toList
  rw [hnone] at hrows
  refine ⟨hrows.eq_nil, rfl, ?_⟩
  rintro ⟨hrows, -⟩
  exact described_of_perm (matched_rows_iff.mp hrows) "/local/orders".toList List.mem_cons_self rfl

end HidesNothing

end Cdc
end YdbSnippets
