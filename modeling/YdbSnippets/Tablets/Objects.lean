import YdbSnippets.Lists.Sorting
import YdbSnippets.Python.Dict
import YdbSnippets.Python.Numbers
import YdbSnippets.Python.Words
import YdbSnippets.Text.Search

/-!
# Owners of tablets

`tablet_object.py` looks up the scheme object of every tablet named on the
command line.  The lookups run in a thread pool, their rows are collected as
they arrive, and the rows are sorted by the position of their tablet.
-/

namespace YdbSnippets
namespace Tablets

open Python Text Sorting

section Definitions

/-- What one lookup leaves: the path and the type of the object that owns the
tablet, or the text of the exception. -/
structure ObjectRow where
  tabletId : Int
  path : Str
  kind : Str
  error : Str
deriving DecidableEq, Repr

/-- `result_line` -/
def resultLine (tabletId : Int) (path kind error : Str) : Str :=
  if error.isEmpty then printInt tabletId ++ '\t' :: path ++ '\t' :: kind
  else printInt tabletId ++ '\t' :: '\t' :: oneLine error

/-- The line `main` prints for a row. -/
def ObjectRow.line (row : ObjectRow) : Str :=
  let error := if row.error.isEmpty then [] else "ERROR: ".toList ++ row.error
  resultLine row.tabletId row.path row.kind error

/-- `lookup`, where `outcome` is what `resolve_tablet` returned or raised. -/
def lookup (outcome : Except Str (Str × Str)) (tabletId : Int) : ObjectRow :=
  match outcome with
  | .ok (path, kind) => { tabletId, path, kind, error := [] }
  | .error exc => { tabletId, path := [], kind := [], error := exc }

/-- The tablet ids of the command line.  The text of an invalid one ends the
script. -/
def parseTabletIds (py : Interpreter) (args : List Str) : Except Str (List Int) :=
  args.mapM fun raw =>
    match asInt py (some raw) with
    | some tabletId => if tabletId = 0 then .error raw else .ok tabletId
    | none => .error raw

/-- The rows of all lookups in the order of the arguments.  The outcome of a
lookup belongs to the argument, not to the id: two lookups of one tablet may
end differently. -/
def lookups (outcomes : Nat → Except Str (Str × Str)) (tabletIds : List Int) :
    List ObjectRow :=
  tabletIds.zipIdx.map fun (tabletId, index) => lookup (outcomes index) tabletId

/-- `order` -/
def order (tabletIds : List Int) : Dict Int Nat :=
  Dict.ofItems tabletIds.zipIdx

/-- `order[tablet_id]`, for a tablet of the command line. -/
def position (tabletIds : List Int) (tabletId : Int) : Nat :=
  (order tabletIds).getD tabletId 0

/-- The lines `main` prints when the rows arrived as `rows`. -/
def printRows (tabletIds : List Int) (rows : List ObjectRow) : List Str :=
  (sortedBy (fun row => position tabletIds row.tabletId) rows).map ObjectRow.line

/-- `main` once the Hive is known, when the rows arrived as `rows`: the lines
printed and the exit code.  An invalid tablet id ends the script. -/
def main (py : Interpreter) (args : List Str) (rows : List ObjectRow) :
    Except Str (List Str × Nat) := do
  let tabletIds ← parseTabletIds py args
  let errors := rows.countP fun row => !row.error.isEmpty
  return (printRows tabletIds rows, if errors = 0 then 0 else 2)

end Definitions

section Lines

/-- A line shows the id of its tablet. -/
theorem tabletId_of_line
    {row row' : ObjectRow}
    (h : row.line = row'.line) :
    row.tabletId = row'.tabletId := by
  have hsplit : ∀ row : ObjectRow,
      ∃ rest, row.line = printInt row.tabletId ++ '\t' :: rest := by
    intro row
    unfold ObjectRow.line resultLine
    simp only
    split
    · exact ⟨row.path ++ '\t' :: row.kind, by simp⟩
    · exact ⟨_, rfl⟩
  have hnoTab : ∀ n, '\t' ∉ printInt n := by
    intro n hmem
    rcases mem_printInt hmem with h | h
    · cases h
    · cases h
  obtain ⟨rest, hrest⟩ := hsplit row
  obtain ⟨rest', hrest'⟩ := hsplit row'
  rw [hrest, hrest'] at h
  have hids := congrArg (List.takeWhile (· != '\t')) h
  rw [List.takeWhile_append_of_pos, List.takeWhile_append_of_pos] at hids
  · simp only [List.takeWhile_cons, bne_self_eq_false, Bool.false_eq_true, if_false,
      List.append_nil] at hids
    exact printInt_inj.mp hids
  · intro c hc
    exact bne_iff_ne.mpr fun heq => hnoTab _ (heq ▸ hc)
  · intro c hc
    exact bne_iff_ne.mpr fun heq => hnoTab _ (heq ▸ hc)

/-- A row as it is seen: its id and its line. -/
def ObjectRow.shown (row : ObjectRow) : Int × Str :=
  (row.tabletId, row.line)

/-- Rows print the same lines if and only if they look the same. -/
theorem map_line_eq_iff
    {rows rows' : List ObjectRow} :
    rows.map ObjectRow.line = rows'.map ObjectRow.line ↔
      rows.map ObjectRow.shown = rows'.map ObjectRow.shown := by
  constructor
  · intro h
    induction rows generalizing rows' with
    | nil =>
        cases rows' with
        | nil => rfl
        | cons row' rows' => cases h
    | cons row rows ih =>
        cases rows' with
        | nil => cases h
        | cons row' rows' =>
            obtain ⟨hline, hlines⟩ := List.cons.inj h
            have hshown : row.shown = row'.shown :=
              Prod.ext (tabletId_of_line hline) hline
            rw [List.map_cons, List.map_cons, hshown, ih hlines]
  · intro h
    have hlines := congrArg (List.map Prod.snd) h
    rwa [List.map_map, List.map_map] at hlines

end Lines

section Positions

variable {tabletIds : List Int}

/-- The position of an id is that of its last argument. -/
theorem get?_order
    (tabletIds : List Int) (tabletId : Int) :
    (order tabletIds).get? tabletId = lastIndex tabletId tabletIds := by
  unfold order Dict.ofItems
  induction tabletIds using List.reverseRecOn with
  | nil => rfl
  | append_singleton init last ih =>
      rw [List.zipIdx_append, Dict.update_append]
      change ((Dict.update _ _).set last (0 + init.length)).get? tabletId = _
      rw [Dict.get?_set, ih, Nat.zero_add]
      split
      · next heq =>
          rw [heq]
          exact (lastIndex_append_cons last init [] List.not_mem_nil).symm
      · next hne =>
          cases h : lastIndex tabletId init with
          | none =>
              have hnot := (lastIndex_eq_none_iff _ _).mp h
              refine ((lastIndex_eq_none_iff _ _).mpr ?_).symm
              simpa [hne] using hnot
          | some i =>
              obtain ⟨hget, hlast⟩ := lastIndex_eq_some_iff.mp h
              have hlt := (List.getElem?_eq_some_iff.mp hget).1
              refine (lastIndex_eq_some_iff.mpr ⟨?_, ?_⟩).symm
              · rw [List.getElem?_append_left hlt]
                exact hget
              · intro j hj
                rcases Nat.lt_or_ge j init.length with hj' | hj'
                · rw [List.getElem?_append_left hj'] at hj
                  exact hlast j hj
                · rw [List.getElem?_append_right hj'] at hj
                  have hmem := List.mem_of_getElem? hj
                  exact absurd (List.mem_singleton.mp hmem) hne

/-- The last argument with an id stands at the position of the id. -/
theorem position_spec
    {tabletId : Int}
    (h : tabletId ∈ tabletIds) :
    tabletIds[position tabletIds tabletId]? = some tabletId ∧
      ∀ j : Nat, tabletIds[j]? = some tabletId → j ≤ position tabletIds tabletId := by
  unfold position Dict.getD
  rw [get?_order]
  cases hlast : lastIndex tabletId tabletIds with
  | none => exact absurd h ((lastIndex_eq_none_iff _ _).mp hlast)
  | some i => exact lastIndex_eq_some_iff.mp hlast

theorem eq_of_position_eq
    {a b : Int}
    (ha : a ∈ tabletIds) (hb : b ∈ tabletIds)
    (h : position tabletIds a = position tabletIds b) :
    a = b := by
  have hget := (position_spec ha).1
  rw [h, (position_spec hb).1] at hget
  exact (Option.some.inj hget).symm

/-- Between two arguments with the same id stands no other id. -/
def RepeatsAdjacent (tabletIds : List Int) : Prop :=
  ∀ (i j k : Nat) (tabletId : Int), i < j → j < k →
    tabletIds[i]? = some tabletId → tabletIds[k]? = some tabletId →
      tabletIds[j]? = some tabletId

/-- The positions ascend along the arguments if and only if no other id stands
between two arguments with the same id. -/
theorem ascending_position_iff :
    Ascending (position tabletIds) tabletIds ↔ RepeatsAdjacent tabletIds := by
  unfold Ascending
  rw [List.pairwise_iff_getElem]
  constructor
  · intro h i j k tabletId hij hjk hi hk
    obtain ⟨hklt, hkval⟩ := List.getElem?_eq_some_iff.mp hk
    obtain ⟨hilt, hival⟩ := List.getElem?_eq_some_iff.mp hi
    have hjlt : j < tabletIds.length := by omega
    have hfirst := h i j hilt hjlt hij
    have hsecond := h j k hjlt hklt hjk
    rw [hival] at hfirst
    rw [hkval] at hsecond
    have hmem : tabletId ∈ tabletIds := List.mem_of_getElem? hi
    have heq := eq_of_position_eq hmem (List.getElem_mem hjlt) (le_antisymm hfirst hsecond)
    rw [List.getElem?_eq_getElem hjlt, heq]
  · intro h i j hi hj hij
    obtain ⟨hlast, hmax⟩ := position_spec (List.getElem_mem hi)
    obtain ⟨hlast', hmax'⟩ := position_spec (List.getElem_mem hj)
    by_contra hlt
    have hle := hmax' j (List.getElem?_eq_getElem hj)
    -- the first id stands on both sides of the second one
    have hbetween := h i j _ tabletIds[i] hij (by omega) (List.getElem?_eq_getElem hi) hlast
    rw [List.getElem?_eq_getElem hj, Option.some.injEq] at hbetween
    rw [hbetween] at hlt
    exact hlt (le_refl _)

end Positions

section Order

variable {tabletIds : List Int} {outcomes : Nat → Except Str (Str × Str)}
variable {rows : List ObjectRow}

/-- The lines of the rows of one tablet, as the rows arrived. -/
def linesOf (tabletId : Int) (rows : List ObjectRow) : List Str :=
  (rows.filter fun row => decide (row.tabletId = tabletId)).map ObjectRow.line

theorem lookup_tabletId
    (outcome : Except Str (Str × Str)) (tabletId : Int) :
    (lookup outcome tabletId).tabletId = tabletId := by
  cases outcome <;> rfl

theorem map_tabletId_lookups
    (outcomes : Nat → Except Str (Str × Str)) (tabletIds : List Int) :
    (lookups outcomes tabletIds).map ObjectRow.tabletId = tabletIds := by
  unfold lookups
  rw [List.map_map]
  simp [Function.comp_def, lookup_tabletId]

theorem ascending_lookups_iff
    (outcomes : Nat → Except Str (Str × Str)) :
    Ascending (fun row => position tabletIds row.tabletId) (lookups outcomes tabletIds) ↔
      RepeatsAdjacent tabletIds := by
  rw [← ascending_position_iff]
  unfold Ascending
  conv_rhs => arg 2; rw [← map_tabletId_lookups outcomes tabletIds]
  rw [List.pairwise_map]

/-- The rows at the position of an id are the rows with that id. -/
theorem withKey_position
    {tabletId : Int}
    (hid : tabletId ∈ tabletIds)
    (hrows : ∀ row ∈ rows, row.tabletId ∈ tabletIds) :
    withKey (fun row : Int × Str => position tabletIds row.1) (position tabletIds tabletId)
        (rows.map ObjectRow.shown) =
      (rows.filter fun row => decide (row.tabletId = tabletId)).map ObjectRow.shown := by
  unfold withKey
  rw [List.filter_map]
  refine congrArg _ (List.filter_congr ?_)
  intro row hrow
  refine decide_eq_decide.mpr ?_
  constructor
  · exact eq_of_position_eq (hrows row hrow) hid
  · exact congrArg _

/-- Two lists of rows agree at all positions if and only if they agree on the
rows of each tablet. -/
theorem withKey_shown_eq_iff
    {rows' : List ObjectRow}
    (hrows : ∀ row ∈ rows, row.tabletId ∈ tabletIds)
    (hrows' : ∀ row ∈ rows', row.tabletId ∈ tabletIds) :
    (∀ k, withKey (fun row : Int × Str => position tabletIds row.1) k
          (rows.map ObjectRow.shown) =
        withKey (fun row : Int × Str => position tabletIds row.1) k
          (rows'.map ObjectRow.shown)) ↔
      ∀ tabletId, linesOf tabletId rows = linesOf tabletId rows' := by
  have hother : ∀ {rows : List ObjectRow} {tabletId : Int}, tabletId ∉ tabletIds →
      (∀ row ∈ rows, row.tabletId ∈ tabletIds) → linesOf tabletId rows = [] := by
    intro rows tabletId hnot hall
    unfold linesOf
    rw [List.map_eq_nil_iff, List.filter_eq_nil_iff]
    intro row hrow heq
    exact hnot (of_decide_eq_true heq ▸ hall row hrow)
  constructor
  · intro h tabletId
    by_cases hid : tabletId ∈ tabletIds
    · have hk := h (position tabletIds tabletId)
      rw [withKey_position hid hrows, withKey_position hid hrows'] at hk
      exact map_line_eq_iff.mpr hk
    · rw [hother hid hrows, hother hid hrows']
  · intro h k
    by_cases hk : ∃ tabletId ∈ tabletIds, position tabletIds tabletId = k
    · obtain ⟨tabletId, hid, rfl⟩ := hk
      rw [withKey_position hid hrows, withKey_position hid hrows']
      exact map_line_eq_iff.mp (h tabletId)
    · have hnone : ∀ {rows : List ObjectRow}, (∀ row ∈ rows, row.tabletId ∈ tabletIds) →
          withKey (fun row : Int × Str => position tabletIds row.1) k
            (rows.map ObjectRow.shown) = [] := by
        intro rows hall
        refine List.filter_eq_nil_iff.mpr ?_
        intro shown hshown heq
        obtain ⟨row, hrow, rfl⟩ := List.mem_map.mp hshown
        exact hk ⟨row.tabletId, hall row hrow, of_decide_eq_true heq⟩
      rw [hnone hrows, hnone hrows']

/-- The lines come in the order of the arguments if and only if arguments with
the same id are adjacent and the rows of one tablet arrive in the order of its
arguments, as far as their lines show it. -/
theorem printRows_eq_iff
    (hperm : rows.Perm (lookups outcomes tabletIds)) :
    printRows tabletIds rows = (lookups outcomes tabletIds).map ObjectRow.line ↔
      RepeatsAdjacent tabletIds ∧
        ∀ tabletId, linesOf tabletId rows =
          linesOf tabletId (lookups outcomes tabletIds) := by
  have hall : ∀ row ∈ lookups outcomes tabletIds, row.tabletId ∈ tabletIds := by
    intro row hrow
    have hmem := List.mem_map_of_mem (f := ObjectRow.tabletId) hrow
    rwa [map_tabletId_lookups] at hmem
  have hrows : ∀ row ∈ rows, row.tabletId ∈ tabletIds :=
    fun row hrow => hall row (hperm.mem_iff.mp hrow)
  have hsorted : (sortedBy (fun row => position tabletIds row.tabletId) rows).map
        ObjectRow.shown =
      sortedBy (fun shown => position tabletIds shown.1) (rows.map ObjectRow.shown) :=
    map_sortedBy ObjectRow.shown (fun shown => position tabletIds shown.1) rows
  unfold printRows
  rw [map_line_eq_iff, hsorted, sortedBy_eq_iff, withKey_shown_eq_iff hrows hall]
  refine and_congr_left' ?_
  rw [← ascending_lookups_iff outcomes]
  exact List.pairwise_map

/-- The lines of `main`, when the tablet ids are valid. -/
theorem lines_main
    {py : Interpreter} {args : List Str}
    (hargs : parseTabletIds py args = .ok tabletIds)
    (rows : List ObjectRow) :
    (main py args rows).map Prod.fst = .ok (printRows tabletIds rows) := by
  unfold main
  rw [hargs]
  rfl

/-- `main` answers in the order of its arguments if and only if arguments with
the same id are adjacent and the rows of one tablet arrive in the order of its
arguments, as far as their lines show it. -/
theorem main_in_order_iff
    (py : Interpreter)
    (args : List Str)
    (tabletIds : List Int)
    (outcomes : Nat → Except Str (Str × Str))
    (rows : List ObjectRow)
    (hargs : parseTabletIds py args = .ok tabletIds)
    (hperm : rows.Perm (lookups outcomes tabletIds)) :
    (main py args rows).map Prod.fst =
        .ok ((lookups outcomes tabletIds).map ObjectRow.line) ↔
      RepeatsAdjacent tabletIds ∧
        ∀ tabletId, linesOf tabletId rows =
          linesOf tabletId (lookups outcomes tabletIds) := by
  rw [lines_main hargs, Except.ok.injEq]
  exact printRows_eq_iff hperm

/-- Two different tablets, the second one answered first. -/
theorem main_in_order_two :
    (main asciiInterpreter ["5".toList, "7".toList]
        [lookup (.ok ("/a".toList, "TABLE".toList)) 7,
          lookup (.ok ("/a".toList, "TABLE".toList)) 5]).map Prod.fst =
        .ok ((lookups (fun _ => .ok ("/a".toList, "TABLE".toList)) [5, 7]).map
          ObjectRow.line) ↔
      RepeatsAdjacent [5, 7] ∧
        ∀ tabletId, linesOf tabletId
            [lookup (.ok ("/a".toList, "TABLE".toList)) 7,
              lookup (.ok ("/a".toList, "TABLE".toList)) 5] =
          linesOf tabletId (lookups (fun _ => .ok ("/a".toList, "TABLE".toList)) [5, 7]) :=
  main_in_order_iff asciiInterpreter ["5".toList, "7".toList] [5, 7]
    (fun _ => .ok ("/a".toList, "TABLE".toList)) _ (by decide +kernel) (List.Perm.swap _ _ _)

/-- An id that is repeated after another one: whatever the order in which the
lookups finish, the lines are not in the order of the arguments. -/
theorem repeated_tablet_moves :
    ∃ (args : List Str) (tabletIds : List Int) (outcomes : Nat → Except Str (Str × Str)),
      args ≠ [] ∧ parseTabletIds asciiInterpreter args = .ok tabletIds ∧
        ∀ rows : List ObjectRow, rows.Perm (lookups outcomes tabletIds) →
          (main asciiInterpreter args rows).map Prod.fst ≠
            .ok ((lookups outcomes tabletIds).map ObjectRow.line) := by
  have hargs : parseTabletIds asciiInterpreter ["5".toList, "7".toList, "5".toList] =
      .ok [5, 7, 5] := by decide +kernel
  refine ⟨_, _, fun _ => .ok ("/a".toList, "TABLE".toList), List.cons_ne_nil _ _, hargs, ?_⟩
  intro rows hperm h
  rw [lines_main hargs, Except.ok.injEq] at h
  have hadjacent := ((printRows_eq_iff hperm).mp h).1
  have hget := hadjacent 0 1 2 5 (by omega) (by omega) rfl rfl
  cases hget

end Order

end Tablets
end YdbSnippets
