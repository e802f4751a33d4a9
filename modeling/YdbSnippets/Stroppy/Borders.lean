import YdbSnippets.Lists.Paging
import YdbSnippets.Python.Bytes
import Mathlib.Data.List.Perm.Subperm

/-!
# Borders of the account table

`stroppy-account-builder.py`: the accounts are read page by page in the order of
their bic, and a bic becomes a border when enough accounts are counted.
-/

namespace YdbSnippets
namespace Stroppy

open Paging Python Sorting

section Definitions

/-- A row of `stroppy/account`; the columns of its key may be NULL. -/
structure Account where
  bic : Option Bytes
  ban : Option Bytes
deriving DecidableEq

/-- The bic as a column of the order, where NULL comes first. -/
def Account.bicKey (row : Account) : Bytes :=
  row.bic.getD []

/-- `bic > $bic`, which is not true of NULL. -/
def isBehind (cursor : Bytes) (row : Account) : Bool :=
  match row.bic with
  | none => false
  | some bic => decide (cursor < bic)

/-- The variables of `makeBorders`, and the rows that were counted. -/
structure State where
  prevBicStr : String
  curBic : Bytes
  curCount : Nat
  retval : List String
  counted : List Account

/-- What a query can fail with. -/
inductive YdbError
  | aborted
  | badSession
  | overloaded
  | undetermined
  | unavailable
deriving DecidableEq

/-- What `callee` can raise. -/
inductive CalleeError
  | ydb (e : YdbError)
  | unicodeDecodeError
deriving DecidableEq

/-- The body of the loop over the rows of a page. -/
def countRow (partitionSize : Int) (s : State) (row : Account) : Except CalleeError State :=
  let s := { s with
    curBic := row.bicKey
    curCount := s.curCount + 1
    counted := s.counted ++ [row] }
  if partitionSize ≤ s.curCount then
    match decodeUtf8 s.curBic with
    | none => .error .unicodeDecodeError
    | some curBicStr =>
        if curBicStr ≠ s.prevBicStr then
          .ok { s with
            prevBicStr := curBicStr
            retval := s.retval ++ [curBicStr]
            curCount := 0 }
        else .ok s
  else .ok s

/-- `callee`, from what its query answers. -/
def callee (partitionSize : Int) (answer : Except YdbError (List Account)) (s : State) :
    Except CalleeError (State × Bool) :=
  match answer with
  | .error e => .error (.ydb e)
  | .ok [] => .ok (s, false)
  | .ok (row :: rows) => do
      let s ← (row :: rows).foldlM (countRow partitionSize) s
      return (s, true)

/-- `retry_operation_sync`: a failed query is retried while there are attempts. -/
def retryOperationSync
    (operation : Except YdbError (List Account) → State → Except CalleeError (State × Bool)) :
    List (Except YdbError (List Account)) → State → Except CalleeError (State × Bool)
  | [], _ => .error (.ydb .unavailable)
  | [answer], s => operation answer s
  | answer :: rest, s =>
      match operation answer s with
      | .error (.ydb _) => retryOperationSync operation rest s
      | result => result

/-- The limit of the query. -/
def pageLimit : Nat := 500

/-- The answers to the attempts of a query with a cursor, by the number of the
query. -/
abbrev Server := Nat → Bytes → List (Except YdbError (List Account))

/-- The loop of `makeBorders`, or `none` if it is still running after this many
turns. -/
def makeBordersLoop (partitionSize : Int) (server : Server) :
    Nat → Nat → State → Option (Except CalleeError State)
  | 0, _, _ => none
  | fuel + 1, turn, s =>
      match retryOperationSync (callee partitionSize) (server turn s.curBic) s with
      | .error e => some (.error e)
      | .ok (s, false) => some (.ok s)
      | .ok (s, true) => makeBordersLoop partitionSize server fuel (turn + 1) s

/-- The variables before the loop. -/
def State.start : State where
  prevBicStr := ""
  curBic := utf8Bytes ""
  curCount := 0
  retval := []
  counted := []

/-- `makeBorders` -/
def makeBorders (partitionSize : Int) (server : Server) (fuel : Nat) :
    Option (Except CalleeError State) :=
  makeBordersLoop partitionSize server fuel 0 .start

/-- `SELECT bic FROM ... WHERE bic > $bic ORDER BY bic LIMIT $limit`; rows with one
bic come in any order. -/
def IsPage (table : List Account) (cursor : Bytes) (page : List Account) : Prop :=
  ∃ ordered : List Account,
    ordered.Perm (table.filter (isBehind cursor)) ∧
    Ascending Account.bicKey ordered ∧
    page = ordered.take pageLimit

/-- The database answers from the table, after any number of attempts that fail. -/
def Serves (table : List Account) (server : Server) : Prop :=
  ∀ turn cursor, ∃ (failed : List YdbError) (page : List Account),
    server turn cursor = failed.map Except.error ++ [.ok page] ∧ IsPage table cursor page

end Definitions

section Rows

variable {partitionSize : Int}

/-- The bics that become borders, from the count and the last border. -/
def borderBics (partitionSize : Int) : Nat → Bytes → List Bytes → List Bytes
  | _, _, [] => []
  | count, prev, bic :: rest =>
      if partitionSize ≤ (count + 1 : Nat) ∧ bic ≠ prev then
        bic :: borderBics partitionSize 0 bic rest
      else borderBics partitionSize (count + 1) prev rest

/-- What counting a row does: it makes the bic a border, or counts only, or the bic
of a border is no text. -/
theorem countRow_cases (partitionSize : Int) (s : State) (row : Account) :
    (partitionSize ≤ (s.curCount + 1 : Nat) ∧ row.bicKey ≠ utf8Bytes s.prevBicStr ∧
      ((decodeUtf8 row.bicKey = none ∧
          countRow partitionSize s row = .error .unicodeDecodeError) ∨
        ∃ border, decodeUtf8 row.bicKey = some border ∧
          countRow partitionSize s row = .ok {
            prevBicStr := border
            curBic := row.bicKey
            curCount := 0
            retval := s.retval ++ [border]
            counted := s.counted ++ [row] })) ∨
    (¬ (partitionSize ≤ (s.curCount + 1 : Nat) ∧ row.bicKey ≠ utf8Bytes s.prevBicStr) ∧
      countRow partitionSize s row = .ok { s with
        curBic := row.bicKey
        curCount := s.curCount + 1
        counted := s.counted ++ [row] }) := by
  unfold countRow
  dsimp only
  by_cases hsize : partitionSize ≤ (s.curCount + 1 : Nat)
  · rw [if_pos hsize]
    cases hdecode : decodeUtf8 row.bicKey with
    | none =>
        refine Or.inl ⟨hsize, ?_, Or.inl ⟨rfl, rfl⟩⟩
        intro heq
        rw [heq, decodeUtf8_utf8Bytes] at hdecode
        cases hdecode
    | some border =>
        have hborder := utf8Bytes_of_decodeUtf8 hdecode
        by_cases hsame : border = s.prevBicStr
        · refine Or.inr ⟨?_, by simp [hsame]⟩
          rintro ⟨-, hne⟩
          exact hne (hsame ▸ hborder.symm)
        · refine Or.inl ⟨hsize, ?_, Or.inr ⟨border, rfl, by simp [hsame]⟩⟩
          intro heq
          rw [heq, decodeUtf8_utf8Bytes] at hdecode
          exact hsame (Option.some.inj hdecode).symm
  · rw [if_neg hsize]
    exact Or.inr ⟨fun h => hsize h.1, rfl⟩

/-- Counting rows: it goes well when the bics of the borders are texts, and makes
them borders. -/
theorem countRows_spec (partitionSize : Int) (s : State) (rows : List Account) :
    (∃ s', rows.foldlM (countRow partitionSize) s = .ok s' ∧
      s'.counted = s.counted ++ rows ∧
      s'.curBic = (rows.map Account.bicKey).getLastD s.curBic ∧
      s'.retval.map utf8Bytes = s.retval.map utf8Bytes ++
        borderBics partitionSize s.curCount (utf8Bytes s.prevBicStr)
          (rows.map Account.bicKey) ∧
      ∀ bic ∈ borderBics partitionSize s.curCount (utf8Bytes s.prevBicStr)
        (rows.map Account.bicKey), (decodeUtf8 bic).isSome) ∨
    (rows.foldlM (countRow partitionSize) s = .error .unicodeDecodeError ∧
      ∃ bic ∈ borderBics partitionSize s.curCount (utf8Bytes s.prevBicStr)
        (rows.map Account.bicKey), decodeUtf8 bic = none) := by
  induction rows generalizing s with
  | nil => exact Or.inl ⟨s, rfl, by simp, rfl, by simp [borderBics], by simp [borderBics]⟩
  | cons row rows ih =>
      rw [List.foldlM_cons, List.map_cons, borderBics]
      rcases countRow_cases partitionSize s row with
        ⟨hsize, hne, ⟨hnone, hcount⟩ | ⟨border, hborder, hcount⟩⟩ | ⟨hkeep, hcount⟩
      · right
        rw [hcount, if_pos ⟨hsize, hne⟩]
        exact ⟨rfl, row.bicKey, List.mem_cons_self, hnone⟩
      · have hbytes := utf8Bytes_of_decodeUtf8 hborder
        rw [hcount, if_pos ⟨hsize, hne⟩]
        have hrec := ih {
          prevBicStr := border
          curBic := row.bicKey
          curCount := 0
          retval := s.retval ++ [border]
          counted := s.counted ++ [row] }
        rw [hbytes] at hrec
        rcases hrec with ⟨s', hok, hcounted, hcur, hretval, htext⟩ | ⟨herror, bic, hbic, hnone⟩
        · refine Or.inl ⟨s', hok, ?_, ?_, ?_, ?_⟩
          · rw [hcounted, List.append_assoc, List.singleton_append]
          · rw [hcur, List.getLastD_cons]
          · rw [hretval, List.map_append, List.append_assoc, List.map_singleton, hbytes,
              List.singleton_append]
          · exact List.forall_mem_cons.mpr ⟨by simp [hborder], htext⟩
        · exact Or.inr ⟨herror, bic, List.mem_cons_of_mem _ hbic, hnone⟩
      · rw [hcount, if_neg hkeep]
        have hrec := ih { s with
          curBic := row.bicKey
          curCount := s.curCount + 1
          counted := s.counted ++ [row] }
        rcases hrec with ⟨s', hok, hcounted, hcur, hretval, htext⟩ | ⟨herror, hbad⟩
        · refine Or.inl ⟨s', hok, ?_, ?_, hretval, htext⟩
          · rw [hcounted, List.append_assoc, List.singleton_append]
          · rw [hcur, List.getLastD_cons]
        · exact Or.inr ⟨herror, hbad⟩

end Rows

section Runs

variable {table : List Account} {server : Server} {partitionSize : Int}

theorem isBehind_iff
    {cursor : Bytes} {row : Account} :
    isBehind cursor row = true ↔ cursor < row.bicKey := by
  unfold isBehind Account.bicKey
  cases row.bic with
  | none => simp
  | some bic => simp

/-- The rows that a query asks for are those behind the cursor. -/
theorem filter_isBehind (cursor : Bytes) (rows : List Account) :
    rows.filter (isBehind cursor) = after Account.bicKey cursor rows := by
  refine List.filter_congr fun row _ => ?_
  rw [Bool.eq_iff_iff, isBehind_iff]
  by_cases h : cursor < row.bicKey
  · simp [h]
  · simp [h]

theorem callee_of_page
    {page : List Account} (hpage : page ≠ []) (s : State) :
    callee partitionSize (.ok page) s =
      (page.foldlM (countRow partitionSize) s).map fun s => (s, true) := by
  obtain ⟨row, rows, rfl⟩ := List.exists_cons_of_ne_nil hpage
  rw [callee]
  cases (row :: rows).foldlM (countRow partitionSize) s with
  | error e => rfl
  | ok s' => rfl

/-- Failed attempts leave everything as it was. -/
theorem retryOperationSync_callee
    (failed : List YdbError) (page : List Account) (s : State) :
    retryOperationSync (callee partitionSize) (failed.map Except.error ++ [.ok page]) s =
      callee partitionSize (.ok page) s := by
  induction failed with
  | nil => rfl
  | cons e failed ih =>
      cases hrest : failed.map Except.error ++ [Except.ok page] with
      | nil => simp at hrest
      | cons answer rest =>
          rw [hrest] at ih
          rw [List.map_cons, List.cons_append, hrest, retryOperationSync, callee]
          · exact ih
          · simp

/-- The bics of the rows behind a cursor, in order. -/
def bicsBehind (table : List Account) (cursor : Bytes) : List Bytes :=
  sortedBy id ((table.filter (isBehind cursor)).map Account.bicKey)

theorem bicsBehind_eq
    {cursor : Bytes} {ordered : List Account}
    (hperm : ordered.Perm (table.filter (isBehind cursor)))
    (hsorted : Ascending Account.bicKey ordered) :
    bicsBehind table cursor = ordered.map Account.bicKey := by
  have hbics : Ascending id (ordered.map Account.bicKey) := List.pairwise_map.mpr hsorted
  have hsame : sortedBy id (ordered.map Account.bicKey) =
      sortedBy id ((table.filter (isBehind cursor)).map Account.bicKey) :=
    sortedBy_eq_of_perm (hperm.map Account.bicKey) fun _ _ _ _ h => h
  rw [bicsBehind, ← hsame, sortedBy_eq_self hbics]

/-- What is behind the last row of a page. -/
theorem filter_isBehind_last
    {cursor : Bytes} {ordered : List Account} {last : Account}
    (hperm : ordered.Perm (table.filter (isBehind cursor)))
    (hsorted : Ascending Account.bicKey ordered)
    (hlast : (ordered.take pageLimit).getLast? = some last) :
    (after Account.bicKey last.bicKey (ordered.drop pageLimit)).Perm
      (table.filter (isBehind last.bicKey)) := by
  have hmem : last ∈ ordered := List.mem_of_mem_take (List.mem_of_getLast? hlast)
  have hbehind := isBehind_iff.mp (List.mem_filter.mp (hperm.mem_iff.mp hmem)).2
  have hsplit : Ascending Account.bicKey (ordered.take pageLimit ++ ordered.drop pageLimit) := by
    rwa [List.take_append_drop]
  rw [← after_last hsplit hlast, List.take_append_drop, filter_isBehind,
    ← after_after hbehind.le table, ← filter_isBehind cursor]
  exact hperm.filter _

/-- A page that is not empty leaves fewer rows behind its last one. -/
theorem length_filter_isBehind_last
    {cursor : Bytes} {ordered : List Account} {last : Account}
    (hperm : ordered.Perm (table.filter (isBehind cursor)))
    (hsorted : Ascending Account.bicKey ordered)
    (hlast : (ordered.take pageLimit).getLast? = some last) :
    (table.filter (isBehind last.bicKey)).length <
      (table.filter (isBehind cursor)).length := by
  have hne : ordered.take pageLimit ≠ [] := by
    intro hnil
    rw [hnil] at hlast
    cases hlast
  have hle := length_after_le Account.bicKey last.bicKey (ordered.drop pageLimit)
  have hpos := List.length_pos_iff.mpr hne
  rw [(filter_isBehind_last hperm hsorted hlast).length_eq, List.length_drop] at hle
  rw [List.length_take] at hpos
  rw [← hperm.length_eq]
  omega

/-- The pages behind a cursor are its first page and those behind its last row. -/
theorem flatten_pages_bicsBehind
    {cursor : Bytes} {ordered : List Account} {last : Account}
    (hperm : ordered.Perm (table.filter (isBehind cursor)))
    (hsorted : Ascending Account.bicKey ordered)
    (hlast : (ordered.take pageLimit).getLast? = some last) :
    (pages id pageLimit (bicsBehind table cursor)).flatten =
      (ordered.take pageLimit).map Account.bicKey ++
        (pages id pageLimit (bicsBehind table last.bicKey)).flatten := by
  have hlastBic : ((ordered.map Account.bicKey).take pageLimit).getLast? =
      some last.bicKey := by
    rw [← List.map_take, List.getLast?_map, hlast, Option.map_some]
  have hascending : Ascending Account.bicKey
      (after Account.bicKey last.bicKey (ordered.drop pageLimit)) :=
    (hsorted.sublist (List.drop_sublist _ _)).sublist (after_sublist _ _ _)
  rw [bicsBehind_eq hperm hsorted, pages_eq (by decide) hlastBic, List.flatten_cons,
    List.map_take, bicsBehind_eq (filter_isBehind_last hperm hsorted hlast) hascending,
    ← List.map_drop]
  unfold after
  rw [List.filter_map]
  rfl

/-- The rows of a page and rows behind its last one are rows behind the cursor. -/
theorem subperm_of_page
    {cursor : Bytes} {ordered visited : List Account} {last : Account}
    (hperm : ordered.Perm (table.filter (isBehind cursor)))
    (hsorted : Ascending Account.bicKey ordered)
    (hlast : (ordered.take pageLimit).getLast? = some last)
    (hvisited : visited.Subperm (table.filter (isBehind last.bicKey))) :
    (ordered.take pageLimit ++ visited).Subperm (table.filter (isBehind cursor)) := by
  have hrest := filter_isBehind_last hperm hsorted hlast
  have hdrop : visited.Subperm (ordered.drop pageLimit) :=
    (hvisited.trans hrest.symm.subperm).trans (after_sublist _ _ _).subperm
  have hall := (List.subperm_append_left (ordered.take pageLimit)).mpr hdrop
  rw [List.take_append_drop] at hall
  exact hall.trans hperm.subperm

/-- The run of the loop: it visits rows behind the cursor, those of the pages of
their bics, and counts them. -/
theorem makeBordersLoop_eq
    (hserves : Serves table server) (partitionSize : Int) (turn : Nat) (s : State) :
    ∃ (enough : Nat) (visited : List Account),
      (∀ fuel, enough ≤ fuel →
        makeBordersLoop partitionSize server fuel turn s =
          some (visited.foldlM (countRow partitionSize) s)) ∧
      visited.map Account.bicKey = (pages id pageLimit (bicsBehind table s.curBic)).flatten ∧
      visited.Subperm (table.filter (isBehind s.curBic)) := by
  induction hlength : (table.filter (isBehind s.curBic)).length using Nat.strongRecOn
    generalizing s turn with
  | ind n ih =>
      obtain ⟨failed, page, hanswer, ordered, hperm, hsorted, rfl⟩ := hserves turn s.curBic
      have hloop : ∀ fuel, makeBordersLoop partitionSize server (fuel + 1) turn s =
          match callee partitionSize (.ok (ordered.take pageLimit)) s with
          | .error e => some (.error e)
          | .ok (s, false) => some (.ok s)
          | .ok (s, true) => makeBordersLoop partitionSize server fuel (turn + 1) s := by
        intro fuel
        rw [makeBordersLoop, hanswer, retryOperationSync_callee]
      cases hpage : ordered.take pageLimit with
      | nil =>
          have hnil : ordered = [] := by
            rcases List.take_eq_nil_iff.mp hpage with hzero | hnil
            · cases hzero
            · exact hnil
          refine ⟨1, [], ?_, ?_, List.nil_subperm⟩
          · intro fuel hfuel
            obtain ⟨more, rfl⟩ : ∃ more, fuel = more + 1 := ⟨fuel - 1, by omega⟩
            rw [hloop, hpage]
            rfl
          · rw [bicsBehind_eq hperm hsorted, hnil, List.map_nil, pages_nil]
            rfl
      | cons row rows =>
          have hne : ordered.take pageLimit ≠ [] := by
            rw [hpage]
            exact List.cons_ne_nil row rows
          obtain ⟨last, hlast⟩ : ∃ last, (ordered.take pageLimit).getLast? = some last :=
            ⟨_, List.getLast?_eq_some_getLast hne⟩
          have hnext : ∀ s', s'.curBic = last.bicKey →
              ∃ (enough : Nat) (visited : List Account),
                (∀ fuel, enough ≤ fuel →
                  makeBordersLoop partitionSize server fuel (turn + 1) s' =
                    some (visited.foldlM (countRow partitionSize) s')) ∧
                (ordered.take pageLimit ++ visited).map Account.bicKey =
                  (pages id pageLimit (bicsBehind table s.curBic)).flatten ∧
                (ordered.take pageLimit ++ visited).Subperm
                  (table.filter (isBehind s.curBic)) := by
            intro s' hcur
            have hless := length_filter_isBehind_last hperm hsorted hlast
            rw [hlength, ← hcur] at hless
            obtain ⟨enough, visited, hrun, hvisited, hsub⟩ := ih _ hless (turn + 1) s' rfl
            rw [hcur] at hvisited hsub
            refine ⟨enough, visited, hrun, ?_, subperm_of_page hperm hsorted hlast hsub⟩
            rw [List.map_append, hvisited, flatten_pages_bicsBehind hperm hsorted hlast]
          rcases countRows_spec partitionSize s (ordered.take pageLimit) with
            ⟨s', hok, -, hcur, -, -⟩ | ⟨herror, -⟩
          · have hlastBic : s'.curBic = last.bicKey := by
              rw [hcur, List.getLastD_eq_getLast?, List.getLast?_map, hlast]
              rfl
            obtain ⟨enough, visited, hrun, hvisited, hsub⟩ := hnext s' hlastBic
            refine ⟨enough + 1, ordered.take pageLimit ++ visited, ?_, hvisited, hsub⟩
            intro fuel hfuel
            obtain ⟨more, rfl⟩ : ∃ more, fuel = more + 1 := ⟨fuel - 1, by omega⟩
            rw [hloop, callee_of_page hne, List.foldlM_append, hok]
            exact hrun more (by omega)
          · -- the error of a row of this page ends the loop, whatever is behind it
            obtain ⟨enough, visited, -, hvisited, hsub⟩ :=
              hnext { s with curBic := last.bicKey } rfl
            refine ⟨enough + 1, ordered.take pageLimit ++ visited, ?_, hvisited, hsub⟩
            intro fuel hfuel
            obtain ⟨more, rfl⟩ : ∃ more, fuel = more + 1 := ⟨fuel - 1, by omega⟩
            rw [hloop, callee_of_page hne, List.foldlM_append, herror]
            rfl

end Runs

section Borders

variable {table : List Account} {server : Server} {partitionSize : Int}

/-- A border stands for a bic behind the border before it. -/
theorem borderBics_ascending
    (partitionSize : Int) (count : Nat) {prev : Bytes} {bics : List Bytes}
    (hsorted : bics.Pairwise (· ≤ ·)) (hprev : ∀ bic ∈ bics, prev ≤ bic) :
    (borderBics partitionSize count prev bics).Pairwise (· < ·) ∧
      ∀ border ∈ borderBics partitionSize count prev bics, prev < border ∧ border ∈ bics := by
  induction bics generalizing count prev with
  | nil => exact ⟨List.Pairwise.nil, fun _ h => absurd h List.not_mem_nil⟩
  | cons bic rest ih =>
      obtain ⟨hbic, hrest⟩ := List.forall_mem_cons.mp hprev
      obtain ⟨hhead, htail⟩ := List.pairwise_cons.mp hsorted
      rw [borderBics]
      split
      · next hborder =>
          obtain ⟨hpairwise, hmem⟩ := ih 0 htail hhead
          have hlt : prev < bic := lt_of_le_of_ne hbic fun heq => hborder.2 heq.symm
          refine ⟨List.pairwise_cons.mpr ⟨fun other h => (hmem other h).1, hpairwise⟩, ?_⟩
          intro border h
          rcases List.mem_cons.mp h with rfl | h
          · exact ⟨hlt, List.mem_cons_self⟩
          · exact ⟨hlt.trans (hmem border h).1, List.mem_cons_of_mem _ (hmem border h).2⟩
      · obtain ⟨hpairwise, hmem⟩ := ih (count + 1) htail hrest
        exact ⟨hpairwise, fun border h => ⟨(hmem border h).1,
          List.mem_cons_of_mem _ (hmem border h).2⟩⟩

/-- The bics of the table, in order. -/
def bicsOf (table : List Account) : List Bytes :=
  sortedBy id (table.map Account.bicKey)

/-- The run returns, has counted every row once and in the order of the bics, and
the borders are ascending bics of the table. -/
def CountsEveryAccount (table : List Account) (partitionSize : Int) (server : Server) : Prop :=
  ∃ (enough : Nat) (s : State),
    (∀ fuel, enough ≤ fuel → makeBorders partitionSize server fuel = some (.ok s)) ∧
    s.counted.Perm table ∧
    Ascending Account.bicKey s.counted ∧
    (s.retval.map utf8Bytes).Pairwise (· < ·) ∧
    ∀ border ∈ s.retval, ∃ row ∈ table, row.bic = some (utf8Bytes border)

/-- Every row has a bic that is not empty, no page ends between two rows of one
bic, and the bics that become borders are texts. -/
structure Countable (table : List Account) (partitionSize : Int) : Prop where
  named : ∀ row ∈ table, ∃ bic, row.bic = some bic ∧ bic ≠ []
  wholePages : EndsBetweenKeys id pageLimit (bicsOf table)
  texts : ∀ bic ∈ borderBics partitionSize 0 [] (bicsOf table), (decodeUtf8 bic).isSome

theorem isBehind_start_iff
    {row : Account} :
    isBehind State.start.curBic row = true ↔ ∃ bic, row.bic = some bic ∧ bic ≠ [] := by
  have hstart : State.start.curBic = [] := rfl
  rw [hstart]
  unfold isBehind
  cases row.bic with
  | none => simp
  | some bic => cases bic <;> simp

theorem filter_isBehind_start
    (h : ∀ row ∈ table, ∃ bic, row.bic = some bic ∧ bic ≠ []) :
    table.filter (isBehind State.start.curBic) = table :=
  List.filter_eq_self.mpr fun row hrow => isBehind_start_iff.mpr (h row hrow)

theorem bicsBehind_start
    (h : ∀ row ∈ table, ∃ bic, row.bic = some bic ∧ bic ≠ []) :
    bicsBehind table State.start.curBic = bicsOf table := by
  rw [bicsBehind, filter_isBehind_start h, bicsOf]

theorem countable_of_counts
    (hserves : Serves table server) (h : CountsEveryAccount table partitionSize server) :
    Countable table partitionSize := by
  obtain ⟨enough, visited, hrun, hvisited, hsub⟩ :=
    makeBordersLoop_eq hserves partitionSize 0 .start
  obtain ⟨enough', s, hok, hperm, -⟩ := h
  have hfold : visited.foldlM (countRow partitionSize) State.start = .ok s := by
    have hsame := (hrun (enough + enough') (by omega)).symm.trans
      (hok (enough + enough') (by omega))
    exact Option.some.inj hsame
  rcases countRows_spec partitionSize .start visited with
    ⟨s', hok', hcounted, -, -, htexts⟩ | ⟨herror, -⟩
  · obtain rfl := Except.ok.inj (hok'.symm.trans hfold)
    have hcounted' : s'.counted = visited := by rw [hcounted]; rfl
    rw [hcounted'] at hperm
    have hnamed : ∀ row ∈ table, ∃ bic, row.bic = some bic ∧ bic ≠ [] := by
      intro row hrow
      have hbehind := hsub.subset (hperm.mem_iff.mpr hrow)
      exact isBehind_start_iff.mp (List.mem_filter.mp hbehind).2
    rw [bicsBehind_start hnamed] at hvisited
    have hflatten : (pages id pageLimit (bicsOf table)).flatten = bicsOf table := by
      refine (flatten_pages_sublist id pageLimit (bicsOf table)).eq_of_length ?_
      rw [← hvisited, List.length_map, hperm.length_eq, bicsOf, length_sortedBy,
        List.length_map]
    rw [hvisited, hflatten] at htexts
    have hsorted : Ascending id (bicsOf table) := ascending_sortedBy id _
    exact ⟨hnamed, (flatten_pages_eq_iff (by decide) hsorted).mp hflatten, htexts⟩
  · rw [hfold] at herror
    cases herror

theorem counts_of_countable
    (hserves : Serves table server) (h : Countable table partitionSize) :
    CountsEveryAccount table partitionSize server := by
  obtain ⟨enough, visited, hrun, hvisited, hsub⟩ :=
    makeBordersLoop_eq hserves partitionSize 0 .start
  have hsorted : Ascending id (bicsOf table) := ascending_sortedBy id _
  rw [bicsBehind_start h.named, (flatten_pages_eq_iff (by decide) hsorted).mpr h.wholePages]
    at hvisited
  rw [filter_isBehind_start h.named] at hsub
  have hperm : visited.Perm table := by
    refine hsub.perm_of_length_le ?_
    have hlength := congrArg List.length hvisited
    rw [List.length_map, bicsOf, length_sortedBy, List.length_map] at hlength
    exact hlength.ge
  rcases countRows_spec partitionSize .start visited with
    ⟨s, hok, hcounted, -, hretval, -⟩ | ⟨-, bic, hbic, hnone⟩
  · have hcounted' : s.counted = visited := by rw [hcounted]; rfl
    have hborders : s.retval.map utf8Bytes = borderBics partitionSize 0 [] (bicsOf table) := by
      rw [hretval, hvisited]
      rfl
    obtain ⟨hpairwise, hmem⟩ := borderBics_ascending partitionSize 0 hsorted
      (fun bic _ => not_lt.mp (List.not_lt_nil bic))
    refine ⟨enough, s, fun fuel hfuel => ?_, hcounted' ▸ hperm, ?_, ?_, ?_⟩
    · rw [makeBorders, hrun fuel hfuel, hok]
    · have hbics : Ascending id (visited.map Account.bicKey) := hvisited ▸ hsorted
      rw [hcounted']
      exact List.pairwise_map.mp hbics
    · rwa [hborders]
    · intro border hborder
      have hbic : utf8Bytes border ∈ s.retval.map utf8Bytes := List.mem_map_of_mem hborder
      rw [hborders] at hbic
      obtain ⟨row, hrow, hkey⟩ := List.mem_map.mp (mem_sortedBy.mp (hmem _ hbic).2)
      obtain ⟨bic, hrowBic, -⟩ := h.named row hrow
      refine ⟨row, hrow, ?_⟩
      rw [hrowBic, ← hkey, Account.bicKey, hrowBic]
      rfl
  · rw [hvisited] at hbic
    have htext := h.texts bic hbic
    rw [hnone] at htext
    cases htext

/-- Every account is counted if and only if every row has a bic, no page ends
between two rows of one bic, and the bics of the borders are texts. -/
theorem counts_every_account_iff
    (table : List Account)
    (partitionSize : Int)
    (server : Server)
    (hserves : Serves table server) :
    CountsEveryAccount table partitionSize server ↔ Countable table partitionSize :=
  ⟨countable_of_counts hserves, counts_of_countable hserves⟩

/-- A database that answers at once and puts the rows of one bic in the order of
the table. -/
def plainServer (table : List Account) : Server := fun _ cursor =>
  [.ok ((sortedBy Account.bicKey (table.filter (isBehind cursor))).take pageLimit)]

theorem serves_plainServer (table : List Account) :
    Serves table (plainServer table) := by
  intro turn cursor
  exact ⟨[], _, rfl, _, sortedBy_perm _ _, ascending_sortedBy _ _, rfl⟩

/-- The bic of a bank: only letters `A`, one more than the number of the bank. -/
def bankBic (i : Nat) : Bytes :=
  List.replicate (i + 1) 65

/-- One account of each of so many banks. -/
def oneAccountEach (banks : Nat) : List Account :=
  (List.range banks).map fun i => ⟨some (bankBic i), some [49]⟩

theorem decodeUtf8_bankBic (i : Nat) :
    (decodeUtf8 (bankBic i)).isSome = true := by
  have htext : utf8Bytes (String.ofList (List.replicate (i + 1) 'A')) = bankBic i := by
    rw [utf8Bytes_eq_encode, String.toList_ofList, encode, bankBic]
    induction i with
    | zero => rfl
    | succ i ih =>
        rw [List.replicate_succ, List.flatMap_cons, ih]
        rfl
  rw [← htext, decodeUtf8_utf8Bytes]
  rfl

/-- The accounts are on three pages. -/
theorem counts_three_pages :
    CountsEveryAccount (oneAccountEach 1200) 7 (plainServer (oneAccountEach 1200)) := by
  have hbics : (bicsOf (oneAccountEach 1200)).Perm ((List.range 1200).map bankBic) := by
    refine (sortedBy_perm _ _).trans ?_
    rw [oneAccountEach, List.map_map]
    exact List.Perm.refl _
  have hdistinct : (bicsOf (oneAccountEach 1200)).Nodup := by
    refine hbics.nodup_iff.mpr (List.nodup_range.map fun i j h => ?_)
    simpa [bankBic] using congrArg List.length h
  refine (counts_every_account_iff (oneAccountEach 1200) 7 _ (serves_plainServer _)).mpr
    ⟨?_, ?_, ?_⟩
  · intro row hrow
    obtain ⟨i, -, rfl⟩ := List.mem_map.mp hrow
    exact ⟨bankBic i, rfl, by simp [bankBic]⟩
  · intro i a b hi ha hb heq
    obtain ⟨hlt, rfl⟩ := List.getElem?_eq_some_iff.mp ha
    obtain ⟨hlt', rfl⟩ := List.getElem?_eq_some_iff.mp hb
    have hsame := (hdistinct.getElem_inj_iff).mp heq
    have hpos : 0 < pageLimit * i := Nat.mul_pos (by decide) hi
    omega
  · intro bic hbic
    have hmem := ((borderBics_ascending 7 0 (ascending_sortedBy id _)
      (fun bic _ => not_lt.mp (List.not_lt_nil bic))).2 bic hbic).2
    obtain ⟨i, -, rfl⟩ := List.mem_map.mp (hbics.mem_iff.mp hmem)
    exact decodeUtf8_bankBic i

/-- Accounts of one bank, one more than a page holds. -/
def manyAccounts : List Account :=
  (List.range (pageLimit + 1)).map fun i => ⟨some [65], some (List.replicate i 49)⟩

/-- The last account of the bank is not counted. -/
theorem not_counts_many_accounts :
    ¬ ∀ (table : List Account) (partitionSize : Int) (server : Server),
      Serves table server → CountsEveryAccount table partitionSize server := by
  intro h
  have hcountable := countable_of_counts (serves_plainServer manyAccounts)
    (h manyAccounts 1 _ (serves_plainServer manyAccounts))
  have hlength : (bicsOf manyAccounts).length = pageLimit + 1 := by
    rw [bicsOf, length_sortedBy, List.length_map, manyAccounts, List.length_map,
      List.length_range]
  have hall : ∀ bic ∈ bicsOf manyAccounts, bic = [65] := by
    intro bic hbic
    obtain ⟨row, hrow, rfl⟩ := List.mem_map.mp (mem_sortedBy.mp hbic)
    obtain ⟨i, -, rfl⟩ := List.mem_map.mp hrow
    rfl
  have hlast : pageLimit * 1 - 1 < (bicsOf manyAccounts).length := by
    rw [hlength]
    decide
  have hnext : pageLimit * 1 < (bicsOf manyAccounts).length := by
    rw [hlength]
    decide
  refine hcountable.wholePages 1 _ _ Nat.one_pos (List.getElem?_eq_getElem hlast)
    (List.getElem?_eq_getElem hnext) ?_
  rw [id, id, hall _ (List.getElem_mem hlast), hall _ (List.getElem_mem hnext)]

end Borders

end Stroppy
end YdbSnippets
