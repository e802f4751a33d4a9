import YdbSnippets.Lists.Matching
import YdbSnippets.Lists.Sorting
import YdbSnippets.Viewer.Pages
import Mathlib.Data.Int.Order.Basic
import Mathlib.Data.Prod.Lex

/-!
# The report of unfinished transactions

`scheme_operations.py` reads the pages of all in-flight sub-operations in one
pool of workers and the pages of their path ids in another, and prints a row for
every path.
-/

namespace YdbSnippets
namespace SchemeOperations

open Python Text Tablets Viewer Matching Sorting

section Pages

/-- The role of a path in a transaction, in the order of the report. -/
inductive Role
  | target
  | source
  | cdc
deriving DecidableEq, Repr

/-- `ROLE_ORDER` -/
def Role.order : Role → Nat
  | target => 0
  | source => 1
  | cdc => 2

def Role.text : Role → Str
  | target => "target".toList
  | source => "source".toList
  | cdc => "cdc".toList

/-- `ROLE_BY_LABEL.get(label)` -/
def roleByLabel (label : Str) : Option Role :=
  if label = "targetpathid".toList then some .target
  else if label = "sourcepathid".toList then some .source
  else if label = "cdcpathid".toList then some .cdc
  else none

/-- A path id with its role. -/
structure Ref where
  role : Role
  key : PathId
deriving DecidableEq, Repr

variable (py : Interpreter) (html : HtmlLibrary)

/-- The path ids a transaction page names, as they stand there. -/
def pageRefs (page : Str) : List Ref :=
  (pathLinks page).filterMap fun link => do
    let role ← roleByLabel (py.lower link.label)
    let key ← pathIdOfHref py html link.href
    return ⟨role, key⟩

/-- `parse_tx_info` -/
def parseTxInfo (page : Str) : List Ref × TxStatus :=
  if pathLinks page = [] then ([], statusWithoutLinks html page)
  else (sortedBy (fun ref => ref.role.order) (pageRefs py html page).eraseDups, .ok)

/-- `parse_path_info`: a path, or the text of an error. -/
def parsePathInfo (page : Str) : Str × Str :=
  let path := pagePath html page
  if path ≠ [] then (path, [])
  else if occurs "No path item for pathId".toList page then ([], "path not found".toList)
  else ([], "path page has no Path field".toList)

end Pages

section Loading

/-- `status` of a sub-operation whose page was asked for. -/
inductive Status
  | ok
  | gone
  | error
deriving DecidableEq, Repr

/-- What `load_tx_info` returns. -/
structure Detailed where
  operation : Operation
  refs : List Ref
  error : Str
  status : Status
deriving DecidableEq, Repr

/-- What the requests answer, after their retries. -/
structure ReportPages where
  txInfo : Int → Int → Except PyException Str
  pathInfo : PathId → Except PyException Str

variable (py : Interpreter) (html : HtmlLibrary) (pages : ReportPages)

/-- `load_tx_info` -/
def loadTxInfo (operation : Operation) : Detailed :=
  match pages.txInfo operation.txId operation.partId with
  | .error exc => ⟨operation, [], oneLine exc.text, .error⟩
  | .ok page =>
      match parseTxInfo py html page with
      | (_, .gone) => ⟨operation, [], [], .gone⟩
      | (_, .unparsed) =>
          ⟨operation, [], "transaction page has no affected paths".toList, .error⟩
      | (refs, .ok) => ⟨operation, refs, [], .ok⟩

/-- `f'{error} ({owner}:{local})'` -/
def labelled (error : Str) (key : PathId) : Str :=
  error ++ " (".toList ++ printInt key.owner ++ ':' :: printInt key.localId ++ [')']

/-- `load_object_path` -/
def loadObjectPath (key : PathId) : PathId × Str × Str :=
  match pages.pathInfo key with
  | .error exc => (key, [], labelled (oneLine exc.text) key)
  | .ok page =>
      let (path, error) := parsePathInfo html page
      (key, path, if error = [] then [] else labelled error key)

end Loading

section Printing

/-- `operation_line` -/
def operationLine (operation : Operation) (role path : Str) : Str :=
  ['\t'].intercalate
    [printInt operation.txId, printInt operation.partId, operation.txType, operation.state,
      operation.shards, role, oneLine path]

/-- The row of a path: the line, and whether it is an error. -/
def pathRow (operation : Operation) (role : Role) (found : Str × Str) : Str × Bool :=
  if found.2 ≠ [] then (operationLine operation role.text ("ERROR: ".toList ++ found.2), true)
  else (operationLine operation role.text found.1, false)

/-- The paths that were read, with their errors. -/
abbrev Paths := Dict PathId (Str × Str)

/-- The rows of a sub-operation, from what was found for its path ids. -/
def itemRows (found : PathId → Str × Str) (item : Detailed) : List (Str × Bool) :=
  if item.status = .gone then []
  else if item.error ≠ [] then
    [(operationLine item.operation [] ("ERROR: ".toList ++ item.error), true)]
  else if item.refs = [] then [(operationLine item.operation [] [], false)]
  else item.refs.map fun ref => pathRow item.operation ref.role (found ref.key)

/-- The order of the report. -/
def operationKey (operation : Operation) : Int ×ₗ Int :=
  toLex (operation.txId, operation.partId)

/-- `iter_rows` -/
def iterRows (operations : List Detailed) (paths : Paths) : List (Str × Bool) :=
  (sortedBy (fun item => operationKey item.operation) operations).flatMap
    (itemRows fun key => paths.getD key ([], "path was not resolved".toList))

/-- The path ids to be asked for, in the order in which they are met. -/
def pathKeys (detailed : List Detailed) : List PathId :=
  (detailed.flatMap fun item => item.refs.map Ref.key).eraseDups

/-- What `main` prints and its exit code. -/
structure Outcome where
  lines : List Str
  exitCode : Nat
deriving DecidableEq, Repr

/-- The end of `main`, from the results of both pools in the order in which they
arrived. -/
def report (detailed : List Detailed) (arrived : List (PathId × Str × Str)) : Outcome :=
  if detailed = [] then ⟨[], 0⟩
  else
    let rows := iterRows detailed (Dict.ofItems arrived)
    ⟨rows.map Prod.fst, if rows.any Prod.snd then 2 else 0⟩

/-- The workers of both pools may complete in any order. -/
structure Completes
    (py : Interpreter) (html : HtmlLibrary) (pages : ReportPages) (operations : List Operation)
    (detailed : List Detailed) (arrived : List (PathId × Str × Str)) : Prop where
  transactions : detailed.Perm (operations.map (loadTxInfo py html pages))
  paths : arrived.Perm ((pathKeys detailed).map (loadObjectPath html pages))

end Printing

section Failures

variable (py : Interpreter) (html : HtmlLibrary) (pages : ReportPages)

/-- The page of the sub-operation could not be read. -/
def TxRaised (operation : Operation) (exc : PyException) : Prop :=
  pages.txInfo operation.txId operation.partId = .error exc

/-- The page was read; it links to no path and has no notice that the
transaction has finished. -/
def TxUnparsed (operation : Operation) : Prop :=
  ∃ page, pages.txInfo operation.txId operation.partId = .ok page ∧
    pathLinks page = [] ∧ isGonePage html page = false

/-- The page says that the transaction has finished. -/
def TxGone (operation : Operation) : Prop :=
  ∃ page, pages.txInfo operation.txId operation.partId = .ok page ∧
    pathLinks page = [] ∧ isGonePage html page = true

/-- The page links to paths, and these are the valid path ids among them. -/
def TxNames (operation : Operation) (named : List Ref) : Prop :=
  ∃ page, pages.txInfo operation.txId operation.partId = .ok page ∧
    pathLinks page ≠ [] ∧ pageRefs py html page = named

/-- The page of the path id could not be read, or has no path. -/
def PathFailed (key : PathId) : Prop :=
  (∃ exc, pages.pathInfo key = .error exc) ∨
    ∃ page, pages.pathInfo key = .ok page ∧ pagePath html page = []

/-- The page of a path id that a sub-operation names has failed. -/
def NamedPathFailed (operations : List Operation) : Prop :=
  ∃ operation ∈ operations, ∃ named, TxNames py html pages operation named ∧
    ∃ ref ∈ named, PathFailed html pages ref.key

/-- A page could not be read or parsed. -/
def SomePageFailed (operations : List Operation) : Prop :=
  (∃ operation ∈ operations,
    (∃ exc, TxRaised pages operation exc) ∨ TxUnparsed html pages operation) ∨
  NamedPathFailed py html pages operations

/-- A transaction page failed with an exception whose text is blank. -/
def BlankFailure (operations : List Operation) : Prop :=
  ∃ operation ∈ operations, ∃ exc, TxRaised pages operation exc ∧
    ∀ c ∈ exc.text, isSpace c = true

/-- A page failed in any other way. -/
def OtherFailure (operations : List Operation) : Prop :=
  (∃ operation ∈ operations,
    (∃ exc, TxRaised pages operation exc ∧ ∃ c ∈ exc.text, isSpace c = false) ∨
      TxUnparsed html pages operation) ∨
  NamedPathFailed py html pages operations

variable {py html pages}

theorem somePageFailed_iff
    {operations : List Operation} :
    SomePageFailed py html pages operations ↔
      BlankFailure pages operations ∨ OtherFailure py html pages operations := by
  constructor
  · rintro (⟨operation, hmem, ⟨exc, hraised⟩ | hunparsed⟩ | hpath)
    · by_cases hblank : ∀ c ∈ exc.text, isSpace c = true
      · exact Or.inl ⟨operation, hmem, exc, hraised, hblank⟩
      · push Not at hblank
        obtain ⟨c, hc, hspace⟩ := hblank
        refine Or.inr (Or.inl ⟨operation, hmem, Or.inl ⟨exc, hraised, c, hc, ?_⟩⟩)
        simpa using hspace
    · exact Or.inr (Or.inl ⟨operation, hmem, Or.inr hunparsed⟩)
    · exact Or.inr (Or.inr hpath)
  · rintro (⟨operation, hmem, exc, hraised, _⟩ |
      ⟨operation, hmem, ⟨exc, hraised, _⟩ | hunparsed⟩ | hpath)
    · exact Or.inl ⟨operation, hmem, Or.inl ⟨exc, hraised⟩⟩
    · exact Or.inl ⟨operation, hmem, Or.inl ⟨exc, hraised⟩⟩
    · exact Or.inl ⟨operation, hmem, Or.inr hunparsed⟩
    · exact Or.inr hpath

theorem loadTxInfo_of_raised
    {operation : Operation} {exc : PyException}
    (h : TxRaised pages operation exc) :
    loadTxInfo py html pages operation = ⟨operation, [], oneLine exc.text, .error⟩ := by
  unfold loadTxInfo
  rw [show pages.txInfo operation.txId operation.partId = .error exc from h]

theorem loadTxInfo_of_unparsed
    {operation : Operation}
    (h : TxUnparsed html pages operation) :
    loadTxInfo py html pages operation =
      ⟨operation, [], "transaction page has no affected paths".toList, .error⟩ := by
  obtain ⟨page, hpage, hlinks, hgone⟩ := h
  simp [loadTxInfo, hpage, parseTxInfo, statusWithoutLinks, hlinks, hgone]

theorem loadTxInfo_of_gone
    {operation : Operation}
    (h : TxGone html pages operation) :
    loadTxInfo py html pages operation = ⟨operation, [], [], .gone⟩ := by
  obtain ⟨page, hpage, hlinks, hgone⟩ := h
  simp [loadTxInfo, hpage, parseTxInfo, statusWithoutLinks, hlinks, hgone]

theorem loadTxInfo_of_names
    {operation : Operation} {named : List Ref}
    (h : TxNames py html pages operation named) :
    loadTxInfo py html pages operation =
      ⟨operation, sortedBy (fun ref => ref.role.order) named.eraseDups, [], .ok⟩ := by
  obtain ⟨page, hpage, hlinks, rfl⟩ := h
  simp [loadTxInfo, hpage, parseTxInfo, hlinks]

/-- All that can be found when a sub-operation is loaded. -/
theorem tx_cases
    (py : Interpreter) (html : HtmlLibrary) (pages : ReportPages) (operation : Operation) :
    (∃ exc, TxRaised pages operation exc) ∨ TxUnparsed html pages operation ∨
      TxGone html pages operation ∨ ∃ named, TxNames py html pages operation named := by
  unfold TxRaised TxUnparsed TxGone TxNames
  cases hpage : pages.txInfo operation.txId operation.partId with
  | error exc => exact Or.inl ⟨exc, rfl⟩
  | ok page =>
      by_cases hlinks : pathLinks page = []
      · cases hgone : isGonePage html page with
        | true => exact Or.inr (Or.inr (Or.inl ⟨page, rfl, hlinks, hgone⟩))
        | false => exact Or.inr (Or.inl ⟨page, rfl, hlinks, hgone⟩)
      · exact Or.inr (Or.inr (Or.inr ⟨_, page, rfl, hlinks, rfl⟩))

theorem loadTxInfo_operation
    (operation : Operation) :
    (loadTxInfo py html pages operation).operation = operation := by
  rcases tx_cases py html pages operation with ⟨_, h⟩ | h | h | ⟨_, h⟩
  · rw [loadTxInfo_of_raised h]
  · rw [loadTxInfo_of_unparsed h]
  · rw [loadTxInfo_of_gone h]
  · rw [loadTxInfo_of_names h]

theorem parsePathInfo_error_iff
    (html : HtmlLibrary) (page : Str) :
    (parsePathInfo html page).2 ≠ [] ↔ pagePath html page = [] := by
  unfold parsePathInfo
  by_cases hpath : pagePath html page = []
  · simp only [hpath, ne_eq, not_true_eq_false, if_false, iff_true]
    split
    · nofun
    · nofun
  · simp only [ne_eq, hpath, not_false_eq_true, if_true, not_true_eq_false]

/-- The page of a path id fails if and only if an error is kept for it. -/
theorem loadObjectPath_spec
    (key : PathId) :
    (loadObjectPath html pages key).1 = key ∧
      ((loadObjectPath html pages key).2.2 ≠ [] ↔ PathFailed html pages key) := by
  have hlabelled : ∀ error, labelled error key ≠ [] := by
    intro error
    simp [labelled]
  unfold loadObjectPath PathFailed
  cases hpage : pages.pathInfo key with
  | error exc => exact ⟨rfl, iff_of_true (hlabelled _) (Or.inl ⟨exc, rfl⟩)⟩
  | ok page =>
      refine ⟨rfl, ?_⟩
      have herror := parsePathInfo_error_iff html page
      simp only [reduceCtorEq, exists_false, false_or, Except.ok.injEq, exists_eq_left', ← herror]
      by_cases hnone : (parsePathInfo html page).2 = []
      · simp only [hnone, if_true]
      · rw [if_neg hnone]
        exact iff_of_true (hlabelled _) hnone

end Failures

section Joining

variable {py : Interpreter} {html : HtmlLibrary} {pages : ReportPages}
  {operations : List Operation} {detailed : List Detailed}
  {arrived : List (PathId × Str × Str)}

theorem mem_pathKeys
    {item : Detailed} {ref : Ref}
    (hitem : item ∈ detailed) (href : ref ∈ item.refs) :
    ref.key ∈ pathKeys detailed := by
  unfold pathKeys
  rw [List.mem_eraseDups, List.mem_flatMap]
  exact ⟨item, hitem, List.mem_map_of_mem href⟩

/-- Every path id of the report was asked for, and its answer is found. -/
theorem Completes.get?_eq
    (h : Completes py html pages operations detailed arrived)
    {item : Detailed} {ref : Ref}
    (hitem : item ∈ detailed) (href : ref ∈ item.refs) :
    (Dict.ofItems arrived).get? ref.key = some (loadObjectPath html pages ref.key).2 := by
  have hkeys : (pathKeys detailed).map (Prod.fst ∘ loadObjectPath html pages) =
      pathKeys detailed :=
    (List.map_congr_left fun key _ => (loadObjectPath_spec key).1).trans (List.map_id _)
  have hnodup : (arrived.map Prod.fst).Nodup := by
    have hperm := h.paths.map Prod.fst
    rw [List.map_map, hkeys] at hperm
    exact hperm.nodup_iff.mpr (nodup_eraseDups _)
  refine Dict.get?_ofItems_of_mem hnodup (h.paths.mem_iff.mpr ?_)
  refine List.mem_map.mpr ⟨ref.key, mem_pathKeys hitem href, ?_⟩
  exact Prod.ext (loadObjectPath_spec ref.key).1 rfl

/-- The rows of a sub-operation, from the answers of the pages alone. -/
def operationRows
    (py : Interpreter) (html : HtmlLibrary) (pages : ReportPages) (operation : Operation) :
    List (Str × Bool) :=
  itemRows (fun key => (loadObjectPath html pages key).2) (loadTxInfo py html pages operation)

theorem itemRows_congr
    {found found' : PathId → Str × Str} {item : Detailed}
    (h : ∀ ref ∈ item.refs, found ref.key = found' ref.key) :
    itemRows found item = itemRows found' item := by
  unfold itemRows
  have hmap : (item.refs.map fun ref => pathRow item.operation ref.role (found ref.key)) =
      item.refs.map fun ref => pathRow item.operation ref.role (found' ref.key) :=
    List.map_congr_left fun ref href => by rw [h ref href]
  rw [hmap]

/-- Whatever the order of completion, the rows are those of the sub-operations in
the order of their ids. -/
theorem Completes.iterRows_eq
    (h : Completes py html pages operations detailed arrived)
    (hdistinct : (operations.map operationKey).Nodup) :
    iterRows detailed (Dict.ofItems arrived) =
      (sortedBy operationKey operations).flatMap (operationRows py html pages) := by
  have hsorted : sortedBy (fun item : Detailed => operationKey item.operation) detailed =
      (sortedBy operationKey operations).map (loadTxInfo py html pages) := by
    have hkeys : (fun operation =>
        operationKey (loadTxInfo py html pages operation).operation) = operationKey := by
      funext operation
      rw [loadTxInfo_operation]
    have hinj : ∀ a ∈ operations.map (loadTxInfo py html pages),
        ∀ b ∈ operations.map (loadTxInfo py html pages),
        operationKey a.operation = operationKey b.operation → a = b := by
      intro a ha b hb hab
      obtain ⟨x, hx, rfl⟩ := List.mem_map.mp ha
      obtain ⟨y, hy, rfl⟩ := List.mem_map.mp hb
      rw [loadTxInfo_operation, loadTxInfo_operation] at hab
      rw [List.inj_on_of_nodup_map hdistinct hx hy hab]
    rw [← sortedBy_eq_of_perm h.transactions.symm hinj, ← map_sortedBy, hkeys]
  unfold iterRows
  rw [hsorted, List.flatMap_map]
  refine List.flatMap_congr fun operation hmem => itemRows_congr fun ref href => ?_
  have hitem : loadTxInfo py html pages operation ∈ detailed :=
    h.transactions.mem_iff.mpr (List.mem_map_of_mem (mem_sortedBy.mp hmem))
  rw [Dict.getD, h.get?_eq hitem href, Option.getD_some]

/-- The row of a path is an error if and only if its page has failed. -/
theorem pathRow_error_iff
    {operation : Operation} {role : Role} {key : PathId} :
    (pathRow operation role (loadObjectPath html pages key).2).2 = true ↔
      PathFailed html pages key := by
  rw [← (loadObjectPath_spec key).2]
  unfold pathRow
  split
  · next h => exact iff_of_true rfl h
  · next h => exact iff_of_false nofun h

/-- The rows of one sub-operation hold an error if and only if its page failed
with something to print, or the page of one of its path ids failed. -/
theorem exists_error_row_iff
    {operation : Operation} :
    (∃ row ∈ operationRows py html pages operation, row.2 = true) ↔
      ((∃ exc, TxRaised pages operation exc ∧ ∃ c ∈ exc.text, isSpace c = false) ∨
        TxUnparsed html pages operation) ∨
      ∃ named, TxNames py html pages operation named ∧
        ∃ ref ∈ named, PathFailed html pages ref.key := by
  unfold operationRows
  rcases tx_cases py html pages operation with ⟨exc, hraised⟩ | hunparsed | hgone | ⟨named, hnames⟩
  · rw [loadTxInfo_of_raised hraised]
    have hother : ∀ page, pages.txInfo operation.txId operation.partId ≠ .ok page := by
      intro page hpage
      cases hraised.symm.trans hpage
    by_cases hblank : oneLine exc.text = []
    · refine iff_of_false (by simp [itemRows, hblank]) ?_
      rintro ((⟨exc', hraised', c, hc, hspace⟩ | ⟨page, hpage, -⟩) | ⟨_, ⟨page, hpage, -⟩, -⟩)
      · cases hraised.symm.trans hraised'
        rw [oneLine_eq_nil_iff.mp hblank c hc] at hspace
        cases hspace
      · exact hother page hpage
      · exact hother page hpage
    · refine iff_of_true (by simp [itemRows, hblank]) (Or.inl (Or.inl ⟨exc, hraised, ?_⟩))
      rw [oneLine_eq_nil_iff] at hblank
      push Not at hblank
      obtain ⟨c, hc, hspace⟩ := hblank
      exact ⟨c, hc, by simpa using hspace⟩
  · rw [loadTxInfo_of_unparsed hunparsed]
    exact iff_of_true (by simp [itemRows]) (Or.inl (Or.inr hunparsed))
  · rw [loadTxInfo_of_gone hgone]
    obtain ⟨page, hpage, hlinks, hgone⟩ := hgone
    refine iff_of_false (by simp [itemRows]) ?_
    rintro ((⟨exc, hraised, -⟩ | ⟨page', hpage', -, hlisted⟩) | ⟨_, ⟨page', hpage', hlinks', -⟩, -⟩)
    · cases hpage.symm.trans hraised
    · cases hpage.symm.trans hpage'
      rw [hgone] at hlisted
      cases hlisted
    · cases hpage.symm.trans hpage'
      exact hlinks' hlinks
  · have hload := loadTxInfo_of_names hnames
    obtain ⟨page, hpage, hlinks, rfl⟩ := hnames
    have hrefs : ∀ ref, ref ∈ sortedBy (fun ref : Ref => ref.role.order)
        (pageRefs py html page).eraseDups ↔ ref ∈ pageRefs py html page := by
      intro ref
      rw [mem_sortedBy, List.mem_eraseDups]
    have hright : (((∃ exc, TxRaised pages operation exc ∧ ∃ c ∈ exc.text, isSpace c = false) ∨
        TxUnparsed html pages operation) ∨
        ∃ named, TxNames py html pages operation named ∧
          ∃ ref ∈ named, PathFailed html pages ref.key) ↔
        ∃ ref ∈ pageRefs py html page, PathFailed html pages ref.key := by
      constructor
      · rintro ((⟨exc, hraised, -⟩ | ⟨page', hpage', hlinks', -⟩) |
          ⟨named', ⟨page', hpage', -, rfl⟩, h⟩)
        · cases hpage.symm.trans hraised
        · cases hpage.symm.trans hpage'
          exact absurd hlinks' hlinks
        · cases hpage.symm.trans hpage'
          exact h
      · exact fun h => Or.inr ⟨_, ⟨page, hpage, hlinks, rfl⟩, h⟩
    rw [hload, hright]
    simp only [itemRows, reduceCtorEq, if_false, ne_eq, not_true_eq_false]
    split
    · next hnil =>
        refine iff_of_false (by simp) ?_
        rintro ⟨ref, href, -⟩
        have hmem := (hrefs ref).mpr href
        rw [hnil] at hmem
        cases hmem
    · simp only [List.mem_map, exists_exists_and_eq_and, pathRow_error_iff, hrefs]

end Joining

section Report

/-- The line shows the columns of the sub-operation, then a role and a text. -/
def ShowsLine (operation : Operation) (role text line : Str) : Prop :=
  line = ['\t'].intercalate
    [printInt operation.txId, printInt operation.partId, operation.txType, operation.state,
      operation.shards, role, oneLine text]

variable (py : Interpreter) (html : HtmlLibrary) (pages : ReportPages)

/-- What a row says of a path id: the path on its page, or why there is none. -/
def TellsPath (key : PathId) (text : Str) : Prop :=
  (∃ page, pages.pathInfo key = .ok page ∧ pagePath html page ≠ [] ∧
    text = pagePath html page) ∨
  (∃ exc, pages.pathInfo key = .error exc ∧
    text = "ERROR: ".toList ++ labelled (oneLine exc.text) key) ∨
  ∃ page, pages.pathInfo key = .ok page ∧ pagePath html page = [] ∧
    ∃ reason ∈ ["path not found".toList, "path page has no Path field".toList],
      text = "ERROR: ".toList ++ labelled reason key

/-- The line shows a path id of the sub-operation with its role. -/
def ShowsRef (operation : Operation) (ref : Ref) (line : Str) : Prop :=
  ∃ text, TellsPath html pages ref.key text ∧ ShowsLine operation ref.role.text text line

/-- The rows of a sub-operation: none if its page says that it has finished, one if
the page failed or names no valid path id, and otherwise one for every path id in
every role, by roles. -/
structure RowsOf (operation : Operation) (lines : List Str) : Prop where
  gone : TxGone html pages operation → lines = []
  raised : ∀ exc, TxRaised pages operation exc →
    ∃ text line, lines = [line] ∧ ShowsLine operation [] text line ∧
      ((∃ c ∈ exc.text, isSpace c = false) → text = "ERROR: ".toList ++ oneLine exc.text)
  unparsed : TxUnparsed html pages operation → ∃ line, lines = [line] ∧
    ShowsLine operation [] "ERROR: transaction page has no affected paths".toList line
  noPath : TxNames py html pages operation [] →
    ∃ line, lines = [line] ∧ ShowsLine operation [] [] line
  paths : ∀ named, TxNames py html pages operation named → named ≠ [] →
    ∃ refs : List Ref, refs.Nodup ∧ (∀ ref, ref ∈ refs ↔ ref ∈ named) ∧
      (refs.Pairwise fun a b => a.role.order ≤ b.role.order) ∧
      List.Forall₂ (ShowsRef html pages operation) refs lines

/-- The one sub-operation is printed before the other. -/
def Operation.Before (a b : Operation) : Prop :=
  a.txId < b.txId ∨ a.txId = b.txId ∧ a.partId < b.partId

/-- The report is complete.  Every sub-operation has rows of its own, whatever
the order of completion.  They are printed in the order of the ids, every path is
looked up after it has been found, and the exit code tells that a page failed. -/
def CompleteReport (operations : List Operation) : Prop :=
  ∃ ordered blocks, ordered.Perm operations ∧ ordered.Pairwise Operation.Before ∧
    List.Forall₂ (RowsOf py html pages) ordered blocks ∧
    ∀ detailed arrived, Completes py html pages operations detailed arrived →
      (report detailed arrived).lines = blocks.flatten ∧
      (∀ item ∈ detailed, ∀ ref ∈ item.refs, (Dict.ofItems arrived).get? ref.key ≠ none) ∧
      ((report detailed arrived).exitCode = 2 ↔ SomePageFailed py html pages operations)

end Report

section Complete

variable {py : Interpreter} {html : HtmlLibrary} {pages : ReportPages}
  {operations : List Operation} {detailed : List Detailed}
  {arrived : List (PathId × Str × Str)}

/-- The exit code is 2 if and only if a failure is not blank. -/
theorem Completes.report_eq
    (h : Completes py html pages operations detailed arrived)
    (hdistinct : (operations.map operationKey).Nodup) :
    (report detailed arrived).lines = (sortedBy operationKey operations).flatMap
        (fun operation => (operationRows py html pages operation).map Prod.fst) ∧
      ((report detailed arrived).exitCode = 2 ↔ OtherFailure py html pages operations) := by
  have hother : OtherFailure py html pages operations ↔
      ∃ operation ∈ operations, ∃ row ∈ operationRows py html pages operation, row.2 = true := by
    simp only [exists_error_row_iff, OtherFailure, NamedPathFailed]
    constructor
    · rintro (⟨operation, hmem, hfailed⟩ | ⟨operation, hmem, hfailed⟩)
      · exact ⟨operation, hmem, Or.inl hfailed⟩
      · exact ⟨operation, hmem, Or.inr hfailed⟩
    · rintro ⟨operation, hmem, hfailed | hfailed⟩
      · exact Or.inl ⟨operation, hmem, hfailed⟩
      · exact Or.inr ⟨operation, hmem, hfailed⟩
  rw [hother]
  unfold report
  by_cases hnil : detailed = []
  · have hoperations : operations = [] := by
      have hperm := h.transactions
      rw [hnil] at hperm
      exact List.map_eq_nil_iff.mp hperm.nil_eq.symm
    rw [if_pos hnil, hoperations]
    exact ⟨by simp [sortedBy], by simp⟩
  · rw [if_neg hnil, h.iterRows_eq hdistinct]
    refine ⟨List.map_flatMap, ?_⟩
    have hany : ((sortedBy operationKey operations).flatMap
        (operationRows py html pages)).any Prod.snd = true ↔
        ∃ operation ∈ operations, ∃ row ∈ operationRows py html pages operation,
          row.2 = true := by
      rw [List.any_eq_true]
      constructor
      · rintro ⟨row, hrow, herror⟩
        obtain ⟨operation, hmem, hrow⟩ := List.mem_flatMap.mp hrow
        exact ⟨operation, mem_sortedBy.mp hmem, row, hrow, herror⟩
      · rintro ⟨operation, hmem, row, hrow, herror⟩
        exact ⟨row, List.mem_flatMap.mpr ⟨operation, mem_sortedBy.mpr hmem, hrow⟩, herror⟩
    rw [← hany]
    simp only
    split
    · next htrue => exact iff_of_true rfl htrue
    · next hfalse => exact iff_of_false nofun hfalse

/-- The path, or the error, that is kept for a path id is what its row tells. -/
theorem showsRef_pathRow
    (operation : Operation) (ref : Ref) :
    ShowsRef html pages operation ref
      (pathRow operation ref.role (loadObjectPath html pages ref.key).2).1 := by
  have hlabelled : ∀ error, labelled error ref.key ≠ [] := by
    intro error
    simp [labelled]
  unfold ShowsRef TellsPath
  cases hpage : pages.pathInfo ref.key with
  | error exc =>
      refine ⟨_, Or.inr (Or.inl ⟨exc, rfl, rfl⟩), ?_⟩
      simp [loadObjectPath, hpage, pathRow, hlabelled, ShowsLine, operationLine]
  | ok page =>
      by_cases hpath : pagePath html page = []
      · have hreason : ∃ reason ∈ ["path not found".toList, "path page has no Path field".toList],
            (parsePathInfo html page).2 = reason := by
          unfold parsePathInfo
          simp only [hpath, ne_eq, not_true_eq_false, if_false]
          split
          · exact ⟨_, List.mem_cons_self, rfl⟩
          · exact ⟨_, List.mem_cons_of_mem _ List.mem_cons_self, rfl⟩
        obtain ⟨reason, hmem, hreason⟩ := hreason
        have herror : (parsePathInfo html page).2 ≠ [] :=
          (parsePathInfo_error_iff html page).mpr hpath
        refine ⟨_, Or.inr (Or.inr ⟨page, rfl, hpath, reason, hmem, rfl⟩), ?_⟩
        rw [hreason] at herror
        simp [loadObjectPath, hpage, pathRow, hreason, herror, hlabelled, ShowsLine, operationLine]
      · refine ⟨_, Or.inl ⟨page, rfl, hpath, rfl⟩, ?_⟩
        simp [loadObjectPath, hpage, pathRow, parsePathInfo, hpath, ShowsLine, operationLine]

/-- A page with path ids gives a row for each of them in each of its roles. -/
theorem operationRows_of_names
    {operation : Operation} {named : List Ref}
    (h : TxNames py html pages operation named) (hne : named ≠ []) :
    ∃ refs : List Ref, refs.Nodup ∧ (∀ ref, ref ∈ refs ↔ ref ∈ named) ∧
      Ascending (fun ref => ref.role.order) refs ∧
      operationRows py html pages operation = refs.map fun ref =>
        pathRow operation ref.role (loadObjectPath html pages ref.key).2 := by
  have hmem : ∀ ref, ref ∈ sortedBy (fun ref : Ref => ref.role.order) named.eraseDups ↔
      ref ∈ named := by
    intro ref
    rw [mem_sortedBy, List.mem_eraseDups]
  refine ⟨sortedBy (fun ref => ref.role.order) named.eraseDups, ?_, hmem,
    ascending_sortedBy _ _, ?_⟩
  · exact (sortedBy_perm _ _).nodup_iff.mpr (nodup_eraseDups named)
  · have hrefs : sortedBy (fun ref : Ref => ref.role.order) named.eraseDups ≠ [] := by
      obtain ⟨ref, href⟩ := List.exists_mem_of_ne_nil named hne
      exact List.ne_nil_of_mem ((hmem ref).mpr href)
    unfold operationRows
    rw [loadTxInfo_of_names h]
    simp [itemRows, hrefs]

/-- The rows that are printed for a sub-operation are its own. -/
theorem rowsOf_operationRows
    (py : Interpreter) (html : HtmlLibrary) (pages : ReportPages) (operation : Operation) :
    RowsOf py html pages operation
      ((operationRows py html pages operation).map Prod.fst) where
  gone := by
    intro hgone
    simp [operationRows, loadTxInfo_of_gone hgone, itemRows]
  raised := by
    intro exc hraised
    have hload : loadTxInfo py html pages operation = ⟨operation, [], oneLine exc.text, .error⟩ :=
      loadTxInfo_of_raised hraised
    by_cases hblank : oneLine exc.text = []
    · refine ⟨[], _, ?_, rfl, ?_⟩
      · simp [operationRows, hload, itemRows, hblank, operationLine]
      · rintro ⟨c, hc, hspace⟩
        rw [oneLine_eq_nil_iff.mp hblank c hc] at hspace
        cases hspace
    · refine ⟨_, _, ?_, rfl, fun _ => rfl⟩
      simp [operationRows, hload, itemRows, hblank, operationLine]
  unparsed := by
    intro hunparsed
    refine ⟨_, ?_, rfl⟩
    simp [operationRows, loadTxInfo_of_unparsed hunparsed, itemRows, operationLine]
  noPath := by
    intro hnames
    refine ⟨_, ?_, rfl⟩
    simp [operationRows, loadTxInfo_of_names hnames, itemRows, sortedBy, operationLine]
  paths := by
    intro named hnamed hne
    obtain ⟨refs, hnodup, hmem, hasc, hrows⟩ := operationRows_of_names hnamed hne
    refine ⟨refs, hnodup, hmem, hasc, ?_⟩
    rw [hrows, List.map_map, List.forall₂_map_right_iff]
    exact List.forall₂_same.mpr fun ref _ => showsRef_pathRow operation ref

/-- Distinct sub-operations in the order of their ids. -/
theorem pairwise_before
    (hdistinct : (operations.map operationKey).Nodup) :
    (sortedBy operationKey operations).Pairwise Operation.Before := by
  have hkeys : (sortedBy operationKey operations).Pairwise
      fun a b => operationKey a ≠ operationKey b := by
    rw [← List.pairwise_map]
    exact (((sortedBy_perm operationKey operations).map operationKey).nodup_iff).mpr hdistinct
  refine ((ascending_sortedBy operationKey operations).and hkeys).imp ?_
  rintro a b ⟨hle, hne⟩
  exact Prod.Lex.toLex_lt_toLex.mp (lt_of_le_of_ne hle hne)

/-- The report of sub-operations with distinct ids is complete if and only if no
transaction page fails with a blank exception, or some page fails otherwise. -/
theorem complete_report_iff
    (py : Interpreter)
    (html : HtmlLibrary)
    (pages : ReportPages)
    (operations : List Operation)
    (hdistinct : (operations.map operationKey).Nodup) :
    CompleteReport py html pages operations ↔
      (BlankFailure pages operations → OtherFailure py html pages operations) := by
  constructor
  · rintro ⟨_, _, _, _, _, hruns⟩ hblank
    have hcompletes : Completes py html pages operations
        (operations.map (loadTxInfo py html pages))
        ((pathKeys (operations.map (loadTxInfo py html pages))).map
          (loadObjectPath html pages)) :=
      ⟨List.Perm.refl _, List.Perm.refl _⟩
    obtain ⟨_, _, hexit⟩ := hruns _ _ hcompletes
    rw [← (hcompletes.report_eq hdistinct).2, hexit]
    exact somePageFailed_iff.mpr (Or.inl hblank)
  · intro hcondition
    refine ⟨sortedBy operationKey operations,
      (sortedBy operationKey operations).map fun operation =>
        (operationRows py html pages operation).map Prod.fst,
      sortedBy_perm _ _, pairwise_before hdistinct, ?_, ?_⟩
    · rw [List.forall₂_map_right_iff]
      exact List.forall₂_same.mpr fun operation _ =>
        rowsOf_operationRows py html pages operation
    · intro detailed arrived h
      obtain ⟨hlines, hexit⟩ := h.report_eq hdistinct
      refine ⟨hlines.trans List.flatMap_def, ?_, ?_⟩
      · intro item hitem ref href hnone
        rw [h.get?_eq hitem href] at hnone
        cases hnone
      · rw [hexit, somePageFailed_iff]
        exact ⟨Or.inr, fun hfailed => hfailed.elim hcondition id⟩

/-- The transactions: one that has finished, one that names two path ids in three
roles, and one whose page cannot be read.  The second path id has no page. -/
def mixedPages : ReportPages where
  txInfo tx _ :=
    if tx = 6 then .ok "No txState for operation".toList
    else if tx = 7 then .ok ("CdcPathId: <a href=\"?OwnerPathId=1&LocalPathId=3\"> ".toList ++
      "TargetPathId: <a href=\"?OwnerPathId=1&LocalPathId=2\"> ".toList ++
      "SourcePathId: <a href=\"?OwnerPathId=1&LocalPathId=3\"> ".toList)
    else .error ⟨.other, "timed out".toList⟩
  pathInfo key :=
    if key.localId = 2 then .ok "<pre>Path: /db/t\n".toList
    else .error ⟨.other, "refused".toList⟩

theorem complete_report_mixed :
    CompleteReport asciiInterpreter plainHtml mixedPages
      [⟨8, 0, "Drop".toList, "Wait".toList, "1".toList⟩,
        ⟨7, 1, "Copy".toList, "Wait".toList, "1".toList⟩,
        ⟨6, 0, "Drop".toList, "Done".toList, "1".toList⟩,
        ⟨7, 0, "Drop".toList, "Wait".toList, "1".toList⟩] := by
  refine (complete_report_iff asciiInterpreter plainHtml mixedPages _ (by decide)).mpr ?_
  refine fun _ => Or.inl ⟨_, List.mem_cons_self, Or.inl ⟨_, rfl, 't', ?_, ?_⟩⟩
  · decide
  · decide

/-- Pages whose requests run out of memory: `str(MemoryError())` is empty. -/
def exhaustedPages : ReportPages where
  txInfo _ _ := .error ⟨.other, []⟩
  pathInfo _ := .error ⟨.other, []⟩

/-- The page of the only sub-operation cannot be read, and the exit code is 0. -/
theorem blank_exception_exits_zero :
    (report [loadTxInfo asciiInterpreter plainHtml exhaustedPages
        ⟨7, 0, "Drop".toList, "Wait".toList, "1".toList⟩] []).exitCode = 0 ∧
      ¬ CompleteReport asciiInterpreter plainHtml exhaustedPages
        [⟨7, 0, "Drop".toList, "Wait".toList, "1".toList⟩] := by
  have hexit : (report [loadTxInfo asciiInterpreter plainHtml exhaustedPages
      ⟨7, 0, "Drop".toList, "Wait".toList, "1".toList⟩] []).exitCode = 0 := by
    decide +kernel
  refine ⟨hexit, ?_⟩
  rintro ⟨_, _, _, _, _, hruns⟩
  obtain ⟨_, _, hcode⟩ := hruns _ [] ⟨List.Perm.refl _, List.Perm.refl _⟩
  have hfailed := hcode.mpr (Or.inl ⟨_, List.mem_singleton.mpr rfl, Or.inl ⟨_, rfl⟩⟩)
  rw [List.map_singleton, hexit] at hfailed
  cases hfailed

end Complete

end SchemeOperations
end YdbSnippets
