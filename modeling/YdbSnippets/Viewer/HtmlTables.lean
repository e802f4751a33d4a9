import YdbSnippets.Python.Dict
import YdbSnippets.Python.Words

/-!
# The tables of a page

`_HtmlTables` of `manage_tablets.py` and `scheme_operations.py` collects the
rows of all tables from the events of `html.parser`.  The documents are trees:
tables hold rows, rows hold cells, and cells hold text, links and whole tables.
-/

namespace YdbSnippets
namespace Viewer

open Python

section Collector

/-- What `html.parser` reports. -/
inductive Event
  | startTag (tag : Str) (attrs : List (Str × Option Str))
  | endTag (tag : Str)
  | data (text : Str)
deriving DecidableEq, Repr

/-- A cell of a finished row. -/
structure Cell where
  text : Str
  href : Option Str
  header : Bool
deriving DecidableEq, Repr

abbrev Row := List Cell

abbrev Table := List Row

/-- `_cell`, while its row is read. -/
structure OpenCell where
  text : List Str
  href : Option Str
  header : Bool
deriving DecidableEq, Repr

/-- `_HtmlTables`; the innermost table is the head of the stack. -/
structure HtmlTables where
  tables : List Table
  stack : List Table
  row : Option Row
  cell : Option OpenCell
deriving DecidableEq, Repr

/-- The tags that the collector tells apart. -/
inductive Tag
  | table
  | tr
  | td
  | th
  | a
  | other
deriving DecidableEq, Repr

def tagOf (name : Str) : Tag :=
  if name = "table".toList then .table
  else if name = "tr".toList then .tr
  else if name = "td".toList then .td
  else if name = "th".toList then .th
  else if name = "a".toList then .a
  else .other

/-- The cell that `handle_endtag` appends to the row. -/
def OpenCell.close (cell : OpenCell) : Cell where
  text := oneLine cell.text.flatten
  href := cell.href
  header := cell.header

/-- `not self._cell['href']` -/
def noTarget (href : Option Str) : Bool :=
  (href.getD []).isEmpty

variable (py : Interpreter)

/-- `attrs.get('href')`, when the keys are in lower case. -/
def hrefOf (attrs : List (Str × Option Str)) : Option Str :=
  let attrs := Dict.ofItems (attrs.map fun item => (py.lower item.1, item.2))
  attrs.getD "href".toList none

/-- `handle_starttag` -/
def handleStarttag (s : HtmlTables) (tag : Str) (attrs : List (Str × Option Str)) :
    HtmlTables :=
  let tag := tagOf (py.lower tag)
  if tag = .table then { s with stack := [] :: s.stack, row := none, cell := none }
  else if s.stack = [] then s
  else if tag = .tr then { s with row := some [], cell := none }
  else if (tag = .td ∨ tag = .th) ∧ s.row.isSome then
    { s with cell := some ⟨[], none, tag = .th⟩ }
  else if tag = .a then
    match s.cell with
    | some cell =>
        if noTarget cell.href then { s with cell := some { cell with href := hrefOf py attrs } }
        else s
    | none => s
  else s

/-- `handle_endtag` -/
def handleEndtag (s : HtmlTables) (tag : Str) : HtmlTables :=
  let tag := tagOf (py.lower tag)
  if tag = .td ∨ tag = .th then
    match s.cell, s.row with
    | some cell, some row => { s with row := some (row ++ [cell.close]), cell := none }
    | _, _ => s
  else if tag = .tr then
    match s.row, s.stack with
    | some row, top :: below =>
        { s with stack := if row = [] then s.stack else (top ++ [row]) :: below, row := none }
    | _, _ => s
  else if tag = .table then
    match s.stack with
    | top :: below => { tables := s.tables ++ [top], stack := below, row := none, cell := none }
    | [] => s
  else s

/-- `handle_data` -/
def handleData (s : HtmlTables) (data : Str) : HtmlTables :=
  match s.cell with
  | some cell => { s with cell := some { cell with text := cell.text ++ [data] } }
  | none => s

def handle (s : HtmlTables) : Event → HtmlTables
  | .startTag tag attrs => handleStarttag py s tag attrs
  | .endTag tag => handleEndtag py s tag
  | .data text => handleData s text

/-- The collector after these events. -/
def feed (s : HtmlTables) (events : List Event) : HtmlTables :=
  events.foldl (handle py) s

/-- `_html_tables`, from the events of the page. -/
def htmlTables (events : List Event) : List Table :=
  (feed py ⟨[], [], none, none⟩ events).tables

end Collector

section Documents

/-- Where a list of nodes stands: in a cell or outside of all tables, directly
in a table, or directly in a row. -/
inductive Level
  | content
  | table
  | row
deriving DecidableEq, Repr

variable (py : Interpreter)

/-- A name of the tag, in any case. -/
abbrev Spelling (tag : Tag) := {name : Str // tagOf (py.lower name) = tag}

/-- The tag of a data cell or of a header cell. -/
def cellTag (header : Bool) : Tag :=
  if header then .th else .td

/-- What may stand anywhere: texts, and tags of other elements, opened and closed
in any order. -/
inductive Inline
  | text (data : Str)
  | link (name : Spelling py .a) (attrs : List (Str × Option Str))
  | linkEnd (name : Spelling py .a)
  | other (name : Spelling py .other) (attrs : List (Str × Option Str))
  | otherEnd (name : Spelling py .other)

/-- Properly nested nodes. -/
inductive Nodes : Level → Type
  | nil {l : Level} : Nodes l
  | inline {l : Level} (item : Inline py) (rest : Nodes l) : Nodes l
  | table {l : Level} (name endName : Spelling py .table) (attrs : List (Str × Option Str))
      (body : Nodes .table) (rest : Nodes l) : Nodes l
  | row (name endName : Spelling py .tr) (attrs : List (Str × Option Str))
      (body : Nodes .row) (rest : Nodes .table) : Nodes .table
  | cell (header : Bool) (name endName : Spelling py (cellTag header))
      (attrs : List (Str × Option Str)) (body : Nodes .content) (rest : Nodes .row) :
      Nodes .row

variable {py : Interpreter}

def Inline.event : Inline py → Event
  | .text data => .data data
  | .link name attrs => .startTag name attrs
  | .linkEnd name => .endTag name
  | .other name attrs => .startTag name attrs
  | .otherEnd name => .endTag name

def Inline.texts : Inline py → List Str
  | .text data => [data]
  | _ => []

def Inline.targets : Inline py → List (Option Str)
  | .link _ attrs => [hrefOf py attrs]
  | _ => []

/-- The events of the nodes in document order. -/
def Nodes.events : {l : Level} → Nodes py l → List Event
  | _, .nil => []
  | _, .inline item rest => item.event :: rest.events
  | _, .table name endName attrs body rest =>
      .startTag name attrs :: (body.events ++ .endTag endName :: rest.events)
  | _, .row name endName attrs body rest =>
      .startTag name attrs :: (body.events ++ .endTag endName :: rest.events)
  | _, .cell _ name endName attrs body rest =>
      .startTag name attrs :: (body.events ++ .endTag endName :: rest.events)

/-- There is a table among the nodes, at any depth. -/
def Nodes.hasTable : {l : Level} → Nodes py l → Bool
  | _, .nil => false
  | _, .inline _ rest => rest.hasTable
  | _, .table _ _ _ _ _ => true
  | _, .row _ _ _ body rest => body.hasTable || rest.hasTable
  | _, .cell _ _ _ _ body rest => body.hasTable || rest.hasTable

/-- The texts inside a cell. -/
def Nodes.texts : Nodes py .content → List Str
  | .nil => []
  | .inline item rest => item.texts ++ rest.texts
  | .table _ _ _ _ rest => rest.texts

/-- The targets of the links inside a cell. -/
def Nodes.targets : Nodes py .content → List (Option Str)
  | .nil => []
  | .inline item rest => item.targets ++ rest.targets
  | .table _ _ _ _ rest => rest.targets

/-- The first target that is not empty; the last one if all of them are. -/
def firstTarget : List (Option Str) → Option Str
  | [] => none
  | [target] => target
  | target :: rest => if noTarget target then firstTarget rest else target

/-- What is reported of a cell with this content. -/
def cellOf (header : Bool) (body : Nodes py .content) : Cell where
  text := oneLine body.texts.flatten
  href := firstTarget body.targets
  header := header

/-- The cells of a row. -/
def Nodes.cells : Nodes py .row → Row
  | .nil => []
  | .inline _ rest => rest.cells
  | .table _ _ _ _ rest => rest.cells
  | .cell header _ _ _ body rest => cellOf header body :: rest.cells

/-- A row is reported if it has a cell and no table in it. -/
def keptRow (body : Nodes py .row) : List Row :=
  if body.hasTable = false ∧ body.cells ≠ [] then [body.cells] else []

/-- The rows of a table that are reported. -/
def Nodes.rows : Nodes py .table → Table
  | .nil => []
  | .inline _ rest => rest.rows
  | .table _ _ _ _ rest => rest.rows
  | .row _ _ _ body rest => keptRow body ++ rest.rows

/-- All tables, an inner one before the one that contains it. -/
def Nodes.tables : {l : Level} → Nodes py l → List Table
  | _, .nil => []
  | _, .inline _ rest => rest.tables
  | _, .table _ _ _ body rest => body.tables ++ body.rows :: rest.tables
  | _, .row _ _ _ body rest => body.tables ++ rest.tables
  | _, .cell _ _ _ _ body rest => body.tables ++ rest.tables

theorem Nodes.tables_eq_nil
    {l : Level} {n : Nodes py l}
    (h : n.hasTable = false) :
    n.tables = [] := by
  induction n with
  | nil => rfl
  | inline item rest ih => exact ih h
  | table name endName attrs body rest => cases h
  | row name endName attrs body rest ihBody ihRest =>
      rw [hasTable, Bool.or_eq_false_iff] at h
      rw [tables, ihBody h.1, ihRest h.2, List.nil_append]
  | cell header name endName attrs body rest ihBody ihRest =>
      rw [hasTable, Bool.or_eq_false_iff] at h
      rw [tables, ihBody h.1, ihRest h.2, List.nil_append]

end Documents

section Targets

/-- One link of a cell: the first non-empty target is kept. -/
def keepTarget (href target : Option Str) : Option Str :=
  if noTarget href then target else href

theorem foldl_keepTarget_of_target
    {href : Option Str} (targets : List (Option Str))
    (h : noTarget href = false) :
    targets.foldl keepTarget href = href := by
  induction targets with
  | nil => rfl
  | cons target rest ih =>
      have hkeep : keepTarget href target = href := by
        rw [keepTarget, if_neg (by simp [h])]
      rw [List.foldl_cons, hkeep, ih]

/-- The links of a cell leave the first target. -/
theorem foldl_keepTarget
    (targets : List (Option Str)) :
    targets.foldl keepTarget none = firstTarget targets := by
  have hgeneral : ∀ target rest,
      List.foldl keepTarget target rest = firstTarget (target :: rest) := by
    intro target rest
    induction rest generalizing target with
    | nil => rfl
    | cons next rest ih =>
        rw [List.foldl_cons, firstTarget]
        · cases htarget : noTarget target with
          | true =>
              have hkeep : keepTarget target next = next := by
                rw [keepTarget, if_pos htarget]
              rw [hkeep, ih, if_pos rfl]
          | false =>
              have hkeep : keepTarget target next = target := by
                rw [keepTarget, if_neg (by simp [htarget])]
              rw [hkeep, foldl_keepTarget_of_target rest htarget, if_neg (by simp)]
        · simp
  cases targets with
  | nil => rfl
  | cons target rest => exact hgeneral target rest

/-- A cell has a target if one of its links has one, and it is the first of
those. -/
theorem firstTarget_eq_iff
    {targets : List (Option Str)} {target : Str}
    (hne : target ≠ []) :
    firstTarget targets = some target ↔
      ∃ before after, targets = before ++ some target :: after ∧
        ∀ t ∈ before, noTarget t = true := by
  have htarget : noTarget (some target) = false := by
    simpa [noTarget] using hne
  rw [← foldl_keepTarget]
  constructor
  · intro h
    have hgeneral : ∀ href, noTarget href = true → targets.foldl keepTarget href = some target →
        ∃ before after, targets = before ++ some target :: after ∧
          ∀ t ∈ before, noTarget t = true := by
      clear h
      induction targets with
      | nil =>
          intro href hno h
          rw [List.foldl_nil] at h
          rw [h, htarget] at hno
          cases hno
      | cons first rest ih =>
          intro href hno h
          rw [List.foldl_cons, keepTarget, if_pos hno] at h
          cases hfirst : noTarget first with
          | false =>
              rw [foldl_keepTarget_of_target rest hfirst] at h
              exact ⟨[], rest, by rw [h, List.nil_append], by simp⟩
          | true =>
              obtain ⟨before, after, hrest, hbefore⟩ := ih first hfirst h
              refine ⟨first :: before, after, by rw [hrest, List.cons_append], ?_⟩
              exact List.forall_mem_cons.mpr ⟨hfirst, hbefore⟩
    exact hgeneral none rfl h
  · rintro ⟨before, after, rfl, hbefore⟩
    have hskip : noTarget (before.foldl keepTarget none) = true := by
      induction before using List.reverseRecOn with
      | nil => rfl
      | append_singleton before last ih =>
          have hlast := hbefore last (by simp)
          have hno := ih fun t ht => hbefore t (by simp [ht])
          rw [List.foldl_append, List.foldl_cons, List.foldl_nil, keepTarget, if_pos hno]
          exact hlast
    rw [List.foldl_append, List.foldl_cons, keepTarget, if_pos hskip,
      foldl_keepTarget_of_target after htarget]

end Targets

section Runs

variable {py : Interpreter} {s : HtmlTables}

/-- Where the collector stands when it reads nodes of this level.  The row is
`none` from a table inside it up to its end. -/
def Ready : Level → HtmlTables → Prop
  | .content, s => s.cell ≠ none → s.stack ≠ []
  | .table, s => s.stack ≠ [] ∧ s.row = none ∧ s.cell = none
  | .row, s => s.cell = none ∧ (s.row ≠ none → s.stack ≠ [])

/-- The cell after these texts and links. -/
def OpenCell.read (cell : OpenCell) (texts : List Str) (targets : List (Option Str)) :
    OpenCell where
  text := cell.text ++ texts
  href := targets.foldl keepTarget cell.href
  header := cell.header

/-- The collector after a table: the row and the cell around it are lost. -/
def HtmlTables.found (s : HtmlTables) (tables : List Table) : HtmlTables :=
  { s with tables := s.tables ++ tables, row := none, cell := none }

/-- The collector after nodes of this level. -/
def Nodes.outcome : {l : Level} → Nodes py l → HtmlTables → HtmlTables
  | .content, n, s =>
      if n.hasTable then s.found n.tables
      else { s with cell := s.cell.map fun cell => cell.read n.texts n.targets }
  | .row, n, s =>
      if n.hasTable then s.found n.tables
      else { s with row := s.row.map fun row => row ++ n.cells }
  | .table, n, s =>
      { s.found n.tables with stack := s.stack.modifyHead fun rows => rows ++ n.rows }

theorem feed_cons
    (event : Event) (events : List Event) :
    feed py s (event :: events) = feed py (handle py s event) events := rfl

theorem feed_append
    (events others : List Event) :
    feed py s (events ++ others) = feed py (feed py s events) others :=
  List.foldl_append

/-- Outside of cells nothing but the tags of tables, rows and cells counts. -/
theorem handle_inline_of_no_cell
    (item : Inline py)
    (h : s.cell = none) :
    handle py s item.event = s := by
  cases item with
  | text data => simp [Inline.event, handle, handleData, h]
  | link name attrs => simp [Inline.event, handle, handleStarttag, name.property, h]
  | linkEnd name => simp [Inline.event, handle, handleEndtag, name.property]
  | other name attrs => simp [Inline.event, handle, handleStarttag, name.property]
  | otherEnd name => simp [Inline.event, handle, handleEndtag, name.property]

theorem handle_inline_of_cell
    {cell : OpenCell} (item : Inline py)
    (hcell : s.cell = some cell)
    (hstack : s.stack ≠ []) :
    handle py s item.event = { s with cell := some (cell.read item.texts item.targets) } := by
  obtain ⟨tables, stack, row, _⟩ := s
  subst hcell
  cases item with
  | text data => simp [Inline.event, handle, handleData, OpenCell.read, Inline.texts,
      Inline.targets]
  | link name attrs =>
      cases htarget : noTarget cell.href with
      | true => simp_all [Inline.event, handle, handleStarttag, name.property, OpenCell.read,
          Inline.texts, Inline.targets, keepTarget]
      | false => simp_all [Inline.event, handle, handleStarttag, name.property, OpenCell.read,
          Inline.texts, Inline.targets, keepTarget]
  | linkEnd name => simp [Inline.event, handle, handleEndtag, name.property, OpenCell.read,
      Inline.texts, Inline.targets]
  | other name attrs => simp_all [Inline.event, handle, handleStarttag, name.property,
      OpenCell.read, Inline.texts, Inline.targets]
  | otherEnd name => simp [Inline.event, handle, handleEndtag, name.property, OpenCell.read,
      Inline.texts, Inline.targets]

/-- A table is read: it is appended to the tables found, and what was being read
around it is lost. -/
theorem feed_table
    (name endName : Spelling py .table) (attrs : List (Str × Option Str))
    {body : Nodes py .table}
    (hbody : ∀ s, Ready .table s → feed py s body.events = body.outcome s) :
    feed py s (.startTag name attrs :: (body.events ++ [.endTag endName])) =
      s.found (body.tables ++ [body.rows]) := by
  have hstart : handle py s (.startTag name attrs) =
      { s with stack := [] :: s.stack, row := none, cell := none } := by
    simp [handle, handleStarttag, name.property]
  rw [feed_cons, hstart, feed_append, hbody _ ⟨List.cons_ne_nil _ _, rfl, rfl⟩]
  simp [Nodes.outcome, HtmlTables.found, feed, handle, handleEndtag, endName.property]

/-- A row is read: it is appended to its table if it is one to be kept. -/
theorem feed_row
    (name endName : Spelling py .tr) (attrs : List (Str × Option Str))
    {body : Nodes py .row}
    (hready : Ready .table s)
    (hbody : ∀ s, Ready .row s → feed py s body.events = body.outcome s) :
    feed py s (.startTag name attrs :: (body.events ++ [.endTag endName])) =
      { s.found body.tables with
        stack := s.stack.modifyHead fun rows => rows ++ keptRow body } := by
  obtain ⟨tables, stack, row, cell⟩ := s
  obtain ⟨hstack, rfl, rfl⟩ := hready
  obtain ⟨top, below, rfl⟩ := List.exists_cons_of_ne_nil hstack
  have hstart : handle py ⟨tables, top :: below, none, none⟩ (.startTag name attrs) =
      ⟨tables, top :: below, some [], none⟩ := by
    simp [handle, handleStarttag, name.property]
  rw [feed_cons, hstart, feed_append, hbody _ ⟨rfl, fun _ => List.cons_ne_nil _ _⟩]
  cases htable : body.hasTable with
  | true =>
      simp [Nodes.outcome, htable, HtmlTables.found, feed, handle, handleEndtag,
        endName.property, keptRow]
  | false =>
      have hnone := Nodes.tables_eq_nil htable
      by_cases hcells : body.cells = []
      · simp [Nodes.outcome, htable, hnone, hcells, HtmlTables.found, feed, handle,
          handleEndtag, endName.property, keptRow]
      · simp [Nodes.outcome, htable, hnone, hcells, HtmlTables.found, feed, handle,
          handleEndtag, endName.property, keptRow]

/-- A cell is read: it is appended to the row that is being read. -/
theorem feed_cell
    (header : Bool) (name endName : Spelling py (cellTag header))
    (attrs : List (Str × Option Str))
    {body : Nodes py .content}
    (hready : Ready .row s)
    (hbody : ∀ s, Ready .content s → feed py s body.events = body.outcome s) :
    feed py s (.startTag name attrs :: (body.events ++ [.endTag endName])) =
      if body.hasTable then s.found body.tables
      else { s with row := s.row.map fun row => row ++ [cellOf header body] } := by
  obtain ⟨tables, stack, row, cell⟩ := s
  obtain ⟨rfl, hstack⟩ := hready
  have hname : tagOf (py.lower name) = .td ∨ tagOf (py.lower name) = .th := by
    cases header
    · exact Or.inl name.property
    · exact Or.inr name.property
  have hend : tagOf (py.lower endName) = .td ∨ tagOf (py.lower endName) = .th := by
    cases header
    · exact Or.inl endName.property
    · exact Or.inr endName.property
  have hheader : decide (tagOf (py.lower name) = .th) = header := by
    cases header
    · exact decide_eq_false (by rw [name.property]; nofun)
    · exact decide_eq_true name.property
  cases row with
  | none =>
      -- The row has been lost to a table inside it: its cells are passed over.
      have hstart : handle py ⟨tables, stack, none, none⟩ (.startTag name attrs) =
          ⟨tables, stack, none, none⟩ := by
        rcases hname with hname | hname <;> simp [handle, handleStarttag, hname]
      rw [feed_cons, hstart, feed_append, hbody _ (fun h => absurd rfl h)]
      have hstop : ∀ t, handle py ⟨t, stack, none, none⟩ (.endTag endName) =
          ⟨t, stack, none, none⟩ := by
        intro t
        simp [handle, handleEndtag, hend]
      cases htable : body.hasTable with
      | true => simp [Nodes.outcome, htable, HtmlTables.found, feed, hstop]
      | false => simp [Nodes.outcome, htable, feed, hstop]
  | some row =>
      have hne : stack ≠ [] := hstack nofun
      have hstart : handle py ⟨tables, stack, some row, none⟩ (.startTag name attrs) =
          ⟨tables, stack, some row, some ⟨[], none, header⟩⟩ := by
        rcases hname with hname | hname <;>
          simp [handle, handleStarttag, hname, hne, ← hheader]
      rw [feed_cons, hstart, feed_append, hbody _ (fun _ => hne)]
      cases htable : body.hasTable with
      | true =>
          simp [Nodes.outcome, htable, HtmlTables.found, feed, handle, handleEndtag, hend]
      | false =>
          simp [Nodes.outcome, htable, feed, handle, handleEndtag, hend, OpenCell.read,
            OpenCell.close, foldl_keepTarget, cellOf]

/-- The tables before some nodes are found before the tables of the nodes. -/
theorem Nodes.outcome_found
    {l : Level} (n : Nodes py l) (tables : List Table)
    (hlevel : l ≠ .table) :
    n.outcome (s.found tables) = s.found (tables ++ n.tables) := by
  cases l with
  | table => exact absurd rfl hlevel
  | content =>
      cases htable : n.hasTable with
      | true => simp [outcome, htable, HtmlTables.found]
      | false => simp [outcome, htable, HtmlTables.found, tables_eq_nil htable]
  | row =>
      cases htable : n.hasTable with
      | true => simp [outcome, htable, HtmlTables.found]
      | false => simp [outcome, htable, HtmlTables.found, tables_eq_nil htable]

theorem ready_found
    {l : Level} (tables : List Table)
    (h : Ready l s) :
    Ready l (s.found tables) := by
  cases l with
  | content => exact fun hcell => absurd rfl hcell
  | table => exact ⟨h.1, rfl, rfl⟩
  | row => exact ⟨rfl, fun hrow => absurd rfl hrow⟩

/-- Reading properly nested nodes has the outcome of their level.  The induction
is on the nodes; the level says what the collector holds on to. -/
theorem feed_events
    {l : Level} (n : Nodes py l)
    (hready : Ready l s) :
    feed py s n.events = n.outcome s := by
  induction n generalizing s with
  | @nil l =>
      obtain ⟨tables, stack, row, cell⟩ := s
      cases l with
      | content => cases cell <;> simp [feed, Nodes.events, Nodes.outcome, Nodes.hasTable,
          OpenCell.read, Nodes.texts, Nodes.targets]
      | table =>
          obtain ⟨_, rfl, rfl⟩ := hready
          cases stack <;> simp [feed, Nodes.events, Nodes.outcome, HtmlTables.found,
            Nodes.tables, Nodes.rows]
      | row => cases row <;> simp [feed, Nodes.events, Nodes.outcome, Nodes.hasTable,
          Nodes.cells]
  | @inline l item rest ih =>
      rw [Nodes.events, feed_cons]
      cases hcell : s.cell with
      | none =>
          rw [handle_inline_of_no_cell item hcell, ih hready]
          cases l with
          | content => simp [Nodes.outcome, Nodes.hasTable, Nodes.tables, hcell]
          | table => simp [Nodes.outcome, HtmlTables.found, Nodes.tables, Nodes.rows]
          | row => simp [Nodes.outcome, Nodes.hasTable, Nodes.tables, Nodes.cells]
      | some cell =>
          cases l with
          | content =>
              have hstack : s.stack ≠ [] := hready (by rw [hcell]; nofun)
              have hrest : Ready .content
                  { s with cell := some (cell.read item.texts item.targets) } :=
                fun _ => hstack
              rw [handle_inline_of_cell item hcell hstack, ih hrest]
              simp [Nodes.outcome, Nodes.hasTable, Nodes.tables, hcell, HtmlTables.found,
                OpenCell.read, Nodes.texts, Nodes.targets]
          | table => exact absurd (hcell ▸ hready.2.2) nofun
          | row => exact absurd (hcell ▸ hready.1) nofun
  | @table l name endName attrs body rest ihBody ihRest =>
      have hevents : (Nodes.table name endName attrs body rest).events =
          (.startTag name attrs :: (body.events ++ [.endTag endName])) ++ rest.events := by
        simp [Nodes.events]
      rw [hevents, feed_append, feed_table name endName attrs fun s => ihBody,
        ihRest (ready_found _ hready)]
      cases l with
      | content =>
          rw [Nodes.outcome_found rest _ nofun]
          simp [Nodes.outcome, Nodes.hasTable, Nodes.tables]
      | table => simp [Nodes.outcome, HtmlTables.found, Nodes.tables, Nodes.rows]
      | row =>
          rw [Nodes.outcome_found rest _ nofun]
          simp [Nodes.outcome, Nodes.hasTable, Nodes.tables]
  | row name endName attrs body rest ihBody ihRest =>
      have hevents : (Nodes.row name endName attrs body rest).events =
          (.startTag name attrs :: (body.events ++ [.endTag endName])) ++ rest.events := by
        simp [Nodes.events]
      have hstack : s.stack ≠ [] := hready.1
      rw [hevents, feed_append, feed_row name endName attrs hready fun s => ihBody,
        ihRest ⟨by simpa using hstack, rfl, rfl⟩]
      simp [Nodes.outcome, HtmlTables.found, Nodes.tables, Nodes.rows, Function.comp_def]
  | cell header name endName attrs body rest ihBody ihRest =>
      have hevents : (Nodes.cell header name endName attrs body rest).events =
          (.startTag name attrs :: (body.events ++ [.endTag endName])) ++ rest.events := by
        simp [Nodes.events]
      rw [hevents, feed_append, feed_cell header name endName attrs hready fun s => ihBody]
      cases htable : body.hasTable with
      | true =>
          rw [if_pos rfl, ihRest (ready_found _ hready), Nodes.outcome_found rest _ nofun]
          simp [Nodes.outcome, Nodes.hasTable, htable, Nodes.tables]
      | false =>
          have hrest : Ready .row
              { s with row := s.row.map fun row => row ++ [cellOf header body] } :=
            ⟨hready.1, fun hrow => hready.2 (by simpa using hrow)⟩
          rw [if_neg (by simp), ihRest hrest]
          simp [Nodes.outcome, Nodes.hasTable, htable, Nodes.tables, HtmlTables.found,
            Nodes.tables_eq_nil htable, Nodes.cells, Function.comp_def]

end Runs

end Viewer
end YdbSnippets
