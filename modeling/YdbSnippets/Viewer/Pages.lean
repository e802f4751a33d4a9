import YdbSnippets.Python.Numbers
import YdbSnippets.Python.Patterns
import YdbSnippets.Tablets.Retries
import YdbSnippets.Viewer.HtmlTables

/-!
# The monitoring pages of SchemeShard

What `manage_tablets.py` and `scheme_operations.py` read from the pages
`Page=TxList`, `Page=TxInfo` and `Page=PathInfo` alike: links, path lines and
the list of the in-flight sub-operations.
-/

namespace YdbSnippets
namespace Viewer

open Python Text Tablets

section Libraries

/-- What the scripts use of the libraries for HTML and for URLs.  The parser may
raise an exception on malformed markup. -/
structure HtmlLibrary where
  /-- `html.unescape` -/
  unescape : Str → Str
  /-- `urllib.parse.parse_qs(query, keep_blank_values=False)` -/
  parseQs : Str → Dict Str (List Str)
  /-- The events of `html.parser` up to `close`. -/
  events : Str → Except PyException (List Event)

/-- What reading a page may raise. -/
inductive PageError
  | raised (exc : PyException)
  | noTransactionId (text : Str)
  | noTransactionTable (snippet : Str)
deriving DecidableEq, Repr

end Libraries

section Links

variable (py : Interpreter) (html : HtmlLibrary)

/-- `s.partition(':')`, or `none` if there is no colon. -/
def partitionColon (s : Str) : Option (Str × Str) :=
  match s.dropWhile (fun c => c != ':') with
  | [] => none
  | _ :: right => some (s.takeWhile (fun c => c != ':'), right)

/-- `cgi_params(href).get(key)` -/
def cgiParam (href : Option Str) (key : Str) : Option Str :=
  let href := html.unescape (href.getD [])
  let query :=
    match href.dropWhile (fun c => c != '?') with
    | [] => href
    | _ :: query => query
  ((html.parseQs query).get? key).bind List.getLast?

/-- `as_int(cgi_params(href).get(key))` -/
def intParam (href : Option Str) (key : String) : Option Int :=
  asInt py (cgiParam html href key.toList)

/-- A path id of SchemeShard. -/
structure PathId where
  owner : Int
  localId : Int
deriving DecidableEq, Repr

/-- `INVALID_PATH_ID` -/
def invalidPathId : Int := 2 ^ 64 - 1

/-- `is_valid_path_id`, of ids that were read. -/
def isValidPathId (key : PathId) : Bool :=
  key.owner != invalidPathId && key.localId != invalidPathId

/-- The valid path id in the target of a link. -/
def pathIdOfHref (href : Str) : Option PathId := do
  let owner ← intParam py html (some href) "OwnerPathId"
  let localId ← intParam py html (some href) "LocalPathId"
  if isValidPathId ⟨owner, localId⟩ then some ⟨owner, localId⟩ else none

end Links

section Scanning

/-- A match of `_TX_PATH_LINK`: the label and the target. -/
structure PathLink where
  label : Str
  href : Str
deriving DecidableEq, Repr

def pathLabels : List String :=
  ["TargetPathId", "SourcePathId", "CdcPathId"]

/-- `(['"])(.*?)\2`: what is quoted, and the rest of the text. -/
def quoted : Str → Option (Str × Str)
  | [] => none
  | quote :: text =>
      if quote = '"' ∨ quote = '\'' then
        let inside := text.takeWhile fun c => c != quote
        match text.dropWhile fun c => c != quote with
        | [] => none
        | _ :: rest => if '\n' ∈ inside then none else some (inside, rest)
      else none

/-- `:\s*<a\s+href=(['"])(.*?)\2`, in any case. -/
def afterPathLabel (text : Str) : Option (Str × Str) := do
  let text ← afterLiteral ":".toList text
  let text ← afterLiteral "<a".toList (skipSpaces text)
  if (text.head?.any isSpace) then
    let text ← afterLiteral "href=".toList (skipSpaces text)
    quoted text
  else none

/-- `_TX_PATH_LINK` at the start of the text: the match and what follows it. -/
def matchPathLink (text : Str) : Option (PathLink × Str) :=
  pathLabels.firstM fun label => do
    let rest ← afterLiteral label.toList text
    let (href, rest) ← afterPathLabel rest
    return (⟨text.take label.length, href⟩, rest)

/-- The scan of `_TX_PATH_LINK.finditer`; every step reads a character. -/
def pathLinksFrom : Nat → Str → List PathLink
  | 0, _ => []
  | _ + 1, [] => []
  | fuel + 1, c :: text =>
      match matchPathLink (c :: text) with
      | some (link, rest) => link :: pathLinksFrom fuel rest
      | none => pathLinksFrom fuel text

/-- `_TX_PATH_LINK.finditer` -/
def pathLinks (page : Str) : List PathLink :=
  pathLinksFrom page.length page

/-- `\s*Path: ` -/
def afterPathMark (text : Str) : Option Str :=
  let text := skipSpaces text
  if "Path: ".toList.isPrefixOf text then some (text.drop 6) else none

/-- `(?:^|>)\s*Path: ` at this place. -/
def matchPathLine (lineStart : Bool) (text : Str) : Option Str :=
  let here := if lineStart then afterPathMark text else none
  here <|>
    match text with
    | '>' :: rest => afterPathMark rest
    | _ => none

/-- The scan of `_PATH_LINE.findall`; every step reads a character. -/
def pathLinesFrom : Nat → Bool → Str → List Str
  | 0, _, _ => []
  | _ + 1, _, [] => []
  | fuel + 1, lineStart, c :: text =>
      match matchPathLine lineStart (c :: text) with
      | some rest =>
          rest.takeWhile (fun c => c != '\n') ::
            pathLinesFrom fuel false (rest.dropWhile fun c => c != '\n')
      | none => pathLinesFrom fuel (c == '\n') text

/-- `_PATH_LINE.findall` -/
def pathLines (page : Str) : List Str :=
  pathLinesFrom page.length true page

example : pathLines "<pre>Path: /a\n x\n  Path: /b".toList = ["/a".toList, "/b".toList] := by
  decide

/-- The path on a `Page=PathInfo`, or nothing. -/
def pagePath (html : HtmlLibrary) (page : Str) : Str :=
  let candidates := (pathLines page).map fun raw => strip (html.unescape raw)
  (candidates.find? fun path => !path.isEmpty).getD []

/-- `GONE_MARKERS` -/
def goneMarkers : List String :=
  ["Unknown Tx", "No txState for operation", "No operations for tx id",
    "No suboperations for operation"]

/-- A notice that the transaction has finished is on the page. -/
def isGonePage (html : HtmlLibrary) (page : Str) : Bool :=
  let text := html.unescape page
  goneMarkers.any fun marker => occurs marker.toList text

/-- `status` of a `Page=TxInfo`. -/
inductive TxStatus
  | ok
  | gone
  | unparsed
deriving DecidableEq, Repr

/-- The status of a page without links to paths. -/
def statusWithoutLinks (html : HtmlLibrary) (page : Str) : TxStatus :=
  if isGonePage html page then .gone else .unparsed

end Scanning

section Lists

variable (py : Interpreter) (html : HtmlLibrary)

/-- `_html_tables` -/
def pageTables (page : Str) : Except PageError (List Table) :=
  match html.events page with
  | .ok events => .ok (htmlTables py events)
  | .error exc => .error (.raised exc)

/-- `_table_header` -/
def tableHeader : Table → List Str
  | [] => []
  | row :: _ => row.map fun cell => py.lower (strip cell.text)

/-- `_table_header(table)[:len(headers)] == headers` -/
def hasHeader (headers : List String) (table : Table) : Bool :=
  (headers.map String.toList).isPrefixOf (tableHeader py table)

/-- The rows below the header with that many cells that do not start with a
header cell. -/
def dataRows (width : Nat) (table : Table) : List Row :=
  table.tail.filter fun row =>
    decide (width ≤ row.length) && !(row.head?.any Cell.header)

/-- A sub-operation of the list. -/
structure Operation where
  txId : Int
  partId : Int
  txType : Str
  state : Str
  shards : Str
deriving DecidableEq, Repr

/-- `_op_ids` -/
def opIds (href : Option Str) (text : Str) : Option Int × Option Int :=
  let txId := intParam py html href "TxId"
  let partId := intParam py html href "PartId"
  if txId = none ∨ partId = none then
    match partitionColon text with
    | some (left, right) => (asInt py (some left), asInt py (some right))
    | none => (txId, partId)
  else (txId, partId)

/-- One row of the transaction table. -/
def operationOfRow : Row → Except PageError Operation
  | id :: txType :: state :: shards :: _ =>
      match opIds py html id.href id.text with
      | (some txId, some partId) => .ok ⟨txId, partId, txType.text, state.text, shards.text⟩
      | _ => .error (.noTransactionId id.text)
  | row => .error (.noTransactionId ((row.map Cell.text).headD []))

/-- `TX_LIST_HEADERS` -/
def txListHeaders : List String :=
  ["opid", "type", "state", "shards in progress"]

/-- `parse_tx_list` -/
def parseTxList (page : Str) : Except PageError (List Operation) := do
  let tables ← pageTables py html page
  match tables.find? (hasHeader py txListHeaders) with
  | some table => (dataRows 4 table).mapM (operationOfRow py html)
  | none => .error (.noTransactionTable ((oneLine page).take 180))

end Lists

section Plain

/-- `parse_qs` of a query without escapes. -/
def plainQuery (query : Str) : Dict Str (List Str) :=
  let fields := (query.splitOn '&').filter fun field => '=' ∈ field
  let items := fields.map fun field =>
    (field.takeWhile fun c => c != '=', (field.dropWhile fun c => c != '=').drop 1)
  (items.filter fun item => !item.2.isEmpty).foldl
    (fun parsed item => parsed.modifyDefault item.1 [] fun values => values ++ [item.2])
    Dict.empty

/-- A tag without attributes, or with a target in double quotes. -/
def plainTag (inside : Str) : Event :=
  match inside with
  | '/' :: name => .endTag name
  | _ =>
      let name := inside.takeWhile fun c => c != ' '
      match splitAtLiteral "href=\"".toList inside with
      | some (_, rest) =>
          .startTag name [("href".toList, some (rest.takeWhile fun c => c != '"'))]
      | none => .startTag name []

/-- The tags and the texts between them; every step reads a character. -/
def plainEvents : Nat → Str → List Event
  | 0, _ => []
  | _ + 1, [] => []
  | fuel + 1, '<' :: text =>
      plainTag (text.takeWhile fun c => c != '>') ::
        plainEvents fuel ((text.dropWhile fun c => c != '>').drop 1)
  | fuel + 1, text =>
      .data (text.takeWhile fun c => c != '<') ::
        plainEvents fuel (text.dropWhile fun c => c != '<')

/-- The libraries on plain pages: no character references, no comments, and no
other attributes than targets. -/
def plainHtml : HtmlLibrary where
  unescape := id
  parseQs := plainQuery
  events page := .ok (plainEvents page.length page)

end Plain

end Viewer
end YdbSnippets
