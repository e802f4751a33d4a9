import YdbSnippets.Lists.Firsts
import YdbSnippets.Lists.Sorting
import YdbSnippets.Lists.Worklist
import YdbSnippets.Tablets.Describes
import Mathlib.Data.Char
import Mathlib.Data.List.Lex
import Mathlib.Data.Prod.Lex

/-!
# Discovering the objects of a database

`manage_tablets.py` walks the scheme directories below a start path, and looks
below every table for what no listing shows: the tables of its secondary indexes
and the topics of its changefeeds.
-/

namespace YdbSnippets
namespace Tablets

open Python Text Sorting Firsts Matching Viewer

section Answers

/-- What the viewer answers, after the retries: a listing of a path, and the
describe of a path with further query parameters. -/
structure SchemeAnswers where
  listDirectory : Str → Except PyException Json
  describePath : Str → Str → Except PyException Json

/-- `CDC_DESCRIBE_QUERY` -/
def cdcDescribeQuery : Str :=
  "children=true&partitioning_info=false&partition_config=false&backup=false".toList

/-- `(path, scheme_type)` -/
structure SchemeObject where
  path : Str
  schemeType : Str
deriving DecidableEq, Repr

/-- The order in which Python sorts such pairs. -/
def SchemeObject.key (object : SchemeObject) : Str ×ₗ Str :=
  toLex (object.path, object.schemeType)

/-- The errors that are kept for a path, before they are printed. -/
inductive DescribeError
  | raised (exc : PyException)
  | status (status : Json)
  | builtin (e : BuiltinError)
  | noPayload
  | fallbackFailed (e : PageError)
  | noShards
deriving Repr

/-- What a search has found, and the paths it could not read. -/
structure Found where
  objects : List SchemeObject
  errors : List (Str × DescribeError)

def Found.empty : Found where
  objects := []
  errors := []

def Found.join (results : List Found) : Found where
  objects := results.flatMap Found.objects
  errors := results.flatMap Found.errors

/-- `DIRECTORY_TYPES` -/
def directoryTypes : List Str :=
  ["DIRECTORY", "DATABASE", "COLUMN_STORE"].map String.toList

/-- `TOPIC_SCHEME_TYPES` -/
def topicSchemeTypes : List Str :=
  ["TOPIC", "PERS_QUEUE_GROUP"].map String.toList

def tableType : Str :=
  "TABLE".toList

end Answers

section Listings

variable (py : Interpreter) (printer : Printer)

/-- `directory_self_type` -/
def directorySelfType (data : Json) : Except BuiltinError Str :=
  let selfEntry :=
    match data.get "self", data.get "Self" with
    | .ok lower, .ok upper => (lower.orElse upper).orElse Json.emptyObj
    | _, _ => Json.emptyObj
  if selfEntry.isDict then do
    let upper ← selfEntry.get "Type"
    let value ← selfEntry.getOr "type" upper
    schemeTypeName py printer value
  else return []

/-- The items of `iter_children`. -/
def iterChildren (data : Json) : Except BuiltinError (List Json) :=
  if data.isDict then do
    let lower ← data.get "children"
    let upper ← data.get "Children"
    let children := if lower.isNone then upper else lower
    (children.orElse Json.emptyArr).iterate
  else return []

/-- A child as a listing shows it. -/
structure Child where
  name : Str
  schemeType : Str
deriving DecidableEq, Repr

/-- A child that is a dictionary and has a name. -/
def readChild (child : Json) : Except BuiltinError (Option Child) :=
  if child.isDict then do
    let upperName ← child.get "Name"
    let name ← child.getOr "name" upperName
    if !name.truthy then return none
    let upperType ← child.get "Type"
    let value ← child.getOr "type" upperType
    let schemeType ← schemeTypeName py printer value
    return some ⟨name.text printer, schemeType⟩
  else return none

/-- What is read of the listing of a path. -/
structure Listing where
  selfType : Str
  children : List Child

def readListing (data : Json) : Except BuiltinError Listing := do
  let items ← iterChildren data
  let selfType ← directorySelfType py printer data
  let children ← items.mapM (readChild py printer)
  return ⟨selfType, children.reduceOption⟩

end Listings

section StartPath

/-- `path.rsplit('/', 1)[0]` -/
def parentPath (path : Str) : Str :=
  match lastIndex '/' path with
  | some i => path.take i
  | none => path

theorem length_parentPath_lt
    {path : Str}
    (h : parentPath path ≠ path) :
    (parentPath path).length < path.length := by
  unfold parentPath at h ⊢
  split
  · next i hi =>
      obtain ⟨hget, -⟩ := lastIndex_eq_some_iff.mp hi
      obtain ⟨hlt, -⟩ := List.getElem?_eq_some_iff.mp hget
      rw [List.length_take]
      omega
  · next hnone =>
      rw [hnone] at h
      exact absurd rfl h

variable (py : Interpreter) (printer : Printer) (viewer : SchemeAnswers) (database : Str)

/-- The candidate is listed as a directory. -/
def isWalkable (candidate : Str) : Except BuiltinError Bool :=
  match viewer.listDirectory candidate with
  | .error _ => .ok false
  | .ok data => do
      let selfType ← directorySelfType py printer data
      return decide (selfType ∈ directoryTypes)

/-- The loop of `resolve_start_path`. -/
def resolveFrom (candidate : Str) : Except BuiltinError Str := do
  let walkable ← isWalkable py printer viewer candidate
  if walkable then return candidate
  else if parentPath candidate = [] ∨ parentPath candidate = candidate ∨
      (parentPath candidate).length < database.length then return database
  else resolveFrom (parentPath candidate)
termination_by candidate.length
decreasing_by exact length_parentPath_lt (by tauto)

/-- `resolve_start_path` -/
def resolveStartPath : Option Str → Except BuiltinError Str
  | none => .ok database
  | some pre => if pre = database then .ok database else resolveFrom py printer viewer database pre

end StartPath

section Walk

/-- What is looked for. -/
structure Search where
  schemeTypes : List Str
  pre : Option Str
  includeSys : Bool

/-- `want_cdc` -/
def Search.wantCdc (search : Search) : Bool :=
  search.schemeTypes.any fun schemeType => decide (schemeType ∈ topicSchemeTypes)

/-- `want_index_tablets` -/
def Search.wantIndexTablets (search : Search) : Bool :=
  decide (tableType ∈ search.schemeTypes)

/-- The type is looked for, and the path is not outside the prefix. -/
def Search.selects (search : Search) (path schemeType : Str) : Bool :=
  decide (schemeType ∈ search.schemeTypes) && pathMatchesPrefix path search.pre

/-- The tables of indexes or the topics of changefeeds are looked for below the
child. -/
def Search.descends (search : Search) (path : Str) (child : Child) : Bool :=
  (search.wantCdc || search.wantIndexTablets) && child.schemeType == tableType &&
    pathsIntersect (joinPath path child.name) search.pre

/-- The child is a directory that is walked. -/
def Search.walks (search : Search) (path : Str) (child : Child) : Bool :=
  decide (child.schemeType ∈ directoryTypes) &&
    (search.includeSys || child.name.head? != some '.') &&
    pathsIntersect (joinPath path child.name) search.pre

/-- What the visit of a path adds to the results and to the queue. -/
structure Visit where
  objects : List SchemeObject
  listingErrors : List (Str × DescribeError)
  nestedTables : List Str
  next : List Str

/-- The children of a path for which this holds. -/
def childPaths (path : Str) (children : List Child) (keep : Child → Bool) : List Str :=
  (children.filter keep).map fun child => joinPath path child.name

/-- The body of the loop of `collect_objects`, from what is listed. -/
def Search.visitListing (search : Search) (path : Str) (listing : Listing) : Visit where
  objects :=
    (if search.selects path listing.selfType then [⟨path, listing.selfType⟩] else []) ++
      (listing.children.filter fun child =>
        search.selects (joinPath path child.name) child.schemeType).map fun child =>
          ⟨joinPath path child.name, child.schemeType⟩
  listingErrors := []
  nestedTables := childPaths path listing.children (search.descends path)
  next := childPaths path listing.children (search.walks path)

variable (py : Interpreter) (printer : Printer) (viewer : SchemeAnswers) (search : Search)

/-- The body of the loop of `collect_objects`. -/
def visit (path : Str) : Except BuiltinError Visit :=
  match viewer.listDirectory path with
  | .error exc => .ok ⟨[], [(path, .raised exc)], [], []⟩
  | .ok data => do
      let listing ← readListing py printer data
      return search.visitListing path listing

/-- The variables of `collect_objects`. -/
structure CollectState where
  queue : List Str
  seenDirs : List Str
  objects : List SchemeObject
  listingErrors : List (Str × DescribeError)
  nestedTables : List Str

/-- One turn of the loop. -/
def collectStep (s : CollectState) : Except BuiltinError CollectState :=
  match s.queue with
  | [] => .ok s
  | path :: rest =>
      if path ∈ s.seenDirs then .ok { s with queue := rest }
      else do
        let v ← visit py printer viewer search path
        return {
          queue := rest ++ v.next
          seenDirs := s.seenDirs ++ [path]
          objects := s.objects ++ v.objects
          listingErrors := s.listingErrors ++ v.listingErrors
          nestedTables := s.nestedTables ++ v.nestedTables }

/-- The loop, or `none` if it is still running after this many turns. -/
def collectLoop : Nat → CollectState → Option (Except BuiltinError CollectState)
  | 0, s => if s.queue = [] then some (.ok s) else none
  | fuel + 1, s =>
      if s.queue = [] then some (.ok s)
      else
        match collectStep py printer viewer search s with
        | .error e => some (.error e)
        | .ok next => collectLoop fuel next

/-- What `collect_objects` returns. -/
structure Collected where
  objects : List SchemeObject
  listingErrors : List (Str × DescribeError)
  nestedTables : List Str

/-- The lists that are returned when the loop is over. -/
def CollectState.result (s : CollectState) : Collected where
  objects := firstsFrom SchemeObject.path [] (sortedBy SchemeObject.key s.objects)
  listingErrors := s.listingErrors
  nestedTables := sortedBy id s.nestedTables.eraseDups

/-- `collect_objects` -/
def collectObjects (startPath : Str) (fuel : Nat) : Option (Except BuiltinError Collected) :=
  (collectLoop py printer viewer search fuel ⟨[startPath], [], [], [], []⟩).map fun result =>
    result.map CollectState.result

end Walk

section Entries

variable (py : Interpreter) (printer : Printer)

/-- `_entry_name` -/
def entryName (entry : Json) : Except BuiltinError Str :=
  if entry.isDict then do
    let lower ← entry.get "name"
    let name ← entry.getOr "Name" lower
    return if name.isNone then [] else name.text printer
  else return []

/-- `_entry_type` -/
def entryType (entry : Json) : Except BuiltinError Str :=
  if entry.isDict then
    if entry.hasKey "PathType" || entry.hasKey "pathType" then do
      let lower ← entry.get "pathType"
      let value ← entry.getOr "PathType" lower
      schemeTypeName py printer value
    else do
      let upper ← entry.get "Type"
      let value ← entry.getOr "type" upper
      schemeTypeName py printer value
  else return []

/-- `_entry_subtype` -/
def entrySubtype (entry : Json) : Except BuiltinError Str :=
  if entry.isDict then do
    let lower ← entry.get "pathSubType"
    let value ← entry.getOr "PathSubType" lower
    schemeTypeName py printer value
  else return []

/-- `_path_description` -/
def pathDescription (describe : Json) : Except BuiltinError Json :=
  if describe.isDict then dictField describe "PathDescription" else return Json.emptyObj

/-- `_table_description` -/
def tableDescription (describe : Json) : Except BuiltinError Json := do
  let description ← pathDescription describe
  dictField description "Table"

/-- `LOCAL_INDEX_TYPES` -/
def localIndexTypes : List Str :=
  ["LOCALBLOOMFILTER", "LOCALBLOOMNGRAMFILTER", "LOCALMINMAX", "LOCALCOUNTMINSKETCH"].map
    String.toList

/-- `index_type_name` of a dictionary, from the value under `Type`. -/
def indexTypeOfValue (value : Json) : Except BuiltinError Str :=
  let named :=
    let text := printer.upper (afterLastDot (strip (value.text printer)))
    dropFirstPrefix text ["EINDEXTYPE"]
  match value with
  | .null | .bool _ => .ok []
  | .int n => .ok (nameOfNumber indexTypeByNumber n [])
  | .str s =>
      if allDigits py (strip s) then
        match parseInt py s with
        | none => .error .valueError
        | some n => .ok (nameOfNumber indexTypeByNumber n [])
      else .ok named
  | _ => .ok named

/-- `index_type_name` -/
def indexTypeName (index : Json) : Except BuiltinError Str :=
  if index.isDict then do
    let lower ← index.get "type"
    let value ← index.getOr "Type" lower
    indexTypeOfValue py printer value
  else return []

/-- `index_may_have_impl_table` -/
def indexMayHaveImplTable (index : Json) : Except BuiltinError Bool := do
  let kind ← indexTypeName py printer index
  return decide (kind = []) ||
    (!decide (kind ∈ localIndexTypes) && kind != "INVALID".toList)

/-- `is_index_impl_child` -/
def isIndexImplChild (child : Json) : Except BuiltinError Bool := do
  let childType ← entryType py printer child
  let subtype ← entrySubtype py printer child
  return childType == tableType || occurs "INDEXIMPLTABLE".toList subtype

/-- The path of an entry with a name, if the entry is kept. -/
def namedPath (owner : Str) (keep : Json → Except BuiltinError Bool) (entry : Json) :
    Except BuiltinError (Option Str) := do
  let name ← entryName printer entry
  if name = [] then return none
  let kept ← keep entry
  return if kept then some (joinPath owner name) else none

/-- `'Children' in path_description or 'children' in path_description` -/
def listsChildren (description : Json) : Except BuiltinError Bool := do
  let upper ← description.contains "Children"
  if upper then return true
  description.contains "children"

/-- The paths of the named entries that are kept. -/
def namedPaths (owner : Str) (keep : Json → Except BuiltinError Bool) (entries : List Json) :
    Except BuiltinError (List Str) := do
  let paths ← entries.mapM (namedPath printer owner keep)
  return paths.reduceOption

/-- The children of a description that lists them. -/
def listedChildren (description : Json) : Except BuiltinError (List Json) := do
  let upper ← description.get "Children"
  let lower ← description.get "children"
  (if upper.isNone then lower.orElse Json.emptyArr else upper).iterate

/-- The descriptions of the tables of an index. -/
def implDescriptions (index : Json) : Except BuiltinError (List Json) :=
  listField (index.orElse Json.emptyObj) "IndexImplTableDescriptions"

/-- `index_impl_paths` -/
def indexImplPaths (indexPath : Str) (index indexDescribe : Json) :
    Except BuiltinError (List Str) := do
  let description ← pathDescription indexDescribe
  let listed ← listsChildren description
  if listed then
    let children ← listedChildren description
    namedPaths printer indexPath (isIndexImplChild py printer) children
  else
    let descriptions ← implDescriptions index
    let named ← namedPaths printer indexPath (fun _ => .ok true) descriptions
    return if named ≠ [] then named else [joinPath indexPath "indexImplTable".toList]

end Entries

section Nested

variable (py : Interpreter) (printer : Printer) (viewer : SchemeAnswers) (search : Search)

/-- The changefeeds that a describe lists. -/
def streamEntries (describe : Json) : Except BuiltinError (List Json) := do
  let description ← dictField (describe.orElse Json.emptyObj) "PathDescription"
  let table ← dictField description "Table"
  listField table "CdcStreams"

/-- `cdc_stream_paths_from_table` -/
def cdcStreamPathsFromTable (tablePath : Str) (describe : Json) :
    Except BuiltinError (List Str) := do
  let streams ← streamEntries describe
  let paths ← namedPaths printer tablePath (fun _ => .ok true) streams
  return paths.filter fun path => pathsIntersect path search.pre

/-- The child is a topic of a changefeed. -/
def isStreamTopic (child : Json) : Except BuiltinError Bool := do
  let childType ← entryType py printer child
  if childType ∈ topicSchemeTypes then return true
  let subtype ← entrySubtype py printer child
  let name ← entryName printer child
  return subtype == "STREAM_IMPL".toList || name == "streamImpl".toList

/-- The children that the describe of a changefeed lists. -/
def streamChildren (describe : Json) : Except BuiltinError (List Json) := do
  let description ← dictField (describe.orElse Json.emptyObj) "PathDescription"
  listField description "Children"

/-- `pq_children_of_stream` -/
def pqChildrenOfStream (streamPath : Str) (describe : Json) :
    Except BuiltinError (List Str) := do
  let children ← streamChildren describe
  let paths ← namedPaths printer streamPath (isStreamTopic py printer) children
  let candidates :=
    if children = [] then [joinPath streamPath "streamImpl".toList] else paths
  return candidates.filter fun path => pathMatchesPrefix path search.pre

/-- A describe that is read, or the error that is kept for the path. -/
def describeOutcome (path query : Str) : Except DescribeError Json :=
  match viewer.describePath path query with
  | .error exc => .error (.raised exc)
  | .ok described =>
      if describeIsSuccess printer described then .ok described
      else
        match described.get "Status" with
        | .ok status => .error (.status status)
        | .error _ => .error (.status described)

/-- The search below a path, from its describe. -/
def searchBelow (path : Str) (search : Json → Except BuiltinError Found) :
    Except BuiltinError Found :=
  match describeOutcome printer viewer path cdcDescribeQuery with
  | .error e => .ok ⟨[], [(path, e)]⟩
  | .ok described => search described

/-- The topics of a changefeed. -/
def topicsOfStream (streamPath : Str) : Except BuiltinError Found :=
  searchBelow printer viewer streamPath fun described => do
    let topics ← pqChildrenOfStream py printer search streamPath described
    return ⟨topics.map fun path => ⟨path, "PERS_QUEUE_GROUP".toList⟩, []⟩

/-- `cdc_topics_under` -/
def cdcTopicsUnder (ownerPath : Str) (described : Json) : Except BuiltinError Found := do
  let streams ← cdcStreamPathsFromTable printer search ownerPath described
  let results ← streams.mapM (topicsOfStream py printer viewer search)
  return Found.join results

/-- The topics below a table of an index. -/
def topicsOfImpl (implPath : Str) : Except BuiltinError Found :=
  if search.wantCdc && pathsIntersect implPath search.pre then
    searchBelow printer viewer implPath (cdcTopicsUnder py printer viewer search implPath)
  else return Found.empty

/-- A table of an index, and the topics below it. -/
def searchImpl (implPath : Str) : Except BuiltinError Found := do
  let table : Found :=
    ⟨if search.wantIndexTablets && pathMatchesPrefix implPath search.pre then
      [⟨implPath, tableType⟩] else [], []⟩
  let topics ← topicsOfImpl py printer viewer search implPath
  return Found.join [table, topics]

/-- The tables of an index that is described. -/
def searchDescribedIndex (indexPath : Str) (index described : Json) :
    Except BuiltinError Found := do
  let impls ← indexImplPaths py printer indexPath index described
  let results ← impls.mapM (searchImpl py printer viewer search)
  return Found.join results

/-- The path of an index whose tables are looked for. -/
def indexPathOf (tablePath : Str) (index : Json) : Except BuiltinError (Option Str) :=
  if index.isDict then do
    let mayHave ← indexMayHaveImplTable py printer index
    if !mayHave then return none
    let path ← namedPath printer tablePath (fun _ => .ok true) index
    return path.filter fun path => pathsIntersect path search.pre
  else return none

/-- One index of a table. -/
def searchIndex (tablePath : Str) (index : Json) : Except BuiltinError Found := do
  match ← indexPathOf py printer search tablePath index with
  | none => return Found.empty
  | some indexPath =>
      searchBelow printer viewer indexPath
        (searchDescribedIndex py printer viewer search indexPath index)

/-- The indexes that the describe of a table lists. -/
def indexEntries (describe : Json) : Except BuiltinError (List Json) := do
  let table ← tableDescription describe
  listField table "TableIndexes"

/-- The topics of the changefeeds of a table. -/
def topicsOfTable (tablePath : Str) (described : Json) : Except BuiltinError Found :=
  if search.wantCdc then cdcTopicsUnder py printer viewer search tablePath described
  else return Found.empty

/-- `discover_nested_for_table`, from the describe of the table. -/
def searchDescribedTable (tablePath : Str) (described : Json) : Except BuiltinError Found := do
  let topics ← topicsOfTable py printer viewer search tablePath described
  let indexes ← indexEntries described
  let results ← indexes.mapM (searchIndex py printer viewer search tablePath)
  return Found.join (topics :: results)

/-- `discover_nested_for_table` -/
def discoverNestedForTable (tablePath : Str) : Except BuiltinError Found :=
  searchBelow printer viewer tablePath (searchDescribedTable py printer viewer search tablePath)

end Nested

end Tablets
end YdbSnippets
