import YdbSnippets.Python.Dict
import YdbSnippets.Python.Hex
import YdbSnippets.Lists.Matching
import Mathlib.Data.Char
import Mathlib.Data.List.Lex
import Mathlib.Data.Prod.Lex

/-!
# Fingerprints of table schemas

`schema_analyzer.py` groups the tables of a database by a fingerprint of their
schema.
-/

namespace YdbSnippets
namespace Schemas

open Python

section Descriptions

/-- What the tool uses of a column: its name and the message of its type. -/
structure Column (τ : Type) where
  name : Str
  typePb : τ

/-- What the tool uses of an index; `whichType` is `to_pb().WhichOneof("type")`. -/
structure TableIndex where
  name : Str
  whichType : Option Str
  indexColumns : List Str
  dataColumns : List Str

/-- What the tool uses of `ydb.TableDescription`. -/
structure TableDescription (τ : Type) where
  columns : List (Column τ)
  primaryKey : List Str
  indexes : List TableIndex

/-- What the messages of types offer: `SerializeToString(deterministic=True)`,
if they have it, and `str`. -/
structure TypeMessages (τ : Type) where
  serializeToString : τ → Option (List UInt8)
  str : τ → Str

/-- `raw.hex()` -/
def hex (raw : List UInt8) : Str :=
  hexOf (raw.map UInt8.toBitVec)

variable {τ : Type} (messages : TypeMessages τ)

/-- `serialize_type` -/
def serializeType (column : Column τ) : Str :=
  match messages.serializeToString column.typePb with
  | some raw => hex raw
  | none => messages.str column.typePb

/-- `index_kind` -/
def indexKind (index : TableIndex) : Str :=
  match index.whichType with
  | some (c :: kind) => c :: kind
  | _ => "unknown".toList

/-- `SchemaFingerprint` -/
structure SchemaFingerprint where
  columnCount : Nat
  columnTypes : List Str
  primaryKeyCount : Nat
  primaryKeyTypes : List Str
  indexSignatures : List (Str ×ₗ List Str ×ₗ List Str)
deriving DecidableEq

/-- `type_by_col_name` -/
def typeByColName (desc : TableDescription τ) : List (Str × Str) :=
  (desc.columns.map fun column => (column.name, serializeType messages column)).foldl
    (fun d item => Dict.setItems item.1 item.2 d) []

/-- `type_by_col_name.get(col_name, "<unknown>")` for a list of names. -/
def columnTypesOf (types : List (Str × Str)) (names : List Str) : List Str :=
  names.map fun name => (types.lookup name).getD "<unknown>".toList

/-- `schema_fingerprint` -/
def schemaFingerprint (desc : TableDescription τ) : SchemaFingerprint :=
  let types := typeByColName messages desc
  let signatures := desc.indexes.map fun index =>
    toLex (indexKind index, toLex (columnTypesOf types index.indexColumns,
      columnTypesOf types index.dataColumns))
  { columnCount := desc.columns.length
    columnTypes := (types.map Prod.snd).mergeSort fun a b => decide (a ≤ b)
    primaryKeyCount := desc.primaryKey.length
    primaryKeyTypes := columnTypesOf types desc.primaryKey
    indexSignatures := signatures.mergeSort fun a b => decide (a ≤ b) }

/-- `group_tables_by_schema`; `describeTable` is the answer of the database. -/
def groupTablesBySchema
    {ε : Type} (describeTable : Str → Except ε (TableDescription τ)) (skipDescribeErrors : Bool) :
    List Str → List (SchemaFingerprint × List Str) →
      Except ε (List (SchemaFingerprint × List Str))
  | [], groups => .ok groups
  | path :: rest, groups =>
      match describeTable path with
      | .error e =>
          if skipDescribeErrors then
            groupTablesBySchema describeTable skipDescribeErrors rest groups
          else .error e
      | .ok desc =>
          let key := schemaFingerprint messages desc
          groupTablesBySchema describeTable skipDescribeErrors rest
            (Dict.setItems key ((groups.lookup key).getD [] ++ [path]) groups)

end Descriptions

end Schemas
end YdbSnippets
