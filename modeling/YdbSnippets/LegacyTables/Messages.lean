import Mathlib.Logic.Basic

/-!
# The scheme messages of the legacy-table tools

The subset of YDB's internal scheme protocol that `repair-legacy-tables`
declares.  The messages are proto2, so every singular field records whether
it is set; `Get…` in the generated code reads an unset field as its zero
value and an absent message as one with no field set.
-/

namespace YdbSnippets
namespace LegacyTables

/-- Go strings, compared and cut as sequences of characters. -/
abbrev GoString := List Char

/-- `TStorageSettings` -/
structure TStorageSettings where
  preferredPoolKind : Option GoString
deriving DecidableEq, Repr

/-- `TStorageConfig` -/
structure TStorageConfig where
  sysLog : Option TStorageSettings
  log : Option TStorageSettings
  data : Option TStorageSettings
  external : Option TStorageSettings
deriving DecidableEq, Repr

/-- `TFamilyDescription` -/
structure TFamilyDescription where
  id : Option UInt32
  name : Option GoString
  storageConfig : Option TStorageConfig
deriving DecidableEq, Repr

/-- `TFamilyDescription.GetId` -/
def TFamilyDescription.getId (f : TFamilyDescription) : UInt32 :=
  f.id.getD 0

/-- `TPartitionConfig` -/
structure TPartitionConfig where
  channelProfileId : Option UInt32
  columnFamilies : List TFamilyDescription
deriving DecidableEq, Repr

/-- `TTableDescription` -/
structure TTableDescription where
  name : Option GoString
  partitionConfig : Option TPartitionConfig
  copyFromTable : Option GoString
deriving DecidableEq, Repr

/-- `EPathType`; a value the enumeration does not name keeps its number. -/
inductive EPathType
  | dir
  | table
  | subDomain
  | columnTable
  | unnamed (number : Nat)
deriving DecidableEq, Repr

/-- `TDirEntry` -/
structure TDirEntry where
  name : Option GoString
  pathType : Option EPathType
deriving DecidableEq, Repr

/-- `TDirEntry.GetPathType`: the first value of the enumeration stands for an
unset field. -/
def TDirEntry.getPathType (e : TDirEntry) : EPathType :=
  e.pathType.getD .dir

/-- `TPathDescription` -/
structure TPathDescription where
  self : Option TDirEntry
  children : List TDirEntry
  table : Option TTableDescription
deriving DecidableEq, Repr

/-- `TModifyScheme`: the three operations the repair uses, each with the
fields it fills. -/
inductive TModifyScheme
  | createTable
      (workingDir : GoString)
      (createTable : TTableDescription)
  | moveTable
      (srcPath dstPath : GoString)
  | dropTable
      (workingDir : GoString)
      (name : GoString)
deriving DecidableEq, Repr

/-- `TFlatTxId` -/
structure TFlatTxId where
  txId : Option Nat
  schemeShardTabletId : Option Nat
  pathId : Option Nat
deriving DecidableEq, Repr

/-- `TResponse` -/
structure TResponse where
  status : Option Nat
  errorReason : Option GoString
  schemeStatus : Option Int
  pathDescription : Option TPathDescription
  flatTxId : Option TFlatTxId
deriving DecidableEq, Repr

/-- `TResponse.GetStatus` -/
def TResponse.getStatus (r : TResponse) : Nat :=
  r.status.getD 0

/-- `TResponse.GetSchemeStatus` -/
def TResponse.getSchemeStatus (r : TResponse) : Int :=
  r.schemeStatus.getD 0

/-- `TResponse.GetErrorReason` -/
def TResponse.getErrorReason (r : TResponse) : GoString :=
  r.errorReason.getD []

/-- `resp.GetPathDescription().GetTable()` -/
def TResponse.getTable (r : TResponse) : Option TTableDescription :=
  r.pathDescription.bind TPathDescription.table

end LegacyTables
end YdbSnippets
