import YdbSnippets.Effects.Program
import YdbSnippets.LegacyTables.Messages
import YdbSnippets.Text.Search
import Mathlib.Algebra.Group.Nat.Defs

/-!
# The client of the legacy private gRPC server

`internal/client/client.go` as programs over the three stub calls.  What the
server answers, and whether a failed call took effect, is left to the
environment the programs run in.

Errors keep their call site and the values the message is built from.
-/

namespace YdbSnippets
namespace LegacyTables

open Effects Text

/-- `MStatusOK` -/
def mStatusOK : Nat := 1

/-- `MStatusInProgress` -/
def mStatusInProgress : Nat := 129

/-- `StatusPathDoesNotExist` -/
def statusPathDoesNotExist : Int := 2

/-- `defaultPollTimeout`, in nanoseconds. -/
def defaultPollTimeout : Nat := 120 * 1000000000

/-- `TSchemeDescribe` with the options the client sets. -/
structure TSchemeDescribe where
  path : GoString
  returnPartitioningInfo : Bool
  returnPartitionConfig : Bool
  returnChildren : Bool
  securityToken : Option GoString
deriving DecidableEq, Repr

/-- `TSchemeOperation` -/
structure TSchemeOperation where
  modifyScheme : TModifyScheme
  pollTimeout : Nat
  securityToken : Option GoString
deriving DecidableEq, Repr

/-- `TSchemeOperationStatus` -/
structure TSchemeOperationStatus where
  flatTxId : TFlatTxId
  pollTimeout : Nat
  securityToken : Option GoString
deriving DecidableEq, Repr

/-- What the tool asks of the outside: the three calls of
`TGRpcServerClient`, and printing the path of a repaired table. -/
inductive Call
  | schemeDescribe (req : TSchemeDescribe)
  | schemeOperation (req : TSchemeOperation)
  | schemeOperationStatus (req : TSchemeOperationStatus)
  | printPath (path : GoString)
deriving DecidableEq, Repr

/-- Every stub call is answered by a `TResponse`. -/
def stub : Signature where
  Op := Call
  Answer
    | .printPath _ => Unit
    | _ => TResponse

/-- The step of `repairOne` an error is wrapped with. -/
inductive RepairStage
  | copy
  | tempCopyCheck
  | renameToBackup
  | renameTempToOriginal
  | postCheck
  | dropBackup
deriving DecidableEq, Repr

/-- Errors of the tool, one constructor for each place that makes one. -/
inductive GoError
  | transport (text : GoString)
  | schemeDescribe (path : GoString) (cause : GoError)
  | schemeDescribeStatus (path : GoString) (status : Nat) (reason : GoString)
  | pathExistsStatus
      (path : GoString) (status : Nat) (schemeStatus : Int) (reason : GoString)
  | schemeOperation (cause : GoError)
  | inProgressWithoutFlatTxId
  | schemeOperationStatus (cause : GoError)
  | schemeOperationFailed (status : Nat) (reason : GoString)
  | invalidTablePath (path : GoString)
  | noPathDescriptionTable (path : GoString)
  | alreadyRepaired (path : GoString) (reason : String)
  | unsafeToRepair (path : GoString) (reason : String)
  | noTable (path : GoString)
  | expectedRepaired (path : GoString) (status reason : String)
  | helperPathExists (path extra : GoString)
  | repairStep (path : GoString) (stage : RepairStage) (cause : GoError)
  | poolKindRequired
  | tableOfBatch (index total : Nat) (cause : GoError)
deriving DecidableEq, Repr

/-- `errors.Is(err, ErrAlreadyRepaired)`, following the wrapped causes. -/
def GoError.isAlreadyRepaired : GoError → Bool
  | .alreadyRepaired _ _ => true
  | .schemeDescribe _ cause => cause.isAlreadyRepaired
  | .schemeOperation cause => cause.isAlreadyRepaired
  | .schemeOperationStatus cause => cause.isAlreadyRepaired
  | .repairStep _ _ cause => cause.isAlreadyRepaired
  | .tableOfBatch _ _ cause => cause.isAlreadyRepaired
  | _ => false

/-- Programs of the tool. -/
abbrev GoProgram (α : Type) := Program stub GoError α

/-- Return the error of `p` wrapped by `wrap`. -/
def wrapError {α : Type} (wrap : GoError → GoError) (p : GoProgram α) : GoProgram α :=
  p.tryCatch (fun e => .raise (wrap e))

/-- `Client`: the security token and the timeout in nanoseconds. -/
structure Client where
  token : GoString
  timeout : Nat
deriving DecidableEq, Repr

namespace Client

/-- `applyToken`: an empty token is not sent. -/
def securityToken (c : Client) : Option GoString :=
  if c.token = [] then none else some c.token

/-- The poll timeout `SchemeOperation` sends, in milliseconds as a `uint32`. -/
def pollMs (c : Client) : Nat :=
  if c.timeout / 1000000 % 2 ^ 32 = 0 then
    defaultPollTimeout / 1000000
  else
    c.timeout / 1000000 % 2 ^ 32

/-- `Describe` -/
def describe
    (c : Client) (path : GoString) (partitionConfig children : Bool) :
    GoProgram TResponse :=
  wrapError (.schemeDescribe path)
    (Program.perform (S := stub)
      (.schemeDescribe
        { path := path
          returnPartitioningInfo := false
          returnPartitionConfig := partitionConfig
          returnChildren := children
          securityToken := c.securityToken }))

/-- What `PathExists` makes of a describe response; `toLower` is Go's
`strings.ToLower`. -/
def pathExistsIn
    (toLower : GoString → GoString) (path : GoString) (resp : TResponse) :
    Except GoError Bool :=
  if resp.getStatus = mStatusOK then
    .ok true
  else if resp.getSchemeStatus = statusPathDoesNotExist then
    .ok false
  else
    let reason := toLower resp.getErrorReason
    if occurs "does not exist".toList reason ||
        occurs "path not found".toList reason ||
        occurs "doesn't exist".toList reason then
      .ok false
    else
      .error (.pathExistsStatus path
        resp.getStatus resp.getSchemeStatus resp.getErrorReason)

/-- `PathExists` -/
def pathExists
    (c : Client) (toLower : GoString → GoString) (path : GoString) :
    GoProgram Bool :=
  (c.describe path false false).bind
    (fun resp => Program.ofExcept (pathExistsIn toLower path resp))

/-- `MustDescribeOK` -/
def mustDescribeOK
    (c : Client) (path : GoString) (partitionConfig children : Bool) :
    GoProgram TResponse :=
  (c.describe path partitionConfig children).bind
    (fun resp =>
      if resp.getStatus ≠ mStatusOK then
        .raise (.schemeDescribeStatus path resp.getStatus resp.getErrorReason)
      else
        .pure resp)

/-- The request of `pollStatus`. -/
def statusRequest (c : Client) (tx : TFlatTxId) : TSchemeOperationStatus :=
  { flatTxId := tx
    pollTimeout := c.pollMs
    securityToken := c.securityToken }

/-- `pollStatus` -/
def pollStatus (c : Client) (tx : TFlatTxId) : GoProgram TResponse :=
  wrapError .schemeOperationStatus
    (Program.perform (S := stub) (.schemeOperationStatus (c.statusRequest tx)))

/-- The end of `SchemeOperation`: only `MSTATUS_OK` is a success. -/
def requireOK (resp : TResponse) : GoProgram TResponse :=
  if resp.getStatus ≠ mStatusOK then
    .raise (.schemeOperationFailed resp.getStatus resp.getErrorReason)
  else
    .pure resp

/-- The request of `SchemeOperation`. -/
def operationRequest (c : Client) (ms : TModifyScheme) : TSchemeOperation :=
  { modifyScheme := ms
    pollTimeout := c.pollMs
    securityToken := c.securityToken }

/-- `SchemeOperation`: submit, and poll once when the server answers that the
operation is still in progress. -/
def schemeOperation (c : Client) (ms : TModifyScheme) : GoProgram TResponse :=
  (wrapError .schemeOperation
    (Program.perform (S := stub)
      (.schemeOperation (c.operationRequest ms)))).bind
    (fun resp =>
      if resp.getStatus = mStatusInProgress then
        match resp.flatTxId with
        | none => .raise .inProgressWithoutFlatTxId
        | some tx => (c.pollStatus tx).bind requireOK
      else
        requireOK resp)

end Client

/-- `SplitPath` splits "/a/b/c" into ("/a/b", "c"). -/
def splitPath (path : GoString) : Except GoError (GoString × GoString) :=
  let path := path.rdropWhile (· == '/')
  if path = [] ∨ path = ['/'] then
    .error (.invalidTablePath path)
  else
    match lastIndex '/' path with
    | none => .error (.invalidTablePath path)
    | some i =>
        if i = 0 then
          .error (.invalidTablePath path)
        else
          .ok (path.take i, path.drop (i + 1))

/-- `JoinPath` -/
def joinPath (parent name : GoString) : GoString :=
  parent.rdropWhile (· == '/') ++ '/' :: name

namespace Client

/-- The `ModifyScheme` of `CopyWithStorage`. -/
def copyRequest
    (sourcePath destParent destName poolKind : GoString) : TModifyScheme :=
  .createTable destParent
    { name := some destName
      copyFromTable := some sourcePath
      partitionConfig := some
        { channelProfileId := none
          columnFamilies :=
            [{ id := some 0
               name := some "default".toList
               storageConfig := some
                { sysLog := some ⟨some poolKind⟩
                  log := some ⟨some poolKind⟩
                  data := some ⟨some poolKind⟩
                  external := none } }] } }

/-- `CopyWithStorage` -/
def copyWithStorage
    (c : Client) (sourcePath destParent destName poolKind : GoString) :
    GoProgram Unit :=
  (c.schemeOperation (copyRequest sourcePath destParent destName poolKind)).bind
    (fun _ => .pure ())

/-- `MoveTable` -/
def moveTable (c : Client) (src dst : GoString) : GoProgram Unit :=
  (c.schemeOperation (.moveTable src dst)).bind (fun _ => .pure ())

/-- `DropTable` -/
def dropTable (c : Client) (path : GoString) : GoProgram Unit :=
  (Program.ofExcept (splitPath path)).bind
    (fun (parent, name) =>
      (c.schemeOperation (.dropTable parent name)).bind (fun _ => .pure ()))

end Client

/-- `SplitPath` undoes `JoinPath` up to slashes: both halves resolve to the
components of the path. -/
theorem splitPath_components
    {path parent name : GoString}
    (h : splitPath path = .ok (parent, name)) :
    name ≠ [] ∧ '/' ∉ name ∧
      components '/' path = components '/' parent ++ [name] := by
  unfold splitPath at h
  set trimmed := path.rdropWhile (· == '/') with htrimmed
  simp only at h
  split_ifs at h with hempty
  cases hlast : lastIndex '/' trimmed with
  | none => simp [hlast] at h
  | some i =>
      simp only [hlast] at h
      split_ifs at h
      simp only [Except.ok.injEq, Prod.mk.injEq] at h
      obtain ⟨rfl, rfl⟩ := h
      obtain ⟨hsplit, hnot⟩ := lastIndex_split hlast
      have hne : trimmed.drop (i + 1) ≠ [] := by
        intro hnil
        have htrimEq : trimmed = trimmed.take i ++ ['/'] := by
          simpa [hnil] using hsplit
        -- a trimmed path does not end in a slash
        have hidem : trimmed.rdropWhile (· == '/') = trimmed := by
          rw [htrimmed]
          exact List.rdropWhile_idempotent _ _
        rw [htrimEq, List.rdropWhile_concat_pos _ _ _ (by simp)] at hidem
        have hlen := congrArg List.length hidem
        have hle := (List.rdropWhile_prefix (· == '/') (l := trimmed.take i)).length_le
        simp only [List.length_append, List.length_singleton] at hlen
        omega
      refine ⟨hne, hnot, ?_⟩
      calc components '/' path
          = components '/' trimmed := (components_rdropWhile '/' path).symm
        _ = components '/' (trimmed.take i ++ '/' :: trimmed.drop (i + 1)) := by
            rw [← hsplit]
        _ = components '/' (trimmed.take i) ++ [trimmed.drop (i + 1)] := by
            rw [components_append_cons, components_word hnot hne]

/-- A joined path resolves below its parent. -/
theorem joinPath_components
    (parent name : GoString) :
    components '/' (joinPath parent name) =
      components '/' parent ++ components '/' name := by
  unfold joinPath
  rw [components_append_cons, components_rdropWhile]

end LegacyTables
end YdbSnippets
