import YdbSnippets.LegacyTables.Classify
import YdbSnippets.LegacyTables.Client
import Mathlib.Logic.Function.Basic
import Mathlib.Data.List.Infix

/-!
# The scheme server

The world the repair runs in: a tree of tables, changed only by the scheme
operations of this run.  Copy, move and drop are atomic, and a copy or a move
onto an existing path is refused.

Every call may be carried out and reported as such, or fail without effect.
In a *lossy* world it may also take effect and be reported as failed.  The
server keeps the history of the calls it saw, newest first.
-/

namespace YdbSnippets
namespace LegacyTables

open Effects Text

/-- A table: its identity, its rows, and its partition configuration.  A move
keeps the identity; the server may give a copy any identity. -/
structure Table (R : Type) where
  ident : Nat
  rows : R
  partitionConfig : Option TPartitionConfig

/-- What a path of the scheme tree may hold. -/
inductive Node (R : Type)
  | table (t : Table R)
  | other

/-- Resolved paths: the names from the root. -/
abbrev Location := List GoString

/-- How the server resolves a path: empty names between slashes are skipped. -/
def resolve (path : GoString) : Location :=
  components '/' path

/-- The scheme tree. -/
abbrev Tree (R : Type) := Location → Option (Node R)

/-- The tree with one location changed. -/
def Tree.set {R : Type} (tree : Tree R) (loc : Location) (node : Option (Node R)) :
    Tree R :=
  Function.update tree loc node

/-- One call as the server saw it: the tree before it, and the response if
one was delivered. -/
structure Event (R : Type) where
  before : Tree R
  call : Call
  response : Option TResponse

/-- The state of the server. -/
structure Server (R : Type) where
  tree : Tree R
  pending : Option TModifyScheme
  log : List (Event R)

section Tree

variable {R : Type}

@[simp] theorem Tree.set_same
    (tree : Tree R) (loc : Location) (node : Option (Node R)) :
    tree.set loc node loc = node := by
  simp [Tree.set]

theorem Tree.set_other
    (tree : Tree R) {loc other : Location} (node : Option (Node R))
    (h : other ≠ loc) :
    tree.set loc node other = tree other := by
  simp [Tree.set, h]

/-- The effect of a scheme operation on the tree. -/
inductive Applies : TModifyScheme → Tree R → Tree R → Prop
  | copy
      {tree : Tree R} {workingDir name source : GoString}
      {request : TTableDescription} {t copied : Table R}
      (hname : request.name = some name)
      (hsource : request.copyFromTable = some source)
      (hfound : tree (resolve source) = some (.table t))
      (hfree : tree (resolve (joinPath workingDir name)) = none)
      (hrows : copied.rows = t.rows) :
      Applies (.createTable workingDir request) tree
        (tree.set (resolve (joinPath workingDir name)) (some (.table copied)))
  | move
      {tree : Tree R} {src dst : GoString} {t : Table R}
      (hfound : tree (resolve src) = some (.table t))
      (hfree : tree (resolve dst) = none) :
      Applies (.moveTable src dst) tree
        ((tree.set (resolve dst) (some (.table t))).set (resolve src) none)
  | drop
      {tree : Tree R} {workingDir name : GoString} {t : Table R}
      (hfound : tree (resolve (joinPath workingDir name)) = some (.table t)) :
      Applies (.dropTable workingDir name) tree
        (tree.set (resolve (joinPath workingDir name)) none)

/-- A truthful describe of what a location holds. -/
def Shows (tree : Tree R) (req : TSchemeDescribe) (resp : TResponse) : Prop :=
  match tree (resolve req.path) with
  | none => False
  | some .other => resp.getTable = none
  | some (.table t) =>
      ∃ td, resp.getTable = some td ∧
        (req.returnPartitionConfig = true → td.partitionConfig = t.partitionConfig)

/-- The operation a call asks the server to carry out, if any. -/
def requested (s : Server R) : Call → Option TModifyScheme
  | .schemeOperation req => some req.modifyScheme
  | .schemeOperationStatus _ => s.pending
  | _ => none

/-- What a call that is not reported as successful may do to the tree. -/
def Unreported (lossy : Bool) (ms : Option TModifyScheme) (tree tree' : Tree R) : Prop :=
  tree' = tree ∨ (lossy = true ∧ ∃ m, ms = some m ∧ Applies m tree tree')

/-- The answers the server may give to a call, and the state it leaves. -/
inductive Answers (lossy : Bool) : Environment stub GoError (Server R)
  | raised
      (s : Server R) (call : Call) (text : GoString) (tree' : Tree R)
      (heffect : Unreported lossy (requested s call) s.tree tree') :
      Answers lossy s call (.error (.transport text))
        ⟨tree', none, ⟨s.tree, call, none⟩ :: s.log⟩
  | described
      (s : Server R) (req : TSchemeDescribe) (resp : TResponse)
      (htrue : resp.getStatus = mStatusOK → Shows s.tree req resp) :
      Answers lossy s (.schemeDescribe req) (.ok resp)
        ⟨s.tree, s.pending, ⟨s.tree, .schemeDescribe req, some resp⟩ :: s.log⟩
  | carriedOut
      (s : Server R) (req : TSchemeOperation) (resp : TResponse) (tree' : Tree R)
      (hok : resp.getStatus = mStatusOK)
      (heffect : Applies req.modifyScheme s.tree tree') :
      Answers lossy s (.schemeOperation req) (.ok resp)
        ⟨tree', none, ⟨s.tree, .schemeOperation req, some resp⟩ :: s.log⟩
  | accepted
      (s : Server R) (req : TSchemeOperation) (resp : TResponse)
      (hprogress : resp.getStatus = mStatusInProgress)
      (htx : resp.flatTxId.isSome = true) :
      Answers lossy s (.schemeOperation req) (.ok resp)
        ⟨s.tree, some req.modifyScheme,
          ⟨s.tree, .schemeOperation req, some resp⟩ :: s.log⟩
  | notCarriedOut
      (s : Server R) (req : TSchemeOperation) (resp : TResponse) (tree' : Tree R)
      (hnot : resp.getStatus ≠ mStatusOK)
      (hnoTx : resp.getStatus = mStatusInProgress → resp.flatTxId = none)
      (heffect : Unreported lossy (some req.modifyScheme) s.tree tree') :
      Answers lossy s (.schemeOperation req) (.ok resp)
        ⟨tree', none, ⟨s.tree, .schemeOperation req, some resp⟩ :: s.log⟩
  | finished
      (s : Server R) (req : TSchemeOperationStatus) (resp : TResponse)
      (ms : TModifyScheme) (tree' : Tree R)
      (hok : resp.getStatus = mStatusOK)
      (hpending : s.pending = some ms)
      (heffect : Applies ms s.tree tree') :
      Answers lossy s (.schemeOperationStatus req) (.ok resp)
        ⟨tree', none, ⟨s.tree, .schemeOperationStatus req, some resp⟩ :: s.log⟩
  | notFinished
      (s : Server R) (req : TSchemeOperationStatus) (resp : TResponse)
      (tree' : Tree R)
      (hnot : resp.getStatus ≠ mStatusOK)
      (heffect : Unreported lossy s.pending s.tree tree') :
      Answers lossy s (.schemeOperationStatus req) (.ok resp)
        ⟨tree', none, ⟨s.tree, .schemeOperationStatus req, some resp⟩ :: s.log⟩
  | printed
      (s : Server R) (path : GoString) :
      Answers lossy s (.printPath path) (.ok ())
        ⟨s.tree, s.pending, ⟨s.tree, .printPath path, none⟩ :: s.log⟩

/-! ## A server to run against -/

/-- The tree after an operation, if it can be carried out. -/
def carryOut (tree : Tree R) : TModifyScheme → Option (Tree R)
  | .createTable workingDir request =>
      match request.name, request.copyFromTable with
      | some name, some source =>
          match tree (resolve source), tree (resolve (joinPath workingDir name)) with
          | some (.table t), none =>
              some (tree.set (resolve (joinPath workingDir name))
                (some (.table
                  { ident := t.ident + 1
                    rows := t.rows
                    partitionConfig := request.partitionConfig })))
          | _, _ => none
      | _, _ => none
  | .moveTable src dst =>
      match tree (resolve src), tree (resolve dst) with
      | some (.table t), none =>
          some ((tree.set (resolve dst) (some (.table t))).set (resolve src) none)
      | _, _ => none
  | .dropTable workingDir name =>
      match tree (resolve (joinPath workingDir name)) with
      | some (.table _) =>
          some (tree.set (resolve (joinPath workingDir name)) none)
      | _ => none

theorem carryOut_applies
    {tree tree' : Tree R} {ms : TModifyScheme}
    (h : carryOut tree ms = some tree') :
    Applies ms tree tree' := by
  unfold carryOut at h
  split at h
  · split at h
    · next name source hname hsource =>
        split at h
        · next t hfound hfree =>
            cases h
            exact .copy hname hsource hfound hfree rfl
        · cases h
    · cases h
  · split at h
    · next t hfound hfree =>
        cases h
        exact .move hfound hfree
    · cases h
  · split at h
    · next t hfound =>
        cases h
        exact .drop hfound
    · cases h

/-- The answer with a status and nothing else. -/
def statusResponse (status : Nat) (schemeStatus : Option Int) : TResponse where
  status := some status
  errorReason := none
  schemeStatus := schemeStatus
  pathDescription := none
  flatTxId := none

/-- The describe response for what a location holds. -/
def describeResponse : Option (Node R) → TResponse
  | none => statusResponse 128 (some statusPathDoesNotExist)
  | some .other => statusResponse mStatusOK none
  | some (.table t) =>
      { statusResponse mStatusOK none with
        pathDescription := some
          { self := some ⟨none, some .table⟩
            children := []
            table := some ⟨none, t.partitionConfig, none⟩ } }

/-- A server that answers at once, and refuses the calls of `refuses` without
carrying them out. -/
def answer (refuses : Call → Bool) : Handler stub GoError (Server R)
  | s, .schemeDescribe req =>
      if refuses (.schemeDescribe req) then
        (.error (.transport []), ⟨s.tree, none, ⟨s.tree, .schemeDescribe req, none⟩ :: s.log⟩)
      else
        let resp := describeResponse (s.tree (resolve req.path))
        (.ok resp, ⟨s.tree, s.pending, ⟨s.tree, .schemeDescribe req, some resp⟩ :: s.log⟩)
  | s, .schemeOperation req =>
      match if refuses (.schemeOperation req) then none
          else carryOut s.tree req.modifyScheme with
      | none =>
          (.error (.transport []),
            ⟨s.tree, none, ⟨s.tree, .schemeOperation req, none⟩ :: s.log⟩)
      | some tree' =>
          let resp := statusResponse mStatusOK none
          (.ok resp, ⟨tree', none, ⟨s.tree, .schemeOperation req, some resp⟩ :: s.log⟩)
  | s, .schemeOperationStatus req =>
      (.error (.transport []),
        ⟨s.tree, none, ⟨s.tree, .schemeOperationStatus req, none⟩ :: s.log⟩)
  | s, .printPath path =>
      (.ok (), ⟨s.tree, s.pending, ⟨s.tree, .printPath path, none⟩ :: s.log⟩)

theorem describeResponse_shows
    {tree : Tree R} {req : TSchemeDescribe}
    (h : (describeResponse (tree (resolve req.path))).getStatus = mStatusOK) :
    Shows tree req (describeResponse (tree (resolve req.path))) := by
  unfold Shows
  cases hnode : tree (resolve req.path) with
  | none =>
      rw [hnode] at h
      cases h
  | some node =>
      cases node with
      | other => rfl
      | table t => exact ⟨_, rfl, fun _ => rfl⟩

/-- The answers of this server are among those of every world. -/
theorem answer_answers
    (lossy : Bool) (refuses : Call → Bool) (s : Server R) (call : Call) :
    Answers lossy s call (answer refuses s call).1 (answer refuses s call).2 := by
  cases call with
  | schemeDescribe req =>
      simp only [answer]
      split
      · exact .raised s _ [] s.tree (Or.inl rfl)
      · exact .described s req _ (fun h => describeResponse_shows h)
  | schemeOperation req =>
      simp only [answer]
      split
      · exact .raised s _ [] s.tree (Or.inl rfl)
      · next tree' hsome =>
          split_ifs at hsome
          exact .carriedOut s req _ tree' rfl (carryOut_applies hsome)
  | schemeOperationStatus req => exact .raised s _ [] s.tree (Or.inl rfl)
  | printPath path => exact .printed s path

end Tree

/-! ## What the client's calls do -/

section ClientCalls

variable {R : Type} {lossy : Bool}
variable {I : Server R → Prop}

/-- The event asks the server to carry out `ms`. -/
def Event.submits (e : Event R) (ms : TModifyScheme) : Prop :=
  ∃ req, e.call = .schemeOperation req ∧ req.modifyScheme = ms

/-- The event polls an accepted operation. -/
def Event.polls (e : Event R) : Prop :=
  ∃ req, e.call = .schemeOperationStatus req

/-- The event is a describe of `path`. -/
def Event.describes (e : Event R) (path : GoString) : Prop :=
  ∃ req, e.call = .schemeDescribe req ∧ req.path = path

/-- The server answered the call with `MSTATUS_OK`. -/
def Event.answeredOK (e : Event R) : Prop :=
  ∃ resp, e.response = some resp ∧ resp.getStatus = mStatusOK

/-- The history after a describe of `path` that left the tree alone. -/
def Looked (path : GoString) (s s' : Server R) : Prop :=
  s'.tree = s.tree ∧
    ∃ e, e.describes path ∧ e.before = s.tree ∧ s'.log = e :: s.log

/-- The history after `ms` was submitted, and polled if it was accepted. -/
def Submitted (ms : TModifyScheme) (s s' : Server R) : Prop :=
  ∃ e, e.submits ms ∧ e.before = s.tree ∧
    (s'.log = e :: s.log ∨ ∃ p, p.polls ∧ s'.log = p :: e :: s.log)

/-- `ms` was reported successful somewhere in the history: by the answer to
the call itself, or by the poll right after it. -/
def ReportedOK (ms : TModifyScheme) (log : List (Event R)) : Prop :=
  ∃ e rest, e.submits ms ∧
    ((e.answeredOK ∧ e :: rest <:+ log) ∨
      ∃ p, p.polls ∧ p.answeredOK ∧ p :: e :: rest <:+ log)

theorem ReportedOK.mono
    {ms : TModifyScheme} {log log' : List (Event R)}
    (h : ReportedOK ms log) (hlog : log <:+ log') :
    ReportedOK ms log' := by
  obtain ⟨e, rest, hsub, h⟩ := h
  refine ⟨e, rest, hsub, ?_⟩
  rcases h with ⟨hok, hsuf⟩ | ⟨p, hpoll, hok, hsuf⟩
  · exact Or.inl ⟨hok, hsuf.trans hlog⟩
  · exact Or.inr ⟨p, hpoll, hok, hsuf.trans hlog⟩

theorem Looked.log_suffix
    {path : GoString} {s s' : Server R}
    (h : Looked path s s') :
    s.log <:+ s'.log := by
  obtain ⟨_, e, _, _, hlog⟩ := h
  rw [hlog]
  exact List.suffix_cons e s.log

theorem Submitted.log_suffix
    {ms : TModifyScheme} {s s' : Server R}
    (h : Submitted ms s s') :
    s.log <:+ s'.log := by
  obtain ⟨e, _, _, hlog | ⟨p, _, hlog⟩⟩ := h
  · rw [hlog]
    exact List.suffix_cons e s.log
  · rw [hlog]
    exact (List.suffix_cons e s.log).trans (List.suffix_cons p _)

theorem submitted_direct
    (s : Server R) (req : TSchemeOperation) (tree' : Tree R)
    (pending : Option TModifyScheme) (r : Option TResponse) :
    Submitted req.modifyScheme s
      ⟨tree', pending, ⟨s.tree, .schemeOperation req, r⟩ :: s.log⟩ :=
  ⟨_, ⟨req, rfl, rfl⟩, rfl, Or.inl rfl⟩

theorem submitted_polled
    (s : Server R) (req : TSchemeOperation) (req' : TSchemeOperationStatus)
    (tree tree' : Tree R) (pending : Option TModifyScheme)
    (r r' : Option TResponse) :
    Submitted req.modifyScheme s
      ⟨tree', pending,
        ⟨tree, .schemeOperationStatus req', r'⟩ ::
          ⟨s.tree, .schemeOperation req, r⟩ :: s.log⟩ :=
  ⟨_, ⟨req, rfl, rfl⟩, rfl, Or.inr ⟨_, ⟨req', rfl⟩, rfl⟩⟩

/-- A wrapped program is as safe as the program, up to its error. -/
theorem safe_wrapError
    {α : Type} {env : Environment stub GoError (Server R)}
    {Q : Except GoError α → Server R → Prop}
    {wrap : GoError → GoError} {p : GoProgram α} {s : Server R}
    (h : Safe env I
      (fun r s => Q (r.mapError wrap) s) p s) :
    Safe env I Q (wrapError wrap p) s := by
  apply Safe.tryCatch
  refine h.weaken ?_
  intro r s hI hQ
  cases r with
  | ok a => exact hQ
  | error e => exact ⟨hI, hQ⟩

/-- Describing leaves the tree alone; a response with `MSTATUS_OK` is true. -/
theorem safe_describe
    {Q : Except GoError TResponse → Server R → Prop}
    {c : Client} {path : GoString} {pc ch : Bool} {s : Server R}
    (hs : I s)
    (herror : ∀ e s',
      Looked path s s' → e.isAlreadyRepaired = false → I s' ∧ Q (.error e) s')
    (hok : ∀ resp req s',
      Looked path s s' →
      req.path = path → req.returnPartitionConfig = pc →
      s'.log = ⟨s.tree, .schemeDescribe req, some resp⟩ :: s.log →
      (resp.getStatus = mStatusOK → Shows s.tree req resp) →
      I s' ∧ Q (.ok resp) s') :
    Safe (Answers lossy) I Q (c.describe path pc ch) s := by
  apply safe_wrapError
  apply Safe.perform hs
  intro r s' henv
  cases henv with
  | raised _ _ text tree' heffect =>
      have htree : tree' = s.tree := by
        rcases heffect with h | ⟨_, m, hm, _⟩
        · exact h
        · cases hm
      subst htree
      exact herror _ _ ⟨rfl, _, ⟨_, rfl, rfl⟩, rfl, rfl⟩ rfl
  | described _ _ resp htrue =>
      exact hok resp _ _ ⟨rfl, _, ⟨_, rfl, rfl⟩, rfl, rfl⟩ rfl rfl rfl htrue

/-- A scheme operation that returns was carried out and reported; one that
raises was not carried out, unless the world is lossy. -/
theorem safe_schemeOperation
    {Q : Except GoError TResponse → Server R → Prop}
    {c : Client} {ms : TModifyScheme} {s : Server R}
    (hs : I s)
    (herror : ∀ e s',
      Submitted ms s s' →
      Unreported lossy (some ms) s.tree s'.tree →
      e.isAlreadyRepaired = false →
      I s' ∧ Q (.error e) s')
    (hok : ∀ resp s',
      Submitted ms s s' →
      Applies ms s.tree s'.tree →
      ReportedOK ms s'.log →
      I s' ∧ Q (.ok resp) s') :
    Safe (Answers lossy) I Q (c.schemeOperation ms) s := by
  apply Safe.bind
  apply safe_wrapError
  apply Safe.perform hs
  intro r s' henv
  cases henv with
  | raised _ _ text tree' heffect =>
      exact herror _ _ (submitted_direct s (c.operationRequest ms) tree' none none) heffect rfl
  | carriedOut _ _ resp tree' hresp heffect =>
      have hend := hok resp _
        (submitted_direct s (c.operationRequest ms) tree' none (some resp)) heffect
        ⟨_, s.log, ⟨c.operationRequest ms, rfl, rfl⟩,
          Or.inl ⟨⟨resp, rfl, hresp⟩, List.suffix_rfl⟩⟩
      refine ⟨hend.1, ?_⟩
      simp only [Safe.bindPost, Except.mapError, Client.requireOK, hresp, mStatusOK,
        mStatusInProgress]
      exact hend
  | accepted _ _ resp hprogress htx =>
      have hmid := herror (.transport []) _
        (submitted_direct s (c.operationRequest ms) s.tree (some ms) (some resp)) (Or.inl rfl) rfl
      refine ⟨hmid.1, ?_⟩
      obtain ⟨tx, htx⟩ := Option.isSome_iff_exists.mp htx
      simp only [Safe.bindPost, Except.mapError, hprogress, htx, if_true]
      apply Safe.bind
      apply safe_wrapError
      apply Safe.perform hmid.1
      intro r s'' hpoll
      cases hpoll with
      | raised _ _ text tree' heffect =>
          exact herror _ _
            (submitted_polled s (c.operationRequest ms) (c.statusRequest tx) s.tree tree' none
              (some resp) none) heffect rfl
      | finished _ _ resp' ms' tree' hresp hpending heffect =>
          cases hpending
          have hend := hok resp' _
            (submitted_polled s (c.operationRequest ms) (c.statusRequest tx) s.tree tree' none
              (some resp) (some resp')) heffect
            ⟨_, s.log, ⟨c.operationRequest ms, rfl, rfl⟩,
              Or.inr ⟨_, ⟨_, rfl⟩, ⟨resp', rfl, hresp⟩, List.suffix_rfl⟩⟩
          refine ⟨hend.1, ?_⟩
          simp only [Safe.bindPost, Except.mapError, Client.requireOK, hresp]
          exact hend
      | notFinished _ _ resp' tree' hnot heffect =>
          have hend := fun e he => herror e _
            (submitted_polled s (c.operationRequest ms) (c.statusRequest tx) s.tree tree' none
              (some resp) (some resp')) heffect he
          refine ⟨(hend (.transport []) rfl).1, ?_⟩
          simp only [Safe.bindPost, Except.mapError, Client.requireOK, ne_eq, hnot,
            not_false_eq_true, if_true]
          exact hend _ rfl
  | notCarriedOut _ _ resp tree' hnot hnoTx heffect =>
      have hend := fun e he => herror e _
        (submitted_direct s (c.operationRequest ms) tree' none (some resp)) heffect he
      refine ⟨(hend (.transport []) rfl).1, ?_⟩
      by_cases hprogress : resp.getStatus = mStatusInProgress
      · simp only [Safe.bindPost, Except.mapError, hprogress, hnoTx hprogress, if_true]
        exact hend _ rfl
      · simp only [Safe.bindPost, Except.mapError, hprogress, if_false, Client.requireOK,
          ne_eq, hnot, not_false_eq_true, if_true]
        exact hend _ rfl

end ClientCalls

end LegacyTables
end YdbSnippets
