import Mathlib.Logic.Function.Basic
import Mathlib.Logic.Relation

/-!
# The lock kept in a table record

`YdbLockRecord.java`: a lock is a record of the table `sys$lock1`.  `lock`
reads the record and, if it is not locked, writes it in the same serializable
transaction; `unlock` writes it without reading.  Both run inside a retry
context that repeats a callback whose reply was lost.

The clients are interleaved step by step.  A transaction that read the record
can only be committed while the record is what it read.
-/

namespace YdbSnippets
namespace LockRecord

/-- A record of `sys$lock1`, without its key. -/
structure LockRow where
  locked : Bool
  owner : Option String
deriving DecidableEq, Repr

/-- `SELECT locked`: a missing record counts as not locked. -/
def selectLocked : Option LockRow → Bool
  | some row => row.locked
  | none => false

/-- `UPSERT INTO ... VALUES($id, true, $owner)` -/
def upsertLocked (owner : String) : LockRow :=
  ⟨true, some owner⟩

/-- `UPDATE ... SET locked=false, owner=NULL`: changes an existing record, no
matter who locked it. -/
def updateUnlocked (row : Option LockRow) : Option LockRow :=
  row.map (fun _ => ⟨false, none⟩)

/-- Where a client is in its calls of `lock` and `unlock`. -/
inductive Phase
  /-- outside both calls, not holding the lock -/
  | idle
  /-- in `lock`, before an attempt -/
  | locking
  /-- in `lock`, the attempt read `seen` and has not committed -/
  | lockRead (seen : Option LockRow)
  /-- in `lock`, the commit was applied and its reply is under way -/
  | lockApplied
  /-- `lock` returned and `unlock` was not called -/
  | holding
  /-- in `unlock`, before an attempt; `applied` if an earlier attempt of this
  call was applied -/
  | unlocking (applied : Bool)
  /-- in `unlock`, the commit was applied and its reply is under way -/
  | unlockApplied
deriving DecidableEq, Repr

variable {Client : Type}

/-- The record and the phase of every client. -/
structure State (Client : Type) where
  row : Option LockRow
  phase : Client → Phase

/-- What can happen next, each at one client. -/
inductive Action
  | callLock
  | selectRow
  | commitLock
  | lockReplyLost
  | lockReturns
  | lockThrows
  | callUnlock
  | commitUnlock
  | unlockReplyLost
  | unlockReturns
  | unlockThrows
  /-- an attempt is rejected, or fails without effect -/
  | attemptFails
deriving DecidableEq, Repr

section Step

variable [DecidableEq Client]

/-- The state with the phase of one client changed. -/
def State.setPhase (s : State Client) (c : Client) (p : Phase) : State Client :=
  { s with phase := Function.update s.phase c p }

/-- One step of client `c`; `systemInfo` is what `getSystemInfo` returns
there. -/
def step
    (systemInfo : Client → String) (s : State Client) (c : Client) :
    Action → Option (State Client)
  | .callLock =>
      match s.phase c with
      | .idle => some (s.setPhase c .locking)
      | _ => none
  | .selectRow =>
      match s.phase c with
      | .locking =>
          -- a locked record ends the attempt with `ALREADY_EXISTS`
          if selectLocked s.row then some s
          else some (s.setPhase c (.lockRead s.row))
      | _ => none
  | .commitLock =>
      match s.phase c with
      | .lockRead seen =>
          if s.row = seen then
            some ({ s with row := some (upsertLocked (systemInfo c)) }.setPhase c .lockApplied)
          else none
      | _ => none
  | .lockReplyLost =>
      match s.phase c with
      | .lockApplied => some (s.setPhase c .locking)
      | _ => none
  | .lockReturns =>
      match s.phase c with
      | .lockApplied => some (s.setPhase c .holding)
      | _ => none
  | .lockThrows =>
      match s.phase c with
      | .locking => some (s.setPhase c .idle)
      | _ => none
  | .callUnlock =>
      match s.phase c with
      | .holding => some (s.setPhase c (.unlocking false))
      | _ => none
  | .commitUnlock =>
      match s.phase c with
      | .unlocking _ =>
          some ({ s with row := updateUnlocked s.row }.setPhase c .unlockApplied)
      | _ => none
  | .unlockReplyLost =>
      match s.phase c with
      | .unlockApplied => some (s.setPhase c (.unlocking true))
      | _ => none
  | .unlockReturns =>
      match s.phase c with
      | .unlockApplied => some (s.setPhase c .idle)
      | _ => none
  | .unlockThrows =>
      match s.phase c with
      | .unlocking _ => some (s.setPhase c .idle)
      | _ => none
  | .attemptFails =>
      match s.phase c with
      | .lockRead _ => some (s.setPhase c .locking)
      | .locking => some s
      | .unlocking _ => some s
      | _ => none

@[simp] theorem setPhase_row (s : State Client) (c : Client) (p : Phase) :
    (s.setPhase c p).row = s.row := rfl

@[simp] theorem setPhase_same (s : State Client) (c : Client) (p : Phase) :
    (s.setPhase c p).phase c = p := by
  simp [State.setPhase]

/-- A step only moves the client that takes it. -/
theorem step_other
    {systemInfo : Client → String} {s s' : State Client} {c d : Client} {a : Action}
    (h : step systemInfo s c a = some s')
    (hne : d ≠ c) :
    s'.phase d = s.phase d := by
  cases a <;>
    simp only [step] at h <;>
    (repeat' split at h) <;>
    simp only [Option.some.injEq, reduceCtorEq] at h <;>
    subst h <;>
    simp [State.setPhase, hne]

/-- Steps from `s` to `s'` that all meet the condition `allowed`. -/
def Reaches
    (systemInfo : Client → String)
    (allowed : State Client → Client → Action → Prop) :
    State Client → State Client → Prop :=
  Relation.ReflTransGen
    (fun s s' => ∃ c a, allowed s c a ∧ step systemInfo s c a = some s')

/-- Take the steps of a list. -/
def execute
    (systemInfo : Client → String) :
    State Client → List (Client × Action) → Option (State Client)
  | s, [] => some s
  | s, (c, a) :: rest =>
      (step systemInfo s c a).bind (fun s' => execute systemInfo s' rest)

theorem reaches_of_execute
    {systemInfo : Client → String} {s s' : State Client}
    {steps : List (Client × Action)}
    {allowed : State Client → Client → Action → Prop}
    (h : execute systemInfo s steps = some s')
    (hallowed : ∀ s c a, (c, a) ∈ steps → allowed s c a) :
    Reaches systemInfo allowed s s' := by
  induction steps generalizing s with
  | nil =>
      cases h
      exact .refl
  | cons first rest ih =>
      obtain ⟨c, a⟩ := first
      obtain ⟨next, hstep, hrest⟩ := Option.bind_eq_some_iff.mp h
      have htail : ∀ s c a, (c, a) ∈ rest → allowed s c a :=
        fun s c a hmem => hallowed s c a (List.mem_cons_of_mem _ hmem)
      exact .head ⟨c, a, hallowed s c a List.mem_cons_self, hstep⟩ (ih hrest htail)

end Step

end LockRecord
end YdbSnippets
