import YdbSnippets.Effects.Threads
import YdbSnippets.Text.Numerals
import YdbSnippets.VDisks.Groups
import YdbSnippets.VDisks.Waiting
import Mathlib.Algebra.Order.Ring.Rat

/-!
# Compaction and defrag of VDisks

`vdisk_compact.py` from the requests it sends: what is asked of a VDisk in each
mode, the loop that waits for an operation to end, the VDisks of a group one
after the other, and the pool of groups.

The programs talk to the storage through `StorageOp`.  A thread polls a status
page as long as it takes; `polls` bounds how often a thread may poll, and one
that would poll once more stays where it is.  Every finite run is a run for some
bound.
-/

namespace YdbSnippets
namespace VDisks

open Python Text Effects Pools

section Requests

/-- The databases of a VDisk that can be compacted. -/
inductive DbName
  | logoBlobs
  | blocks
  | barriers
deriving DecidableEq, Repr

/-- The name in `dbname=`. -/
def DbName.text : DbName → Str
  | logoBlobs => "LogoBlobs".toList
  | blocks => "Blocks".toList
  | barriers => "Barriers".toList

/-- The action in the query of a page. -/
def Panel.action : Panel → Str
  | compaction => "compact".toList
  | defrag => "defrag".toList

/-- An operation on a VDisk: the page that starts it, and the panel of that page
that shows it. -/
structure Request where
  vdisk : VDisk
  dbname : DbName
  panel : Panel
deriving DecidableEq

/-- The requests of `process_vdisk`, in their order. -/
def requestsOf (dbnames : List DbName) (doDefrag : Bool) (v : VDisk) : List Request :=
  if doDefrag then [⟨v, .logoBlobs, .defrag⟩]
  else dbnames.map fun dbname => ⟨v, dbname, .compaction⟩

end Requests

section Programs

/-- What the tool asks for: a page that starts an operation, a status page, the
time, a pause, and the progress counters.  `forever` is never answered. -/
inductive StorageOp
  | start (request : Request)
  | page (vdisk : VDisk) (dbname : DbName)
  | clock (vdisk : VDisk)
  | sleep (delay : ℚ)
  | markDone (vdisk : VDisk) (ok : Bool)
  | forever

/-- A start answers with the status code, a status page with its text. -/
def storageSignature : Signature where
  Op := StorageOp
  Answer
    | .start _ => Nat
    | .page _ _ => Str
    | .clock _ => ℚ
    | .sleep _ | .markDone _ _ => Unit
    | .forever => Empty

/-- A program of the tool.  Exceptions are their texts. -/
abbrev StorageProgram (α : Type) := Program storageSignature Str α

def getStart (request : Request) : StorageProgram Nat :=
  @Program.perform storageSignature _ (.start request)

/-- `fetch_dbmainpage` -/
def fetchDbMainPage (v : VDisk) (dbname : DbName) : StorageProgram Str :=
  @Program.perform storageSignature _ (.page v dbname)

/-- `time.time()`, where `v` is waited for -/
def time (v : VDisk) : StorageProgram ℚ :=
  @Program.perform storageSignature _ (.clock v)

def sleep (delay : ℚ) : StorageProgram Unit :=
  @Program.perform storageSignature _ (.sleep delay)

/-- `Progress.mark_done` -/
def markDone (v : VDisk) (ok : Bool) : StorageProgram Unit :=
  @Program.perform storageSignature _ (.markDone v ok)

/-- The thread stays where it is. -/
def stay {α : Type} : StorageProgram α :=
  (@Program.perform storageSignature _ .forever).bind fun never : Empty => never.elim

/-- The exception of `start_vdisk_action`. -/
def startError (status : Nat) (request : Request) : Str :=
  "HTTP ".toList ++ printInt status ++ " while ".toList ++ request.panel.action ++
    " ".toList ++ request.vdisk.vdiskId ++ " ".toList ++ request.dbname.text

/-- `start_vdisk_action`, for `start_compaction` and `start_defrag` -/
def startVDiskAction (request : Request) : StorageProgram Unit := do
  let status ← getStart request
  if 400 ≤ status then throw (startError status request)

variable (py : Interpreter)

/-- The loop of `wait_until_idle`.  A failed poll is repeated. -/
def waitLoop (request : Request) (pollInterval deadline : ℚ) :
    Nat → Bool → StorageProgram PanelState
  | 0, _ => stay
  | polls + 1, sawInProgress => do
      match ← (fetchDbMainPage request.vdisk request.dbname).attempt with
      | .error _ =>
          sleep pollInterval
          waitLoop request pollInterval deadline polls sawInProgress
      | .ok text =>
          match parsePanelState py request.panel text with
          | .inProgress =>
              let _elapsed ← time request.vdisk
              sleep pollInterval
              waitLoop request pollInterval deadline polls true
          | state =>
              if sawInProgress then return state
              let now ← time request.vdisk
              if deadline ≤ now then return state
              sleep (min pollInterval 1)
              waitLoop request pollInterval deadline polls false

/-- `wait_until_idle`, for `wait_compaction` and `wait_defrag` -/
def waitForIdle (request : Request) (pollInterval : ℚ) (polls : Nat) :
    StorageProgram PanelState := do
  let started ← time request.vdisk
  waitLoop py request pollInterval (started + max pollInterval 5) polls false

/-- The arguments that all VDisks share. -/
structure Settings where
  dbnames : List DbName
  wait : Bool
  pollInterval : ℚ
  dryRun : Bool
  doDefrag : Bool

variable (settings : Settings) (polls : Nat)

/-- One operation of `process_vdisk`: it is started and waited for. -/
def processRequest (request : Request) : StorageProgram Unit :=
  if settings.dryRun then pure ()
  else do
    startVDiskAction request
    if settings.wait then
      let _state ← waitForIdle py request settings.pollInterval polls

/-- The databases of `process_vdisk`, one after the other. -/
def processDatabases (v : VDisk) : List DbName → StorageProgram Unit
  | [] => pure ()
  | dbname :: dbnames => do
      processRequest py settings polls ⟨v, dbname, .compaction⟩
      processDatabases v dbnames

/-- `process_vdisk` -/
def processVDisk (v : VDisk) : StorageProgram Unit :=
  if settings.doDefrag then processRequest py settings polls ⟨v, .logoBlobs, .defrag⟩
  else processDatabases py settings polls v settings.dbnames

/-- One VDisk of `process_group`: the messages it leaves. -/
def processMember (v : VDisk) : StorageProgram (List Str) :=
  tryCatch
    (do
      processVDisk py settings polls v
      markDone v true
      return [])
    fun exc => do
      markDone v false
      return [errorMessage v exc]

/-- `process_group`: the messages of its VDisks. -/
def processGroup : List VDisk → StorageProgram (List Str)
  | [] => pure []
  | v :: vdisks => do
      let errors ← processMember py settings polls v
      let more ← processGroup vdisks
      return errors ++ more

/-- The programs of the pool of `run_operations`, under their groups. -/
def groupPrograms (vdisks : List VDisk) : List (Int × StorageProgram (List Str)) :=
  (groupTasks vdisks).map fun task => (task.key, processGroup py settings polls task.items)

end Programs

/-! ## The storage -/

section Storage

/-- An operation that is not over: when it was accepted, whether the status page
shows it, and whether its start was answered. -/
structure Operation where
  since : ℚ
  visible : Bool
  acknowledged : Bool

/-- A start request and its answer: an exception, or a status code. -/
structure Start where
  request : Request
  answer : Except Str Nat

/-- The exception that `start_vdisk_action` raises for the answer, if it does. -/
def Start.failure (start : Start) : Option Str :=
  match start.answer with
  | .error exc => some exc
  | .ok status => if 400 ≤ status then some (startError status start.request) else none

/-- The time, the operations that are not over, the start requests in the order
in which they came, with their answers, the last time the page of a VDisk was made,
and the counters of `Progress`. -/
structure Storage where
  now : ℚ
  active : Request → Option Operation
  starts : List Start
  polled : VDisk → Option ℚ
  done : Nat
  errors : Nat

/-- The state of a panel. -/
def Storage.panelState (s : Storage) (request : Request) : PanelState :=
  match s.active request with
  | some operation => if operation.visible then .inProgress else .idle
  | none => .idle

/-- An operation is accepted, or goes on if it is under way. -/
def Storage.accept (s : Storage) (request : Request) (acknowledged : Bool) : Storage :=
  { s with
    active := Function.update s.active request (some
      (match s.active request with
      | none => ⟨s.now, false, acknowledged⟩
      | some operation =>
          { operation with acknowledged := operation.acknowledged || acknowledged })) }

/-- A start request came in.  The page that was made before says nothing of it. -/
def Storage.asked (s : Storage) (request : Request) (answer : Except Str Nat) : Storage :=
  { s with
    starts := s.starts ++ [⟨request, answer⟩]
    polled := Function.update s.polled request.vdisk none }

/-- The page shows the panels as they are.  Only the page of LogoBlobs has the
panel of the defrag. -/
def Storage.Shows
    (py : Interpreter) (s : Storage) (v : VDisk) (dbname : DbName) (text : Str) : Prop :=
  parsePanelState py .compaction text = s.panelState ⟨v, dbname, .compaction⟩ ∧
    (dbname = .logoBlobs →
      parsePanelState py .defrag text = s.panelState ⟨v, dbname, .defrag⟩)

/-- The answers of the storage.  A start that is refused or not answered may have
been accepted.  `pages` are the status pages that may be served.  A reading of the clock
follows the page it is compared with after at most `latency`. -/
inductive StorageAnswer (pages : Storage → VDisk → DbName → Str → Prop) (latency : ℚ) :
    Environment storageSignature Str Storage
  | accepted
      (s : Storage) (request : Request) (status : Nat)
      (hstatus : status < 400) :
      StorageAnswer pages latency s (.start request) (.ok status)
        ((s.asked request (.ok status)).accept request true)
  | refused
      (s : Storage) (request : Request) (status : Nat)
      (hstatus : 400 ≤ status) :
      StorageAnswer pages latency s (.start request) (.ok status) (s.asked request (.ok status))
  | refusedAccepted
      (s : Storage) (request : Request) (status : Nat)
      (hstatus : 400 ≤ status) :
      StorageAnswer pages latency s (.start request) (.ok status)
        ((s.asked request (.ok status)).accept request false)
  | lost
      (s : Storage) (request : Request) (exc : Str) :
      StorageAnswer pages latency s (.start request) (.error exc) (s.asked request (.error exc))
  | lostAccepted
      (s : Storage) (request : Request) (exc : Str) :
      StorageAnswer pages latency s (.start request) (.error exc)
        ((s.asked request (.error exc)).accept request false)
  | page
      (s : Storage) (v : VDisk) (dbname : DbName) (text : Str)
      (hserved : pages s v dbname text) :
      StorageAnswer pages latency s (.page v dbname) (.ok text)
        { s with polled := Function.update s.polled v (some s.now) }
  | pageFailed
      (s : Storage) (v : VDisk) (dbname : DbName) (exc : Str) :
      StorageAnswer pages latency s (.page v dbname) (.error exc) s
  | clock
      (s : Storage) (v : VDisk)
      (hlatency : ∀ made, s.polled v = some made → s.now ≤ made + latency) :
      StorageAnswer pages latency s (.clock v) (.ok s.now) s
  | sleep
      (s : Storage) (delay : ℚ) :
      StorageAnswer pages latency s (.sleep delay) (.ok ()) s
  | markDone
      (s : Storage) (v : VDisk) (ok : Bool) :
      StorageAnswer pages latency s (.markDone v ok) (.ok ())
        { s with done := s.done + 1, errors := s.errors + if ok then 0 else 1 }

/-- How the storage goes on by itself: time passes, an accepted operation shows up
within `lag`, an operation ends, or somebody else starts one. -/
inductive StorageDrift (lag : ℚ) : Storage → Storage → Prop
  | pass
      (s : Storage) (t : ℚ)
      (hlater : s.now ≤ t)
      (hlag : ∀ request operation, s.active request = some operation →
        operation.visible = false → t ≤ operation.since + lag) :
      StorageDrift lag s { s with now := t }
  | appear
      (s : Storage) (request : Request) (operation : Operation)
      (hactive : s.active request = some operation) :
      StorageDrift lag s
        { s with
          active := Function.update s.active request (some { operation with visible := true }) }
  | finish
      (s : Storage) (request : Request) :
      StorageDrift lag s { s with active := Function.update s.active request none }
  | others
      (s : Storage) (request : Request) :
      StorageDrift lag s (s.accept request false)

/-- Nothing was started yet. -/
def Storage.Untouched (s : Storage) : Prop :=
  (∀ request operation, s.active request = some operation → operation.acknowledged = false) ∧
    s.starts = [] ∧ s.polled = fun _ => none

/-- A state of `run_operations`: the groups are processed by a pool of threads, and
the storage goes on meanwhile. -/
def Operating
    (py : Interpreter) (settings : Settings) (polls threads : Nat) (vdisks : List VDisk)
    (pages : Storage → VDisk → DbName → Str → Prop) (lag latency : ℚ) (s : Storage)
    (pool : Pool Int storageSignature Str (List Str) Storage) : Prop :=
  Pool.Reachable (StorageAnswer pages latency) (StorageDrift lag) (poolSize threads vdisks) s
    (groupPrograms py settings polls vdisks) pool

end Storage

end VDisks
end YdbSnippets
