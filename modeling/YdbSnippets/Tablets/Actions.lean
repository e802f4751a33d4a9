import YdbSnippets.Effects.Threads
import YdbSnippets.Tablets.Selection

/-!
# Stopping and starting tablets

The action phase of `manage_tablets.py`: what is asked of Hive for a tablet, how
its answer is read and when it is asked again, and the pool of threads in which
the selected tablets are processed.

A request may be lost before or after Hive has carried it out, and Hive may carry
it out later than it answers.  It says that an action was carried out only where it
was, whatever the script makes of the answer.  Nobody else stops or starts the
selected tablets.
-/

namespace YdbSnippets
namespace Tablets

open Python Text Effects

section Responses

/-- `ACTIONS` -/
inductive Action
  | stop
  | start
deriving DecidableEq, Repr

namespace Action

/-- The Hive page of the action. -/
def page : Action → Str
  | stop => "StopTablet".toList
  | start => "ResumeTablet".toList

def done : Action → Str
  | stop => "stopped".toList
  | start => "started".toList

def already : Action → Str
  | stop => "already-stopped".toList
  | start => "already-running".toList

/-- A tablet is stopped after the action. -/
def stops : Action → Bool
  | stop => true
  | start => false

end Action

/-- What is read of an HTTP response. -/
structure HttpReply where
  statusCode : Nat
  text : Str
deriving DecidableEq, Repr

/-- The result of an accepted request that was not waited for. -/
def acceptedResult : Str :=
  "accepted".toList

/-- The end of `parse_hive_response`, for a dictionary. -/
def parseHivePayload (printer : Printer) (action : Action) (stripped : Str)
    (fields : List (String × Json)) : Bool × Str :=
  let error := (fields.lookup "error").getD .null
  let status := (fields.lookup "Status").getD .null
  if error.truthy then (false, oneLine (error.text printer))
  else if fields.isEmpty then (true, acceptedResult)
  else if statusIn printer ["2", "ALREADY"] status then (true, action.already)
  else if statusIn printer ["0", "OK", "2", "ALREADY"] status then (true, action.done)
  else
    (false, oneLine ("status=".toList ++ status.text printer ++ " body=".toList ++
      stripped.take 400))

/-- `parse_hive_response`, where `loads` is `json.loads`. -/
def parseHiveResponse (printer : Printer) (loads : Str → Option Json) (action : Action)
    (reply : HttpReply) : Bool × Str :=
  let status := printInt reply.statusCode
  let stripped := strip reply.text
  if 400 ≤ reply.statusCode then
    (false, oneLine ("HTTP ".toList ++ status ++ ": ".toList ++ reply.text.take 400))
  else if stripped.isEmpty then
    (false, "empty response HTTP ".toList ++ status)
  else
    match loads stripped with
    | none =>
        (false, oneLine ("non-JSON response HTTP ".toList ++ status ++ ": ".toList ++
          stripped.take 400))
    | some (.obj fields) => parseHivePayload printer action stripped fields
    | some _ =>
        (false, oneLine ("unexpected JSON HTTP ".toList ++ status ++ ": ".toList ++
          stripped.take 400))

/-- A request that was not answered failed. -/
def attemptResult (printer : Printer) (loads : Str → Option Json) (action : Action) :
    Except Str HttpReply → Bool × Str
  | .ok reply => parseHiveResponse printer loads action reply
  | .error exc => (false, oneLine ("request failed: ".toList ++ exc))

/-- The results after which `hive_action_with_retries` gives up. -/
def isFinalResult (py : Interpreter) (result : Str) : Bool :=
  occurs "Tablet not found".toList result || occurs "Must use POST".toList result ||
    isAccessDenied py result

end Responses

/-! What Hive says in an answer. -/

section Reports

variable (printer : Printer) (loads : Str → Option Json)

/-- The status has one of these names.  White space at its ends, what stands before its last
dot and the case do not count. -/
def IsNamed (names : List String) (status : Json) : Prop :=
  ∃ before name, strip (status.text printer) = before ++ name ∧
    (before = [] ∨ before.getLast? = some '.') ∧ '.' ∉ name ∧
      ∃ known ∈ names, known.toList = printer.upper name

/-- The answer is a JSON object with these fields. -/
def HttpReply.IsObject (reply : HttpReply) (fields : List (String × Json)) : Prop :=
  reply.statusCode < 400 ∧ strip reply.text ≠ [] ∧ loads (strip reply.text) = some (.obj fields)

/-- Hive says that the action was carried out, now or before: the status is OK or ALREADY, by
its name or its number, and no error is given. -/
def ReportsDone (reply : HttpReply) : Prop :=
  ∃ fields, reply.IsObject loads fields ∧
    (∀ error, fields.lookup "error" = some error → error.truthy = false) ∧
      ∃ status, fields.lookup "Status" = some status ∧ status.isNone = false ∧
        IsNamed printer ["0", "OK", "2", "ALREADY"] status

/-- Hive says that it took the request, which is not waited for. -/
def ReportsAccepted (reply : HttpReply) : Prop :=
  reply.IsObject loads []

variable {printer loads} {action : Action} {reply : HttpReply}

theorem statusIn_iff
    {names : List String} {status : Json} :
    statusIn printer names status = true ↔
      status.isNone = false ∧ IsNamed printer names status := by
  unfold statusIn normStatus IsNamed
  cases hnone : status.isNone with
  | true => simp
  | false =>
      simp only [Bool.false_eq_true, if_false, List.any_eq_true, beq_iff_eq, true_and]
      constructor
      · rintro ⟨known, hknown, hname⟩
        obtain ⟨before, htext, hbefore, hdot⟩ := afterLastDot_eq_iff.mp rfl
        exact ⟨before, _, htext, hbefore, hdot, known, hknown, hname⟩
      · rintro ⟨before, name, htext, hbefore, hdot, known, hknown, hname⟩
        rw [afterLastDot_eq_iff.mpr ⟨before, htext, hbefore, hdot⟩]
        exact ⟨known, hknown, hname⟩

theorem statusIn_getD_iff
    {names : List String} {found : Option Json} :
    statusIn printer names (found.getD .null) = true ↔
      ∃ status, found = some status ∧ status.isNone = false ∧ IsNamed printer names status := by
  cases found with
  | none => exact iff_of_false Bool.false_ne_true fun ⟨status, hsome, _⟩ => by cases hsome
  | some status =>
      rw [Option.getD_some, statusIn_iff]
      exact ⟨fun h => ⟨status, rfl, h⟩, fun ⟨status', heq, h⟩ => Option.some.inj heq ▸ h⟩

/-- A payload without an error is a success if it is empty or has the status of one. -/
theorem parseHivePayload_ok_iff
    {stripped : Str} {fields : List (String × Json)} :
    (parseHivePayload printer action stripped fields).1 = true ↔
      ((fields.lookup "error").getD .null).truthy = false ∧
        (fields = [] ∨ ∃ status, fields.lookup "Status" = some status ∧ status.isNone = false ∧
          IsNamed printer ["0", "OK", "2", "ALREADY"] status) := by
  rw [← statusIn_getD_iff]
  have hmore : ∀ status, statusIn printer ["2", "ALREADY"] status = true →
      statusIn printer ["0", "OK", "2", "ALREADY"] status = true := by
    intro status h
    obtain ⟨hnone, before, name, htext, hbefore, hdot, known, hknown, hname⟩ := statusIn_iff.mp h
    exact statusIn_iff.mpr ⟨hnone, before, name, htext, hbefore, hdot, known,
      List.mem_cons_of_mem _ (List.mem_cons_of_mem _ hknown), hname⟩
  unfold parseHivePayload
  dsimp only
  split_ifs with herror hempty halready hdone
  · simp [herror]
  · simp [List.isEmpty_iff.mp hempty]
  · simp [herror, hmore _ halready]
  · simp [herror, hdone]
  · simp [hdone, List.isEmpty_iff.not.mp hempty]

theorem parseHiveResponse_of_isObject
    {fields : List (String × Json)}
    (h : reply.IsObject loads fields) :
    parseHiveResponse printer loads action reply =
      parseHivePayload printer action (strip reply.text) fields := by
  obtain ⟨hstatus, hstripped, hloads⟩ := h
  unfold parseHiveResponse
  dsimp only
  rw [if_neg (Nat.not_le.mpr hstatus), if_neg (by simpa using hstripped), hloads]

theorem isObject_of_ok
    (h : (parseHiveResponse printer loads action reply).1 = true) :
    ∃ fields, reply.IsObject loads fields := by
  unfold parseHiveResponse at h
  dsimp only at h
  split_ifs at h with hstatus hstripped
  cases hloads : loads (strip reply.text) with
  | none =>
      rw [hloads] at h
      cases h
  | some value =>
      rw [hloads] at h
      cases value with
      | obj fields =>
          exact ⟨fields, Nat.not_le.mp hstatus, by simpa using hstripped, hloads⟩
      | _ => cases h

/-- What the script takes for a success is what Hive says. -/
theorem parseHiveResponse_ok_iff :
    (parseHiveResponse printer loads action reply).1 = true ↔
      ReportsDone printer loads reply ∨ ReportsAccepted loads reply := by
  have herror : ∀ fields : List (String × Json),
      ((fields.lookup "error").getD .null).truthy = false ↔
        ∀ error, fields.lookup "error" = some error → error.truthy = false := by
    intro fields
    cases fields.lookup "error" with
    | none => exact iff_of_true rfl fun _ h => by cases h
    | some error => exact ⟨fun h _ heq => Option.some.inj heq ▸ h, fun h => h error rfl⟩
  constructor
  · intro h
    obtain ⟨fields, hobject⟩ := isObject_of_ok h
    rw [parseHiveResponse_of_isObject hobject, parseHivePayload_ok_iff, herror] at h
    obtain ⟨hnone, rfl | hstatus⟩ := h
    · exact Or.inr hobject
    · exact Or.inl ⟨fields, hobject, hnone, hstatus⟩
  · rintro (⟨fields, hobject, hnone, hstatus⟩ | hobject)
    · rw [parseHiveResponse_of_isObject hobject, parseHivePayload_ok_iff, herror]
      exact ⟨hnone, Or.inr hstatus⟩
    · rw [parseHiveResponse_of_isObject hobject, parseHivePayload_ok_iff]
      exact ⟨rfl, Or.inl rfl⟩

/-- A result other than `accepted` is one that Hive has reported. -/
theorem reportsDone_of_ok
    (hok : (parseHiveResponse printer loads action reply).1 = true)
    (hresult : (parseHiveResponse printer loads action reply).2 ≠ acceptedResult) :
    ReportsDone printer loads reply := by
  refine (parseHiveResponse_ok_iff.mp hok).resolve_right fun haccepted => hresult ?_
  rw [parseHiveResponse_of_isObject haccepted]
  rfl

end Reports

section Programs

/-- What a thread does: it sends a request for a tablet, it pauses, it counts a
tablet as done, and it prints a line about one. -/
inductive HiveOp
  | post (action : Action) (tabletId : Int) (wait : Bool)
  | sleep (delay : Nat)
  | count (tabletId : Int) (ok : Bool)
  | print (tabletId : Int) (line : Str)

def hiveSignature : Signature where
  Op := HiveOp
  Answer
    | .post _ _ _ => HttpReply
    | .sleep _ | .count _ _ | .print _ _ => Unit

/-- Exceptions are their texts. -/
abbrev HiveProgram (α : Type) := Program hiveSignature Str α

variable (py : Interpreter) (printer : Printer) (loads : Str → Option Json)
variable (action : Action) (wait : Bool)

/-- `hive_tablet_action` -/
def hiveTabletAction (tabletId : Int) : HiveProgram (Bool × Str) := do
  let reply ← @Program.perform hiveSignature _ (.post action tabletId wait)
  return parseHiveResponse printer loads action reply

/-- The loop of `hive_action_with_retries` with the last `remaining` of its
attempts. -/
def hiveAttempts (tabletId : Int) (attempts : Nat) : Nat → HiveProgram (Bool × Str)
  | 0 => pure (false, "not attempted".toList)
  | remaining + 1 => do
      let last ← tryCatch (hiveTabletAction printer loads action wait tabletId) fun exc =>
        pure (false, oneLine ("request failed: ".toList ++ exc))
      if last.1 then return last
      if isFinalResult py last.2 then return last
      if remaining = 0 then return last
      let _ ← @Program.perform hiveSignature _ (.sleep (attempts - remaining))
      hiveAttempts tabletId attempts remaining

/-- `hive_action_with_retries` -/
def hiveActionWithRetries (tabletId : Int) (attempts : Nat) : HiveProgram (Bool × Str) :=
  hiveAttempts py printer loads action wait tabletId attempts attempts

/-- `Target.line` -/
def Target.line (target : Target) (result : Str) : Str :=
  target.path ++ '\t' :: printInt target.tabletId ++ '\t' :: target.role ++ '\t' ::
    target.detail ++ '\t' :: oneLine result

/-- The line that `process_target` prints. -/
def Target.report (target : Target) (last : Bool × Str) : Str :=
  target.line (if last.1 then last.2 else "error: ".toList ++ last.2)

/-- `process_target` -/
def processTarget (attempts : Nat) (target : Target) : HiveProgram Bool := do
  let last ← hiveActionWithRetries py printer loads action wait target.tabletId attempts
  let _ ← @Program.perform hiveSignature _ (.count target.tabletId last.1)
  let _ ← @Program.perform hiveSignature _ (.print target.tabletId (target.report last))
  return last.1

/-- The programs of the pool of `main`, under their tablets. -/
def targetPrograms (attempts : Nat) (targets : List Target) : List (Int × HiveProgram Bool) :=
  targets.map fun target =>
    (target.tabletId, processTarget py printer loads action wait attempts target)

end Programs

/-! ## Hive -/

section Hive

/-- Which tablets are stopped, the requests that came with their answers, the counted
tablets, and what was printed about which tablet. -/
structure Hive where
  stopped : Int → Bool
  posts : List (Int × Except Str HttpReply)
  counted : List (Int × Bool)
  printed : List (Int × Str)

/-- `progress['done']` and `progress['errors']` -/
def Hive.done (s : Hive) : Nat :=
  s.counted.length

@[inherit_doc Hive.done] def Hive.errors (s : Hive) : Nat :=
  s.counted.countP fun entry => !entry.2

/-- A request came. -/
def Hive.posted (s : Hive) (tabletId : Int) (answer : Except Str HttpReply) : Hive :=
  { s with posts := s.posts ++ [(tabletId, answer)] }

/-- An action is carried out. -/
def Hive.carry (s : Hive) (action : Action) (tabletId : Int) : Hive :=
  { s with stopped := Function.update s.stopped tabletId action.stops }

/-- The answers of Hive.  It says that an action was carried out only if it was; whatever
else is answered, or nothing, it may have been carried out. -/
inductive HiveAnswer (printer : Printer) (loads : Str → Option Json) :
    Environment hiveSignature Str Hive
  | carried
      (s : Hive) (action : Action) (tabletId : Int) (wait : Bool) (reply : HttpReply) :
      HiveAnswer printer loads s (.post action tabletId wait) (.ok reply)
        ((s.posted tabletId (.ok reply)).carry action tabletId)
  | ignored
      (s : Hive) (action : Action) (tabletId : Int) (wait : Bool) (reply : HttpReply)
      (hreply : ¬ ReportsDone printer loads reply) :
      HiveAnswer printer loads s (.post action tabletId wait) (.ok reply)
        (s.posted tabletId (.ok reply))
  | lost
      (s : Hive) (action : Action) (tabletId : Int) (wait : Bool) (exc : Str) :
      HiveAnswer printer loads s (.post action tabletId wait) (.error exc)
        (s.posted tabletId (.error exc))
  | lostCarried
      (s : Hive) (action : Action) (tabletId : Int) (wait : Bool) (exc : Str) :
      HiveAnswer printer loads s (.post action tabletId wait) (.error exc)
        ((s.posted tabletId (.error exc)).carry action tabletId)
  | slept
      (s : Hive) (delay : Nat) :
      HiveAnswer printer loads s (.sleep delay) (.ok ()) s
  | counted
      (s : Hive) (tabletId : Int) (ok : Bool) :
      HiveAnswer printer loads s (.count tabletId ok) (.ok ())
        { s with counted := s.counted ++ [(tabletId, ok)] }
  | printed
      (s : Hive) (tabletId : Int) (line : Str) :
      HiveAnswer printer loads s (.print tabletId line) (.ok ())
        { s with printed := s.printed ++ [(tabletId, line)] }

/-- Meanwhile Hive carries out requests that came before, and tablets that are not
selected are stopped and started by others. -/
inductive HiveDrift (action : Action) (selected : List Int) : Hive → Hive → Prop
  | late
      (s : Hive) (tabletId : Int)
      (hposted : tabletId ∈ s.posts.map Prod.fst) :
      HiveDrift action selected s (s.carry action tabletId)
  | others
      (s : Hive) (tabletId : Int) (other : Action)
      (hother : tabletId ∉ selected) :
      HiveDrift action selected s (s.carry other tabletId)

/-- The size of the pool of `main`. -/
def actionPoolSize (threads : Nat) (targets : List Target) : Nat :=
  min threads (if targets.length = 0 then 1 else targets.length)

/-- A state of the action phase over the targets. -/
def Acting
    (py : Interpreter) (printer : Printer) (loads : Str → Option Json) (action : Action)
    (wait : Bool) (attempts threads : Nat) (targets : List Target) (s : Hive)
    (pool : Pool Int hiveSignature Str Bool Hive) : Prop :=
  Pool.Reachable (HiveAnswer printer loads) (HiveDrift action (targets.map Target.tabletId))
    (actionPoolSize threads targets) s
    (targetPrograms py printer loads action wait attempts targets) pool

/-- `action_errors` -/
def actionErrors (results : List (Int × Except Str Bool)) : Nat :=
  results.countP fun result => match result.2 with
    | .ok ok => !ok
    | .error _ => false

/-- The exit status of `main` at its end. -/
def exitStatus (listingErrors describeErrors : List (Str × DescribeError)) (errors : Nat) : Nat :=
  if listingErrors ≠ [] ∨ describeErrors ≠ [] ∨ errors ≠ 0 then 2 else 0

end Hive

end Tablets
end YdbSnippets
