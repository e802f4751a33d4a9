import YdbSnippets.Effects.Program
import YdbSnippets.Python.Text
import YdbSnippets.Text.Search
import Mathlib.Data.ENat.Lattice
import Mathlib.Tactic.SplitIfs

/-!
# Retries of failed connections

`manage_tablets.py`: which exceptions are connection failures, and the loop
that repeats a request after one.
-/

namespace YdbSnippets
namespace Tablets

open Python Text Effects

section Exceptions

/-- The classes of exceptions the script tells apart. -/
inductive ExceptionClass
  | httpError
  | requestsConnectionError
  | chunkedEncodingError
  | connectionError
  | connectionResetError
  | connectionAbortedError
  | brokenPipeError
  | other
deriving DecidableEq, Repr

/-- An exception: its class and what `str` prints. -/
structure PyException where
  cls : ExceptionClass
  text : Str
deriving DecidableEq, Repr

variable (py : Interpreter)

/-- The markers of `is_access_denied`. -/
def accessDeniedMarkers : List String :=
  ["access denied", "доступ запрещ", "unauthorized", "forbidden", "permission denied",
    "http 401", "http 403", "401 client error", "403 client error"]

/-- `is_access_denied`, of the text of an exception. -/
def isAccessDenied (value : Str) : Bool :=
  let text := (py.lower value).map (fun c => if c = 'ё' then 'е' else c)
  accessDeniedMarkers.any (fun marker => occurs marker.toList text)

/-- The markers of `is_connection_error`. -/
def connectionMarkers : List String :=
  ["connection aborted", "connection reset", "connection broken", "connection refused",
    "connection error", "remote end closed", "remote disconnected", "broken pipe",
    "разрыв соединения", "ошибка соединения"]

/-- The text mentions a connection failure. -/
def mentionsConnection (value : Str) : Bool :=
  connectionMarkers.any (fun marker => occurs marker.toList (py.lower value))

/-- The exceptions that `is_connection_error` tells by their class. -/
def ExceptionClass.isConnection : ExceptionClass → Bool
  | requestsConnectionError | chunkedEncodingError | connectionError => true
  | connectionResetError | connectionAbortedError | brokenPipeError => true
  | httpError | other => false

/-- `is_connection_error` -/
def isConnectionError (exc : PyException) : Bool :=
  if isAccessDenied py exc.text || exc.cls == .httpError then false
  else if exc.cls.isConnection then true
  else mentionsConnection py exc.text

end Exceptions

section Loop

/-- What the loop does: it sends the request, or it waits. -/
inductive RetryOp
  | request
  | sleep (delay : Nat)

/-- A request answers with a value. -/
def retrySignature (α : Type) : Signature where
  Op := RetryOp
  Answer
    | .request => α
    | .sleep _ => Unit

/-- A program around a request for an `α`. -/
abbrev RetryProgram (α : Type) := Program (retrySignature α) PyException

variable (py : Interpreter) {α : Type}

def sendRequest : RetryProgram α α :=
  @Program.perform (retrySignature α) _ .request

def pause (delay : Nat) : RetryProgram α Unit :=
  @Program.perform (retrySignature α) _ (.sleep delay)

/-- The loop of `call_with_connection_retries` with `remaining` attempts after
the current one. -/
def attemptFrom (total : Nat) : Nat → RetryProgram α α
  | 0 => sendRequest
  | remaining + 1 =>
      tryCatch sendRequest fun exc =>
        if !isConnectionError py exc || isAccessDenied py exc.text then throw exc
        else do
          pause (total - (remaining + 1))
          attemptFrom total remaining

/-- `call_with_connection_retries` -/
def callWithConnectionRetries (schemeAttempts : Int) (attempts : Option Int) :
    RetryProgram α α :=
  let total := attempts.getD schemeAttempts
  let total := if total < 1 then 1 else total
  attemptFrom py total.toNat (total.toNat - 1)

/-- The requests sent so far, and the pauses made. -/
structure Attempts where
  calls : Nat
  pauses : List Nat

/-- A request whose outcomes are given: the first call has outcome 0. -/
def outcomesHandler (outcomes : Nat → Except PyException α) :
    Handler (retrySignature α) PyException Attempts
  | s, .request => (outcomes s.calls, { s with calls := s.calls + 1 })
  | s, .sleep delay => (.ok (), { s with pauses := s.pauses ++ [delay] })

end Loop

section Counting

variable {py : Interpreter} {α : Type} {outcomes : Nat → Except PyException α}

/-- The outcome is a connection failure by its class. -/
def IsConnectionFailure (outcome : Except PyException α) : Prop :=
  ∃ exc, outcome = .error exc ∧ exc.cls.isConnection = true

/-- The outcome is an exception whose text reads like denied access. -/
def ReadsDenied (py : Interpreter) (outcome : Except PyException α) : Prop :=
  ∃ exc, outcome = .error exc ∧ isAccessDenied py exc.text = true

/-- The outcomes a request may have: a value, a connection failure, an HTTP
status error, or an exception that mentions no connection failure. -/
def Ordinary (py : Interpreter) (outcome : Except PyException α) : Prop :=
  ∀ exc, outcome = .error exc →
    exc.cls.isConnection = true ∨ exc.cls = .httpError ∨
      mentionsConnection py exc.text = false

/-- The position, from 1, of the first outcome that is no connection failure. -/
noncomputable def firstOther (outcomes : Nat → Except PyException α) : ℕ∞ :=
  sInf {k | ∃ i : Nat, ¬ IsConnectionFailure (outcomes i) ∧ k = i + 1}

/-- A call that every earlier call makes necessary, and that is the last
allowed one or no connection failure, is the one to stop at. -/
theorem min_firstOther
    {n m : Nat}
    (hpos : 1 ≤ m) (hle : m ≤ n)
    (hbefore : ∀ i, i + 1 < m → IsConnectionFailure (outcomes i))
    (hstop : m = n ∨ ¬ IsConnectionFailure (outcomes (m - 1))) :
    min (n : ℕ∞) (firstOther outcomes) = m := by
  have hge : (m : ℕ∞) ≤ firstOther outcomes := by
    refine le_sInf ?_
    rintro k ⟨i, hi, rfl⟩
    have hm : m ≤ i + 1 := by
      by_contra hlt
      exact hi (hbefore i (by omega))
    exact_mod_cast hm
  rcases hstop with rfl | hother
  · exact min_eq_left hge
  · have heq : firstOther outcomes = m := by
      refine le_antisymm (sInf_le ⟨m - 1, hother, ?_⟩) hge
      have hcast : m = m - 1 + 1 := by omega
      exact_mod_cast hcast
    rw [heq]
    exact min_eq_right (by exact_mod_cast hle)

/-- The loop goes on after an outcome exactly if it is a connection failure
that does not read like denied access. -/
theorem retried_iff
    {exc : PyException}
    (hordinary : Ordinary (α := α) py (.error exc)) :
    (!isConnectionError py exc || isAccessDenied py exc.text) = false ↔
      exc.cls.isConnection = true ∧ isAccessDenied py exc.text = false := by
  have hne : exc.cls.isConnection = true → exc.cls ≠ .httpError := by
    rintro h heq
    rw [heq] at h
    cases h
  unfold isConnectionError
  cases hdenied : isAccessDenied py exc.text with
  | true => simp
  | false =>
      cases hclass : exc.cls.isConnection with
      | true => simp [hne hclass]
      | false =>
          rcases hordinary exc rfl with hconn | hhttp | hmention
          · rw [hclass] at hconn
            cases hconn
          · simp [hhttp]
          · simp [hmention]

/-- The loop ended with request `m`: each one before it was answered by a
connection failure that does not read like denied access. -/
structure StoppedAt
    (py : Interpreter) (outcomes : Nat → Except PyException α) (start remaining : Nat)
    (result : Except PyException α × Attempts) (m : Nat) : Prop where
  after : start < m
  within : m ≤ start + remaining + 1
  outcome : result.1 = outcomes (m - 1)
  calls : result.2.calls = m
  retried : ∀ i, start ≤ i → i + 1 < m →
    IsConnectionFailure (outcomes i) ∧ ¬ ReadsDenied py (outcomes i)
  ended : m = start + remaining + 1 ∨ ¬ IsConnectionFailure (outcomes (m - 1)) ∨
    ReadsDenied py (outcomes (m - 1))

theorem run_attemptFrom
    (total remaining : Nat) (s : Attempts)
    (hordinary : ∀ i, Ordinary py (outcomes i)) :
    ∃ m, StoppedAt py outcomes s.calls remaining
      ((attemptFrom py total remaining).run (outcomesHandler outcomes) s) m := by
  induction remaining generalizing s with
  | zero =>
      have hrun : (attemptFrom py total 0).run (outcomesHandler outcomes) s =
          (outcomes s.calls, { s with calls := s.calls + 1 }) :=
        Program.run_perform _ s
      rw [hrun]
      exact ⟨s.calls + 1, by omega, by omega, rfl, rfl, by omega, Or.inl rfl⟩
  | succ remaining ih =>
      have hrun : (sendRequest : RetryProgram α α).run (outcomesHandler outcomes) s =
          (outcomes s.calls, { s with calls := s.calls + 1 }) :=
        Program.run_perform _ s
      -- the loop ends with this request unless it goes on after its outcome
      have hends : ¬ IsConnectionFailure (outcomes s.calls) ∨
            ReadsDenied py (outcomes s.calls) →
          StoppedAt py outcomes s.calls (remaining + 1)
            (outcomes s.calls, { s with calls := s.calls + 1 }) (s.calls + 1) :=
        fun hstop => ⟨by omega, by omega, rfl, rfl, by omega, Or.inr hstop⟩
      cases houtcome : outcomes s.calls with
      | ok value =>
          have hloop : (attemptFrom py total (remaining + 1)).run (outcomesHandler outcomes) s =
              (outcomes s.calls, { s with calls := s.calls + 1 }) := by
            simp only [attemptFrom, Program.tryCatch_def, Program.run_tryCatch, hrun, houtcome]
          rw [hloop]
          refine ⟨_, hends (Or.inl ?_)⟩
          rw [houtcome]
          rintro ⟨exc, ⟨⟩, -⟩
      | error exc =>
          have hretried := retried_iff (houtcome ▸ hordinary s.calls)
          cases hraise : !isConnectionError py exc || isAccessDenied py exc.text with
          | true =>
              have hloop : (attemptFrom py total (remaining + 1)).run
                  (outcomesHandler outcomes) s =
                  (outcomes s.calls, { s with calls := s.calls + 1 }) := by
                simp only [attemptFrom, Program.tryCatch_def, Program.run_tryCatch, hrun,
                  houtcome, hraise, if_true]
                rfl
              rw [hloop]
              refine ⟨_, hends ?_⟩
              rw [houtcome]
              cases hdenied : isAccessDenied py exc.text with
              | true => exact Or.inr ⟨exc, rfl, hdenied⟩
              | false =>
                  left
                  rintro ⟨exc', heq, hclass⟩
                  cases heq
                  rw [hretried.mpr ⟨hclass, hdenied⟩] at hraise
                  cases hraise
          | false =>
              obtain ⟨hclass, hdenied⟩ := hretried.mp hraise
              have hloop : (attemptFrom py total (remaining + 1)).run
                  (outcomesHandler outcomes) s =
                  (attemptFrom py total remaining).run (outcomesHandler outcomes)
                    { calls := s.calls + 1
                      pauses := s.pauses ++ [total - (remaining + 1)] } := by
                simp only [attemptFrom, Program.tryCatch_def, Program.run_tryCatch, hrun,
                  houtcome, hraise, Bool.false_eq_true, if_false, Program.bind_def,
                  Program.run_bind]
                rfl
              obtain ⟨m, hm⟩ := ih
                { calls := s.calls + 1, pauses := s.pauses ++ [total - (remaining + 1)] }
              obtain ⟨hlt, hle, hresult, hcalls, hbefore, hstop⟩ := hm
              simp only at hlt hle hbefore hstop
              rw [hloop]
              refine ⟨m, by omega, by omega, hresult, hcalls, ?_, ?_⟩
              · intro i hge hi
                rcases Nat.eq_or_lt_of_le hge with rfl | hgt
                · refine ⟨⟨exc, houtcome, hclass⟩, ?_⟩
                  rintro ⟨exc', heq, hdenied'⟩
                  rw [houtcome] at heq
                  cases heq
                  rw [hdenied] at hdenied'
                  cases hdenied'
                · exact hbefore i hgt hi
              · refine hstop.imp_left fun h => ?_
                omega

/-- The request was sent `min n k` times, where `k` is the position of the first
outcome that is no connection failure, and the last outcome is passed on. -/
def RetriesConnectionFailures
    (outcomes : Nat → Except PyException α) (n : Nat)
    (result : Except PyException α × Attempts) : Prop :=
  (result.2.calls : ℕ∞) = min (n : ℕ∞) (firstOther outcomes) ∧
    result.1 = outcomes (result.2.calls - 1)

/-- Exactly the connection failures are retried, as long as none before the
last attempt reads like denied access. -/
theorem retries_connection_failures_iff
    (py : Interpreter) (outcomes : Nat → Except PyException α)
    (schemeAttempts : Int) (attempts : Option Int) (n : Nat)
    (hn : 1 ≤ n) (htotal : attempts.getD schemeAttempts = n)
    (hordinary : ∀ i, Ordinary py (outcomes i)) :
    RetriesConnectionFailures outcomes n
        ((callWithConnectionRetries py schemeAttempts attempts).run
          (outcomesHandler outcomes) ⟨0, []⟩) ↔
      ∀ i : Nat, ((i + 1 : Nat) : ℕ∞) < min (n : ℕ∞) (firstOther outcomes) →
        ¬ ReadsDenied py (outcomes i) := by
  have hcall : callWithConnectionRetries (α := α) py schemeAttempts attempts =
      attemptFrom py n (n - 1) := by
    unfold callWithConnectionRetries
    rw [htotal]
    have hlarge : ¬ (n : Int) < 1 := by omega
    simp only [if_neg hlarge, Int.toNat_natCast]
  obtain ⟨m, hpos, hle, hresult, hcalls, hbefore, hstop⟩ :=
    run_attemptFrom n (n - 1) ⟨0, []⟩ hordinary
  rw [hcall]
  unfold RetriesConnectionFailures
  rw [hcalls, hresult]
  have hfailures : ∀ i, i + 1 < m → IsConnectionFailure (outcomes i) :=
    fun i hi => (hbefore i (Nat.zero_le _) hi).1
  have hlast : m = n ∨ ¬ IsConnectionFailure (outcomes (m - 1)) ∨
      ReadsDenied py (outcomes (m - 1)) := by
    refine hstop.imp_left fun h => ?_
    simp only at h
    omega
  have hle' : m ≤ n := by
    simp only at hle
    omega
  constructor
  · rintro ⟨hmin, -⟩ i hi
    rw [← hmin] at hi
    exact (hbefore i (Nat.zero_le _) (by exact_mod_cast hi)).2
  · intro hnot
    refine ⟨?_, rfl⟩
    by_cases hother : m = n ∨ ¬ IsConnectionFailure (outcomes (m - 1))
    · exact (min_firstOther hpos hle' hfailures hother).symm
    · -- the loop gave up at a connection failure that reads like denied access
      exfalso
      obtain ⟨hne, hfailure⟩ := not_or.mp hother
      rw [not_not] at hfailure
      have hdenied := (hlast.resolve_left hne).resolve_left (not_not.mpr hfailure)
      refine hnot (m - 1) ?_ hdenied
      have hcast : m - 1 + 1 = m := by omega
      rw [hcast]
      refine lt_min (by exact_mod_cast Nat.lt_of_le_of_ne hle' hne) ?_
      refine (ENat.add_one_le_iff (ENat.natCast_ne_top m)).mp ?_
      refine le_sInf ?_
      rintro k ⟨i, hi, rfl⟩
      have hge : m + 1 ≤ i + 1 := by
        by_contra hlt
        by_cases heq : i = m - 1
        · exact hi (heq ▸ hfailure)
        · exact hi (hfailures i (by omega))
      exact_mod_cast hge

/-- A connection that is reset once. -/
def resetOnce : Nat → Except PyException Nat
  | 0 => .error ⟨.connectionResetError, "[Errno 104] Connection reset by peer".toList⟩
  | _ + 1 => .ok 7

theorem retries_connection_failures_reset :
    RetriesConnectionFailures resetOnce 5
        ((callWithConnectionRetries asciiInterpreter 5 none).run
          (outcomesHandler resetOnce) ⟨0, []⟩) ↔
      ∀ i : Nat, ((i + 1 : Nat) : ℕ∞) < min ((5 : Nat) : ℕ∞) (firstOther resetOnce) →
        ¬ ReadsDenied asciiInterpreter (resetOnce i) := by
  refine retries_connection_failures_iff asciiInterpreter resetOnce 5 none 5 (by decide) rfl ?_
  rintro (_ | i) exc hexc
  · cases hexc
    exact Or.inl rfl
  · cases hexc

/-- Every connection for the directory `/db/forbidden` is refused. -/
def refusedForbidden : Nat → Except PyException Nat :=
  fun _ => .error ⟨.requestsConnectionError,
    "Max retries exceeded with url: /viewer/json/describe?path=/db/forbidden".toList⟩

/-- A connection failure for a path with `forbidden` in its name is not
retried. -/
theorem forbidden_path_not_retried :
    ¬ ∀ (py : Interpreter) (outcomes : Nat → Except PyException Nat)
        (schemeAttempts : Int) (attempts : Option Int) (n : Nat),
        1 ≤ n → attempts.getD schemeAttempts = n → (∀ i, Ordinary py (outcomes i)) →
        RetriesConnectionFailures outcomes n
          ((callWithConnectionRetries py schemeAttempts attempts).run
            (outcomesHandler outcomes) ⟨0, []⟩) := by
  intro hclaim
  have hordinary : ∀ i, Ordinary asciiInterpreter (refusedForbidden i) := by
    intro i exc hexc
    cases hexc
    exact Or.inl rfl
  have h := (hclaim asciiInterpreter refusedForbidden 5 none 5 (by decide) rfl hordinary).1
  have hcalls : ((callWithConnectionRetries asciiInterpreter 5 none).run
      (outcomesHandler refusedForbidden) ⟨0, []⟩).2.calls = 1 := by
    unfold refusedForbidden
    rw [String.toList_ofList]
    decide +kernel
  have hmin : min ((5 : Nat) : ℕ∞) (firstOther refusedForbidden) = (5 : Nat) :=
    min_firstOther (by decide) (Nat.le_refl 5) (fun _ _ => ⟨_, rfl, rfl⟩) (Or.inl rfl)
  rw [hcalls, hmin] at h
  exact absurd h (by decide)

end Counting

end Tablets
end YdbSnippets
