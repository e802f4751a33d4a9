import YdbSnippets.Effects.Threads
import YdbSnippets.Python.Bytes
import YdbSnippets.Python.Text

/-!
# The token file

`get_token.py` logs in and keeps the session token in a file, which any number of
tools on a host refresh.  Whoever refreshes it holds a lock on the file, and looks at
its age only then.

A write may carry fewer bytes than it was given, and the time of a file may lag
behind the clock: `lag` says how far.
-/

namespace YdbSnippets
namespace Tokens

open Effects Python

section World

variable {κ : Type}

/-- What a script may raise. -/
inductive Failure
  /-- `RuntimeError` -/
  | runtime
  /-- `requests.RequestException` -/
  | request
  /-- `OSError` -/
  | os
  /-- anything else -/
  | other
deriving DecidableEq, Repr

structure TokenFile where
  content : Bytes
  mtime : Nat

/-- What was to be written to the file, how many bytes of it were, when, and through which
descriptor. -/
structure Save (κ : Type) where
  fd : κ
  data : Bytes
  count : Nat
  time : Nat

/-- The bytes that were written. -/
def Save.written {κ : Type} (save : Save κ) : Bytes :=
  save.data.take save.count

/-- The clock, the file, the descriptor that has it locked, and the writes to it, the
last one first. -/
structure TokenWorld (κ : Type) where
  now : Nat
  file : Option TokenFile
  holder : Option κ
  saved : List (Save κ)

/-- What `os.stat` tells of the file. -/
structure FileStat where
  size : Nat
  mtime : Nat

/-- What `/login` replies: `response.ok` and the cookie `ydb_session_id`. -/
structure LoginResponse where
  ok : Bool
  sessionId : Option Str

inductive TokenOp (κ : Type)
  | openFile (fd : κ)
  | lock (fd : κ)
  | unlock (fd : κ)
  | close (fd : κ)
  | stat
  | time
  | post
  | lseek (fd : κ)
  | ftruncate (fd : κ)
  | write (fd : κ) (data : Bytes)
  | fsync (fd : κ)
  | fchmod (fd : κ)

def tokenSignature (κ : Type) : Signature where
  Op := TokenOp κ
  Answer
    | .stat => Option FileStat
    | .time => Nat
    | .post => LoginResponse
    | .write _ _ => Nat
    | _ => Unit

abbrev TokenProgram (κ α : Type) := Program (tokenSignature κ) Failure α

def TokenFile.stat (f : TokenFile) : FileStat where
  size := f.content.length
  mtime := f.mtime

variable [DecidableEq κ]

/-- The lock is given up, if it is held through this descriptor. -/
def TokenWorld.release (s : TokenWorld κ) (fd : κ) : TokenWorld κ :=
  if s.holder = some fd then { s with holder := none } else s

/-- What a change makes the time of the file: the clock, or at most `lag` before it. -/
def TokenWorld.Stamps (lag : Nat) (s : TokenWorld κ) (mtime : Nat) : Prop :=
  mtime ≤ s.now ∧ s.now ≤ mtime + lag

/-- An operation that is carried out.  A lock is only given when nobody holds it.  The
answer to a write is the number of bytes written, from the start of the file. -/
def Carried (lag : Nat) (s : TokenWorld κ) :
    (op : TokenOp κ) → Except Failure ((tokenSignature κ).Answer op) → TokenWorld κ → Prop
  | .openFile _, r, s' =>
      r = .ok () ∧ ∃ mtime, s.Stamps lag mtime ∧
        s' = { s with file := some (s.file.getD ⟨[], mtime⟩) }
  | .lock fd, r, s' => s.holder = none ∧ r = .ok () ∧ s' = { s with holder := some fd }
  | .unlock fd, r, s' => r = .ok () ∧ s' = s.release fd
  | .close fd, r, s' => r = .ok () ∧ s' = s.release fd
  | .stat, r, s' => r = .ok (s.file.map TokenFile.stat) ∧ s' = s
  | .time, r, s' => r = .ok s.now ∧ s' = s
  | .post, r, s' => (∃ response, r = .ok response) ∧ s' = s
  | .ftruncate _, r, s' =>
      r = .ok () ∧ ∃ mtime, s.Stamps lag mtime ∧
        s' = { s with file := s.file.map fun _ => ⟨[], mtime⟩ }
  | .write fd data, r, s' =>
      ∃ count mtime : Nat, r = .ok count ∧ count ≤ data.length ∧ s.Stamps lag mtime ∧
        s' = { s with
          file := s.file.map fun f => ⟨data.take count ++ f.content.drop count, mtime⟩
          saved := ⟨fd, data, count, s.now⟩ :: s.saved }
  | .lseek _, r, s' => r = .ok () ∧ s' = s
  | .fsync _, r, s' => r = .ok () ∧ s' = s
  | .fchmod _, r, s' => r = .ok () ∧ s' = s

/-- The lock of an open file can always be given up. -/
def TokenOp.MayFail : TokenOp κ → Prop
  | .unlock _ => False
  | .close _ => False
  | _ => True

/-- Operations are carried out, or fail and change nothing. -/
def host (lag : Nat) : Environment (tokenSignature κ) Failure (TokenWorld κ) :=
  fun s op r s' => Carried lag s op r s' ∨ (TokenOp.MayFail op ∧ (∃ e, r = .error e) ∧ s' = s)

/-- Time passes. -/
def Passes (s s' : TokenWorld κ) : Prop :=
  ∃ now, s.now ≤ now ∧ s' = { s with now := now }

end World

section Script

variable {κ : Type}

namespace TokenProgram

def stat : TokenProgram κ (Option FileStat) :=
  Program.perform (S := tokenSignature κ) .stat

def time : TokenProgram κ Nat :=
  Program.perform (S := tokenSignature κ) .time

def post : TokenProgram κ LoginResponse :=
  Program.perform (S := tokenSignature κ) .post

def openFile (fd : κ) : TokenProgram κ Unit :=
  Program.perform (S := tokenSignature κ) (.openFile fd)

def lock (fd : κ) : TokenProgram κ Unit :=
  Program.perform (S := tokenSignature κ) (.lock fd)

def unlock (fd : κ) : TokenProgram κ Unit :=
  Program.perform (S := tokenSignature κ) (.unlock fd)

def close (fd : κ) : TokenProgram κ Unit :=
  Program.perform (S := tokenSignature κ) (.close fd)

def lseek (fd : κ) : TokenProgram κ Unit :=
  Program.perform (S := tokenSignature κ) (.lseek fd)

def ftruncate (fd : κ) : TokenProgram κ Unit :=
  Program.perform (S := tokenSignature κ) (.ftruncate fd)

def write (fd : κ) (data : Bytes) : TokenProgram κ Nat :=
  Program.perform (S := tokenSignature κ) (.write fd data)

def fsync (fd : κ) : TokenProgram κ Unit :=
  Program.perform (S := tokenSignature κ) (.fsync fd)

def fchmod (fd : κ) : TokenProgram κ Unit :=
  Program.perform (S := tokenSignature κ) (.fchmod fd)

end TokenProgram

open TokenProgram

/-- `TOKEN_MAX_AGE_SEC`, in nanoseconds -/
def tokenMaxAge : Nat := 5 * 60 * 1000000000

/-- `LOGIN_MAX_ATTEMPTS` -/
def loginMaxAttempts : Nat := 10

/-- `token_is_fresh` -/
def tokenIsFresh : TokenProgram κ Bool := do
  let st ← stat
  match st with
  | none => return false
  | some st =>
      if st.size = 0 then return false
      else do
        let now ← time
        return decide (now < st.mtime + tokenMaxAge)

/-- The token of a response. -/
def tokenOf (response : LoginResponse) : Except Failure Str :=
  if !response.ok then .error .runtime
  else if response.sessionId.getD [] = [] then .error .runtime
  else .ok (response.sessionId.getD [])

/-- The exceptions that a login is repeated after. -/
def Failure.isRepeated : Failure → Bool
  | .runtime => true
  | .request => true
  | .os => false
  | .other => false

/-- The loop of `fetch_session_token`, with the attempts that are left. -/
def loginLoop : Nat → TokenProgram κ Str
  | 0 => throw .runtime
  | n + 1 =>
      tryCatch
        (do
          let response ← post
          Program.ofExcept (tokenOf response))
        fun e => if e.isRepeated then loginLoop n else throw e

/-- `fetch_session_token` -/
def fetchSessionToken : TokenProgram κ Str :=
  loginLoop loginMaxAttempts

/-- What `update_token` does while it holds the lock. -/
def updateLocked (fd : κ) : TokenProgram κ Bool := do
  let fresh ← tokenIsFresh
  if fresh then return false
  else do
    let token ← fetchSessionToken
    lseek fd
    ftruncate fd
    let _count ← write fd (encode (token ++ ['\n']))
    fsync fd
    fchmod fd
    return true

/-- `update_token` -/
def updateToken (fd : κ) : TokenProgram κ Bool := do
  openFile fd
  Program.andFinally
    (do
      lock fd
      Program.andFinally (updateLocked fd) (unlock fd))
    (close fd)

end Script

end Tokens
end YdbSnippets
