import Mathlib.Logic.Basic
import Mathlib.Logic.Relation
import Mathlib.Data.List.Basic

/-!
# Programs over fallible operations

A small library for tools that talk to something outside themselves: an
object store, a scheme server, a database.  Such a tool is a finite tree of
operation requests.  Every request is answered either by a value or by an
exception, and the rest of the program depends on that answer.

The outside world is an *environment*: a relation that says which answers an
operation may get in a state and which state it leaves.  A lost reply, a
failure without effect and a failure after the effect are all answers of the
environment, so nothing in the program has to mention them.

* `Reaches` is one uninterrupted stretch of a run: cutting a program at any
  point leaves a state it reaches.
* `Restarts` is any number of such cut runs, one after another.
* `Safe` is the proof rule: an invariant that holds in every state reached,
  together with a postcondition for the two ways a program can end.
* `run` executes a program against a deterministic handler.
-/

namespace YdbSnippets
namespace Effects

/-- Operations a program may request, each with the type of its answer. -/
structure Signature where
  Op : Type
  Answer : Op → Type

/-- A finite program: it returns, raises, or requests one operation and goes
on with the answer or with the exception the operation raised. -/
inductive Program (S : Signature) (ε α : Type) : Type
  | pure (a : α)
  | raise (e : ε)
  | call
      (op : S.Op)
      (next : Except ε (S.Answer op) → Program S ε α)

section Programs

variable {S : Signature}
variable {ε α β σ : Type}

namespace Program

/-- Sequential composition. -/
def bind :
    Program S ε α → (α → Program S ε β) → Program S ε β
  | .pure a, f => f a
  | .raise e, _ => .raise e
  | .call op next, f => .call op (fun r => (next r).bind f)

/-- Exception handling. -/
def tryCatch :
    Program S ε α → (ε → Program S ε α) → Program S ε α
  | .pure a, _ => .pure a
  | .raise e, h => h e
  | .call op next, h => .call op (fun r => (next r).tryCatch h)

/-- Return the exception of a program as a value. -/
def attempt : Program S ε α → Program S ε (Except ε α)
  | .pure a => .pure (.ok a)
  | .raise e => .pure (.error e)
  | .call op next => .call op (fun r => (next r).attempt)

/-- Every operation the program may request satisfies `P`. -/
def Uses (P : S.Op → Prop) : Program S ε α → Prop
  | .pure _ => True
  | .raise _ => True
  | .call op next => P op ∧ ∀ r, (next r).Uses P

/-- The program that only returns or only raises. -/
def ofExcept : Except ε α → Program S ε α
  | .ok a => .pure a
  | .error e => .raise e

/-- `try: … finally: …` -/
def andFinally (p : Program S ε α) (q : Program S ε Unit) : Program S ε α :=
  p.attempt.bind fun r => q.bind fun _ => ofExcept r

/-- Request one operation and return its answer. -/
def perform (op : S.Op) : Program S ε (S.Answer op) :=
  .call op ofExcept

/-- A program that handles no exception, over other operations: each request is made as
`ask` says. -/
def embed
    {T : Signature} {δ : Type} (ask : (op : S.Op) → Program T δ (S.Answer op)) (raised : ε → δ) :
    Program S ε α → Program T δ α
  | .pure a => .pure a
  | .raise e => .raise (raised e)
  | .call op next => (ask op).bind fun a => (next (.ok a)).embed ask raised

instance : Monad (Program S ε) where
  pure := .pure
  bind := bind

instance : MonadExceptOf ε (Program S ε) where
  throw := .raise
  tryCatch := tryCatch

@[simp] theorem pure_def (a : α) :
    (Pure.pure a : Program S ε α) = .pure a := rfl

@[simp] theorem bind_def
    (p : Program S ε α) (f : α → Program S ε β) :
    (p >>= f) = p.bind f := rfl

@[simp] theorem throw_def (e : ε) :
    (throw e : Program S ε α) = .raise e := rfl

@[simp] theorem tryCatch_def
    (p : Program S ε α) (h : ε → Program S ε α) :
    (MonadExcept.tryCatch p h) = p.tryCatch h := rfl

@[simp] theorem bind_pure_left (a : α) (f : α → Program S ε β) :
    (Program.pure a).bind f = f a := rfl

@[simp] theorem bind_raise (e : ε) (f : α → Program S ε β) :
    (Program.raise e).bind f = .raise e := rfl

section Uses

variable {P : S.Op → Prop}

theorem uses_perform
    {op : S.Op}
    (h : P op) :
    (perform op : Program S ε _).Uses P := by
  refine ⟨h, ?_⟩
  intro r
  cases r <;> trivial

theorem uses_ofExcept (r : Except ε α) :
    (ofExcept r : Program S ε α).Uses P := by
  cases r <;> trivial

theorem uses_bind
    {p : Program S ε α} {f : α → Program S ε β}
    (hp : p.Uses P) (hf : ∀ a, (f a).Uses P) :
    (p.bind f).Uses P := by
  induction p with
  | pure a => exact hf a
  | raise e => trivial
  | call op next ih => exact ⟨hp.1, fun r => ih r (hp.2 r)⟩

theorem uses_tryCatch
    {p : Program S ε α} {k : ε → Program S ε α}
    (hp : p.Uses P) (hk : ∀ e, (k e).Uses P) :
    (p.tryCatch k).Uses P := by
  induction p with
  | pure a => trivial
  | raise e => exact hk e
  | call op next ih => exact ⟨hp.1, fun r => ih r (hp.2 r)⟩

theorem uses_attempt
    {p : Program S ε α}
    (hp : p.Uses P) :
    p.attempt.Uses P := by
  induction p with
  | pure a => trivial
  | raise e => trivial
  | call op next ih => exact ⟨hp.1, fun r => ih r (hp.2 r)⟩

end Uses

section Returns

/-- Whatever the world answers, the outcome of the program satisfies `P`. -/
def Returns (P : Except ε α → Prop) : Program S ε α → Prop
  | .pure a => P (.ok a)
  | .raise e => P (.error e)
  | .call _ next => ∀ r, (next r).Returns P

theorem Returns.mono
    {P Q : Except ε α → Prop} {p : Program S ε α}
    (hp : p.Returns P) (himp : ∀ r, P r → Q r) :
    p.Returns Q := by
  induction p with
  | pure a => exact himp _ hp
  | raise e => exact himp _ hp
  | call op next ih => exact fun r => ih r (hp r)

/-- What follows a program satisfies `P`, if its exceptions do. -/
theorem returns_bind
    {P : Except ε β → Prop} {p : Program S ε α} {f : α → Program S ε β}
    (herror : ∀ e, P (.error e)) (hf : ∀ a, (f a).Returns P) :
    (p.bind f).Returns P := by
  induction p with
  | pure a => exact hf a
  | raise e => exact herror e
  | call op next ih => exact ih

/-- A handled program, and what follows it. -/
theorem returns_tryCatch_bind
    {P : Except ε β → Prop} {p : Program S ε α} {k : ε → Program S ε α}
    {f : α → Program S ε β}
    (hp : p.Returns fun r => match r with
      | .ok a => (f a).Returns P
      | .error e => ((k e).bind f).Returns P) :
    ((p.tryCatch k).bind f).Returns P := by
  induction p with
  | pure a => exact hp
  | raise e => exact hp
  | call op next ih => exact fun r => ih r (hp r)

end Returns

section Quiet

/-- The program does not raise, as long as the operations that satisfy `P` do not. -/
def Quiet (P : S.Op → Prop) : Program S ε α → Prop
  | .pure _ => True
  | .raise _ => False
  | .call op next => (∀ a, (next (.ok a)).Quiet P) ∧ (P op ∨ ∀ e, (next (.error e)).Quiet P)

variable {P : S.Op → Prop}

theorem quiet_perform
    {op : S.Op}
    (h : P op) :
    (perform op : Program S ε _).Quiet P :=
  ⟨fun _ => trivial, Or.inl h⟩

/-- Whatever a program raises, an attempt returns it. -/
theorem quiet_attempt (p : Program S ε α) :
    p.attempt.Quiet P := by
  induction p with
  | pure a => trivial
  | raise e => trivial
  | call op next ih => exact ⟨fun a => ih (.ok a), Or.inr fun e => ih (.error e)⟩

theorem quiet_bind
    {p : Program S ε α} {f : α → Program S ε β}
    (hp : p.Quiet P) (hf : ∀ a, (f a).Quiet P) :
    (p.bind f).Quiet P := by
  induction p with
  | pure a => exact hf a
  | raise e => exact hp.elim
  | call op next ih =>
      exact ⟨fun a => ih (.ok a) (hp.1 a), hp.2.imp_right fun h e => ih (.error e) (h e)⟩

end Quiet

end Program

/-- Which answers an operation may get in a state, and the state it leaves. -/
abbrev Environment (S : Signature) (ε σ : Type) :=
  σ → (op : S.Op) → Except ε (S.Answer op) → σ → Prop

/-- A run of a program up to some point: the state and the rest of the
program at that point. -/
inductive Reaches (env : Environment S ε σ) :
    σ → Program S ε α → σ → Program S ε α → Prop
  | here {s : σ} {p : Program S ε α} :
      Reaches env s p s p
  | step {s s' s'' : σ} {op : S.Op}
      {next : Except ε (S.Answer op) → Program S ε α}
      {r : Except ε (S.Answer op)} {p : Program S ε α} :
      env s op r s' →
      Reaches env s' (next r) s'' p →
      Reaches env s (.call op next) s'' p

/-- A run to the end: the program returned or raised `r`. -/
def Completes (env : Environment S ε σ)
    (s : σ) (p : Program S ε α) (r : Except ε α) (s' : σ) : Prop :=
  Reaches env s p s' (Program.ofExcept r)

theorem Program.Returns.of_reaches
    {env : Environment S ε σ} {P : Except ε α → Prop} {p q : Program S ε α} {s s' : σ}
    (hr : Reaches env s p s' q) (hp : p.Returns P) :
    q.Returns P := by
  induction hr with
  | here => exact hp
  | step _ _ ih => exact ih (hp _)

/-- The outcome of a completed run is one the program may have. -/
theorem Program.Returns.of_completes
    {env : Environment S ε σ} {P : Except ε α → Prop} {p : Program S ε α}
    {s s' : σ} {r : Except ε α}
    (hr : Completes env s p r s') (hp : p.Returns P) :
    P r := by
  have hend := hp.of_reaches hr
  cases r <;> exact hend

/-- One step of a system that runs programs of `P` over and over: an operation
of the current run is answered, or the run is given up and another one starts. -/
inductive RestartStep (env : Environment S ε σ) (P : Program S ε α → Prop) :
    σ × Program S ε α → σ × Program S ε α → Prop
  | operation {s s' : σ} {op : S.Op}
      {next : Except ε (S.Answer op) → Program S ε α}
      {r : Except ε (S.Answer op)} :
      env s op r s' →
      RestartStep env P (s, .call op next) (s', next r)
  | restart {s : σ} {p q : Program S ε α} :
      P p →
      RestartStep env P (s, q) (s, p)

/-- Any number of runs, each cut at any point. -/
def Restarts (env : Environment S ε σ) (P : Program S ε α → Prop) :
    σ × Program S ε α → σ × Program S ε α → Prop :=
  Relation.ReflTransGen (RestartStep env P)

/--
`Safe env I Q p s`: in every state that `p` reaches from `s` the invariant `I`
holds, and `Q` holds of the outcome if `p` ends.
-/
def Safe (env : Environment S ε σ)
    (I : σ → Prop) (Q : Except ε α → σ → Prop) :
    Program S ε α → σ → Prop
  | .pure a, s => I s ∧ Q (.ok a) s
  | .raise e, s => I s ∧ Q (.error e) s
  | .call op next, s =>
      I s ∧ ∀ r s', env s op r s' → Safe env I Q (next r) s'

namespace Safe

variable {env : Environment S ε σ}
variable {I J : σ → Prop} {Q R : Except ε α → σ → Prop}

/-- The invariant holds where a safe program starts. -/
theorem inv
    {p : Program S ε α} {s : σ}
    (h : Safe env I Q p s) :
    I s := by
  cases p <;> exact h.1

/-- A safe program stays safe along its runs. -/
theorem of_reaches
    {p q : Program S ε α} {s s' : σ}
    (hr : Reaches env s p s' q)
    (h : Safe env I Q p s) :
    Safe env I Q q s' := by
  induction hr with
  | here => exact h
  | step henv _ ih => exact ih (h.2 _ _ henv)

/-- The invariant holds in every state reached. -/
theorem inv_of_reaches
    {p q : Program S ε α} {s s' : σ}
    (hr : Reaches env s p s' q)
    (h : Safe env I Q p s) :
    I s' :=
  (h.of_reaches hr).inv

/-- The postcondition holds of every completed run. -/
theorem post
    {p : Program S ε α} {s s' : σ} {r : Except ε α}
    (hr : Completes env s p r s')
    (h : Safe env I Q p s) :
    Q r s' := by
  have hend := h.of_reaches hr
  cases r <;> exact hend.2

/-- Consequence. -/
theorem mono
    (hI : ∀ s, I s → J s)
    (hQ : ∀ r s, I s → Q r s → R r s)
    {p : Program S ε α} {s : σ}
    (h : Safe env I Q p s) :
    Safe env J R p s := by
  induction p generalizing s with
  | pure a => exact ⟨hI _ h.1, hQ _ _ h.1 h.2⟩
  | raise e => exact ⟨hI _ h.1, hQ _ _ h.1 h.2⟩
  | call op next ih =>
      exact ⟨hI _ h.1, fun r s' henv => ih r (h.2 r s' henv)⟩

/-- An invariant that the operations of a program keep is kept by the program. -/
theorem of_uses
    {P : S.Op → Prop}
    (hI : ∀ s op r s', P op → I s → env s op r s' → I s')
    {p : Program S ε α} {s : σ}
    (hp : p.Uses P) (hs : I s) :
    Safe env I (fun _ _ => True) p s := by
  induction p generalizing s with
  | pure a => exact ⟨hs, trivial⟩
  | raise e => exact ⟨hs, trivial⟩
  | call op next ih =>
      refine ⟨hs, ?_⟩
      intro r s' henv
      exact ih r (hp.2 r) (hI s op r s' hp.1 hs henv)

/-- Weaken the postcondition only. -/
theorem weaken
    (hQ : ∀ r s, I s → Q r s → R r s)
    {p : Program S ε α} {s : σ}
    (h : Safe env I Q p s) :
    Safe env I R p s :=
  h.mono (fun _ hI => hI) hQ

/-- One operation: the invariant holds before it, and every answer the
environment may give leaves the invariant and the postcondition. -/
theorem perform
    {op : S.Op} {Q : Except ε (S.Answer op) → σ → Prop} {s : σ}
    (hI : I s)
    (h : ∀ r s', env s op r s' → I s' ∧ Q r s') :
    Safe env I Q (Program.perform op) s := by
  refine ⟨hI, ?_⟩
  intro r s' henv
  cases r <;> exact h _ _ henv

/-- What must hold of the outcome of `p` for `p` followed by `f` to be safe. -/
def bindPost (env : Environment S ε σ)
    (I : σ → Prop) (Q : Except ε β → σ → Prop)
    (f : α → Program S ε β) : Except ε α → σ → Prop
  | .ok a, s => Safe env I Q (f a) s
  | .error e, s => Q (.error e) s

/-- Sequential composition. -/
theorem bind
    {Q : Except ε β → σ → Prop} {f : α → Program S ε β}
    {p : Program S ε α} {s : σ}
    (h : Safe env I (bindPost env I Q f) p s) :
    Safe env I Q (p.bind f) s := by
  induction p generalizing s with
  | pure a => exact h.2
  | raise e => exact h
  | call op next ih =>
      exact ⟨h.1, fun r s' henv => ih r (h.2 r s' henv)⟩

/-- What must hold of the outcome of `p` for `p` with handler `k` to be safe. -/
def catchPost (env : Environment S ε σ)
    (I : σ → Prop) (Q : Except ε α → σ → Prop)
    (k : ε → Program S ε α) : Except ε α → σ → Prop
  | .ok a, s => Q (.ok a) s
  | .error e, s => Safe env I Q (k e) s

/-- Exception handling. -/
theorem tryCatch
    {k : ε → Program S ε α}
    {p : Program S ε α} {s : σ}
    (h : Safe env I (catchPost env I Q k) p s) :
    Safe env I Q (p.tryCatch k) s := by
  induction p generalizing s with
  | pure a => exact h
  | raise e => exact h.2
  | call op next ih =>
      exact ⟨h.1, fun r s' henv => ih r (h.2 r s' henv)⟩

/-- An attempt returns what the program returned or raised. -/
theorem attempt
    {Q : Except ε (Except ε α) → σ → Prop}
    {p : Program S ε α} {s : σ}
    (h : Safe env I (fun r => Q (.ok r)) p s) :
    Safe env I Q p.attempt s := by
  induction p generalizing s with
  | pure a => exact h
  | raise e => exact h
  | call op next ih =>
      exact ⟨h.1, fun r s' henv => ih r (h.2 r s' henv)⟩

end Safe

namespace Restarts

variable {env : Environment S ε σ} {P : Program S ε α → Prop}
variable {c c' : σ × Program S ε α}

/-- One run is a case of many. -/
theorem of_reaches
    {p q : Program S ε α} {s s' : σ}
    (hr : Reaches env s p s' q) :
    Restarts env P (s, p) (s', q) := by
  induction hr with
  | here => exact Relation.ReflTransGen.refl
  | step henv _ ih => exact Relation.ReflTransGen.head (RestartStep.operation henv) ih

/-- An invariant that every program of `P` keeps is kept by any number of cut
runs. -/
theorem safe
    {I : σ → Prop}
    (hP : ∀ p, P p → ∀ s, I s → Safe env I (fun _ _ => True) p s)
    (hr : Restarts env P c c')
    (h : Safe env I (fun _ _ => True) c.2 c.1) :
    Safe env I (fun _ _ => True) c'.2 c'.1 := by
  induction hr with
  | refl => exact h
  | tail _ hstep ih =>
      cases hstep with
      | operation henv => exact ih.2 _ _ henv
      | restart hp => exact hP _ hp _ ih.inv

/-- What no operation of the environment changes is never changed. -/
theorem stable
    {J : σ → Prop}
    (hJ : ∀ s op r s', env s op r s' → J s → J s')
    (hr : Restarts env P c c')
    (h : J c.1) :
    J c'.1 := by
  induction hr with
  | refl => exact h
  | tail _ hstep ih =>
      cases hstep with
      | operation henv => exact hJ _ _ _ _ henv ih
      | restart _ => exact ih

end Restarts

/-- A deterministic world: every operation has one answer. -/
abbrev Handler (S : Signature) (ε σ : Type) :=
  σ → (op : S.Op) → Except ε (S.Answer op) × σ

/-- Execute a program against a deterministic world. -/
def Program.run (handler : Handler S ε σ) :
    Program S ε α → σ → Except ε α × σ
  | .pure a, s => (.ok a, s)
  | .raise e, s => (.error e, s)
  | .call op next, s =>
      (next (handler s op).1).run handler (handler s op).2

/-- The environment in which an operation is either carried out by the handler
or fails with an exception and without effect. -/
def Handler.faulty (handler : Handler S ε σ) : Environment S ε σ :=
  fun s op r s' => handler s op = (r, s') ∨ ((∃ e, r = .error e) ∧ s' = s)

/-- The same where failures are possible only if `mayFail` holds. -/
def Handler.flaky (handler : Handler S ε σ) (mayFail : Prop) : Environment S ε σ :=
  fun s op r s' => handler s op = (r, s') ∨ (mayFail ∧ (∃ e, r = .error e) ∧ s' = s)

/-- An operation that the handler answers, and what follows: it may fail
without effect instead. -/
theorem Safe.perform_flaky
    {handler : Handler S ε σ} {mayFail : Prop}
    {I : σ → Prop} {Q : Except ε β → σ → Prop}
    {op : S.Op} {f : S.Answer op → Program S ε β} {s s' : σ} {a : S.Answer op}
    (hI : I s)
    (hfail : mayFail → ∀ e, Q (.error e) s)
    (hanswer : handler s op = (.ok a, s'))
    (hrun : Safe (handler.flaky mayFail) I Q (f a) s') :
    Safe (handler.flaky mayFail) I Q ((Program.perform op).bind f) s := by
  refine ⟨hI, ?_⟩
  rintro r s'' (hdone | ⟨hmay, ⟨e, rfl⟩, rfl⟩)
  · rw [hanswer] at hdone
    cases hdone
    exact hrun
  · exact ⟨hI, hfail hmay e⟩

theorem Handler.flaky_true (handler : Handler S ε σ) :
    handler.flaky True = handler.faulty := by
  unfold Handler.flaky Handler.faulty
  simp only [true_and]

namespace Program

variable {handler : Handler S ε σ}

@[simp] theorem run_pure (a : α) (s : σ) :
    (Program.pure a : Program S ε α).run handler s = (.ok a, s) := rfl

@[simp] theorem run_raise (e : ε) (s : σ) :
    (Program.raise e : Program S ε α).run handler s = (.error e, s) := rfl

theorem run_perform (op : S.Op) (s : σ) :
    (perform op : Program S ε _).run handler s = handler s op := by
  unfold perform
  simp only [run]
  cases h : (handler s op).1 <;>
    simp [ofExcept, ← h]

/-- Executing a sequence executes its parts one after another. -/
theorem run_bind
    (p : Program S ε α) (f : α → Program S ε β) (s : σ) :
    (p.bind f).run handler s =
      match p.run handler s with
      | (.ok a, s') => (f a).run handler s'
      | (.error e, s') => (.error e, s') := by
  induction p generalizing s with
  | pure a => rfl
  | raise e => rfl
  | call op next ih => exact ih _ _

/-- What follows a program that returned. -/
theorem run_bind_ok
    {p : Program S ε α} {f : α → Program S ε β} {s s' : σ} {a : α}
    (h : p.run handler s = (.ok a, s')) :
    (p.bind f).run handler s = (f a).run handler s' := by
  rw [run_bind, h]

/-- Executing a handled program runs the handler after an exception. -/
theorem run_tryCatch
    (p : Program S ε α) (k : ε → Program S ε α) (s : σ) :
    (p.tryCatch k).run handler s =
      match p.run handler s with
      | (.ok a, s') => (.ok a, s')
      | (.error e, s') => (k e).run handler s' := by
  induction p generalizing s with
  | pure a => rfl
  | raise e => rfl
  | call op next ih => exact ih _ _

/-- An execution is a run of every environment that allows the answers of the
handler. -/
theorem run_completes
    {env : Environment S ε σ}
    (henv : ∀ s op, env s op (handler s op).1 (handler s op).2)
    (p : Program S ε α) (s : σ) :
    Completes env s p (p.run handler s).1 (p.run handler s).2 := by
  induction p generalizing s with
  | pure a => exact .here
  | raise e => exact .here
  | call op next ih =>
      exact .step (henv s op) (ih _ _)

end Program

end Programs

end Effects
end YdbSnippets
