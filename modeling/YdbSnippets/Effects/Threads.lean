import YdbSnippets.Effects.Program

/-!
# Pools of programs

Programs that run side by side against one world.  A pool takes them from a
queue, as many at a time as it has workers, and their operations interleave in
any order.  Between the operations the world may drift on its own: time passes,
and what the programs have started goes on.

A program is verified alone, against a *contract*: what it relies on while it
waits for its turn, and what it guarantees the others with each operation.

* `Keeps` is the proof rule of a single program: its invariant holds at every
  moment, each of its operations is as guaranteed, and its outcome is as the
  postcondition says, whatever the others do within the contract.
* `Pool.keeps_of_reachable` is the parallel rule: where the guarantee of every
  program is something that the others may rely on, programs that keep their
  contracts alone keep them in the pool.
-/

namespace YdbSnippets
namespace Effects

open Relation

section Contracts

variable {S : Signature}
variable {ε α β σ : Type}

/-- What a program relies on while others run, and what it guarantees them. -/
structure Contract (σ : Type) where
  rely : σ → σ → Prop
  guarantee : σ → σ → Prop

/-- What holds stays so while others run. -/
def Contract.Stable (c : Contract σ) (A : σ → Prop) : Prop :=
  ∀ s s', A s → c.rely s s' → A s'

/-- The contract of one of many: it guarantees each other one what that one relies on. -/
def Contract.among {κ : Type*} (rely : κ → σ → σ → Prop) (k : κ) : Contract σ where
  rely := rely k
  guarantee := fun s s' => ∀ k', k' ≠ k → rely k' s s'

theorem Contract.Stable.of_rely
    {c : Contract σ} {A : σ → Prop} {s s' : σ}
    (hstable : c.Stable A) (hA : A s) (hrely : ReflTransGen c.rely s s') :
    A s' := by
  induction hrely with
  | refl => exact hA
  | tail _ hstep ih => exact hstable _ _ ih hstep

theorem Contract.Stable.and
    {c : Contract σ} {A B : σ → Prop}
    (hA : c.Stable A) (hB : c.Stable B) :
    c.Stable fun s => A s ∧ B s :=
  fun s s' h hrely => ⟨hA s s' h.1 hrely, hB s s' h.2 hrely⟩

/-- What is known of the world: it stays so while others run, and gives the invariant. -/
structure Contract.Known (c : Contract σ) (I A : σ → Prop) : Prop where
  stable : c.Stable A
  inv : ∀ s, A s → I s

theorem Contract.Known.and
    {c : Contract σ} {I A B : σ → Prop}
    (h : c.Known I A) (hB : c.Stable B) :
    c.Known I fun s => A s ∧ B s :=
  ⟨h.stable.and hB, fun s hs => h.inv s hs.1⟩

/--
`Keeps env c I Q p s`: whatever happens within the contract `c` before and
between the operations of `p`, the invariant `I` holds in every state, each
operation is as guaranteed, and `Q` holds of the outcome and stays so.
-/
def Keeps (env : Environment S ε σ) (c : Contract σ)
    (I : σ → Prop) (Q : Except ε α → σ → Prop) :
    Program S ε α → σ → Prop
  | .pure a, s => ∀ s', ReflTransGen c.rely s s' → I s' ∧ Q (.ok a) s'
  | .raise e, s => ∀ s', ReflTransGen c.rely s s' → I s' ∧ Q (.error e) s'
  | .call op next, s => ∀ s', ReflTransGen c.rely s s' → I s' ∧
      ∀ r s'', env s' op r s'' → c.guarantee s' s'' ∧ Keeps env c I Q (next r) s''

namespace Keeps

variable {env : Environment S ε σ} {c : Contract σ}
variable {I J A : σ → Prop} {Q R : Except ε α → σ → Prop}

/-- The invariant holds where a program has come to. -/
theorem inv
    {p : Program S ε α} {s : σ}
    (h : Keeps env c I Q p s) :
    I s := by
  cases p <;> exact (h s ReflTransGen.refl).1

/-- The others may run. -/
theorem of_rely
    {p : Program S ε α} {s s' : σ}
    (h : Keeps env c I Q p s) (hrely : c.rely s s') :
    Keeps env c I Q p s' := by
  cases p <;> exact fun s'' hs'' => h s'' (ReflTransGen.head hrely hs'')

/-- An operation of the program. -/
theorem operation
    {op : S.Op} {next : Except ε (S.Answer op) → Program S ε α}
    {r : Except ε (S.Answer op)} {s s' : σ}
    (h : Keeps env c I Q (.call op next) s) (henv : env s op r s') :
    c.guarantee s s' ∧ Keeps env c I Q (next r) s' :=
  (h s ReflTransGen.refl).2 r s' henv

/-- The outcome of a program that has ended. -/
theorem post
    {r : Except ε α} {s : σ}
    (h : Keeps env c I Q (Program.ofExcept r) s) :
    Q r s := by
  cases r <;> exact (h s ReflTransGen.refl).2

/-- Consequence. -/
theorem mono
    (hI : ∀ s, I s → J s)
    (hQ : ∀ r s, I s → Q r s → R r s)
    {p : Program S ε α} {s : σ}
    (h : Keeps env c I Q p s) :
    Keeps env c J R p s := by
  induction p generalizing s with
  | pure a => exact fun s' hs' => ⟨hI _ (h s' hs').1, hQ _ _ (h s' hs').1 (h s' hs').2⟩
  | raise e => exact fun s' hs' => ⟨hI _ (h s' hs').1, hQ _ _ (h s' hs').1 (h s' hs').2⟩
  | call op next ih =>
      intro s' hs'
      obtain ⟨hs', hop⟩ := h s' hs'
      exact ⟨hI _ hs', fun r s'' henv => ⟨(hop r s'' henv).1, ih r (hop r s'' henv).2⟩⟩

/-- Weaken the postcondition only. -/
theorem weaken
    (hQ : ∀ r s, I s → Q r s → R r s)
    {p : Program S ε α} {s : σ}
    (h : Keeps env c I Q p s) :
    Keeps env c I R p s :=
  h.mono (fun _ hs => hs) hQ

/-- A program that has ended, where what is known is stable. -/
theorem ended
    {r : Except ε α} {s : σ}
    (hstable : c.Stable A) (hA : A s)
    (hI : ∀ s, A s → I s) (hQ : ∀ s, A s → Q r s) :
    Keeps env c I Q (Program.ofExcept r) s := by
  cases r <;>
    · intro s' hs'
      have hA' := hstable.of_rely hA hs'
      exact ⟨hI s' hA', hQ s' hA'⟩

/-- An operation and what follows it, where what is known before is stable. -/
theorem call
    {op : S.Op} {next : Except ε (S.Answer op) → Program S ε α} {s : σ}
    (hstable : c.Stable A) (hA : A s)
    (hI : ∀ s, A s → I s)
    (hop : ∀ s r s', A s → env s op r s' →
      c.guarantee s s' ∧ Keeps env c I Q (next r) s') :
    Keeps env c I Q (.call op next) s := by
  intro s' hs'
  have hA' := hstable.of_rely hA hs'
  exact ⟨hI s' hA', fun r s'' henv => hop s' r s'' hA' henv⟩

/-- What is stable and kept by the operations of a program is kept by the program. -/
theorem of_uses
    {P : S.Op → Prop}
    (hstable : c.Stable A)
    (hop : ∀ s op r s', P op → A s → env s op r s' → c.guarantee s s' ∧ A s')
    (hI : ∀ s, A s → I s) (hQ : ∀ r s, A s → Q r s)
    {p : Program S ε α} {s : σ}
    (hp : p.Uses P) (hA : A s) :
    Keeps env c I Q p s := by
  induction p generalizing s with
  | pure a => exact ended hstable hA hI fun s hs => hQ (.ok a) s hs
  | raise e => exact ended hstable hA hI fun s hs => hQ (.error e) s hs
  | call op next ih =>
      refine call hstable hA hI fun s r s' hs henv => ?_
      obtain ⟨hguarantee, hs'⟩ := hop s op r s' hp.1 hs henv
      exact ⟨hguarantee, ih r (hp.2 r) hs'⟩

/-- An operation that changes nothing when it fails, and what follows it. -/
theorem callOk
    {op : S.Op} {next : Except ε (S.Answer op) → Program S ε α} {s : σ}
    (hknown : c.Known I A) (hA : A s)
    (hrefl : ∀ s, c.guarantee s s)
    (hfailed : ∀ s e s', env s op (.error e) s' → s' = s)
    (hnext : ∀ e, next (.error e) = .raise e)
    (hQ : ∀ e s, A s → Q (.error e) s)
    (hop : ∀ s a s', A s → env s op (.ok a) s' →
      c.guarantee s s' ∧ Keeps env c I Q (next (.ok a)) s') :
    Keeps env c I Q (.call op next) s := by
  refine call hknown.stable hA hknown.inv fun s r s' hs henv => ?_
  cases r with
  | ok a => exact hop s a s' hs henv
  | error e =>
      obtain rfl := hfailed s e s' henv
      rw [hnext e]
      exact ⟨hrefl _, ended (r := .error e) hknown.stable hs hknown.inv fun s hs => hQ e s hs⟩

/-- What must hold of the outcome of `p` for `p` followed by `f` to keep the contract. -/
def bindPost (env : Environment S ε σ) (c : Contract σ)
    (I : σ → Prop) (Q : Except ε β → σ → Prop)
    (f : α → Program S ε β) : Except ε α → σ → Prop
  | .ok a, s => Keeps env c I Q (f a) s
  | .error e, s => Keeps env c I Q (.raise e) s

/-- Sequential composition. -/
theorem bind
    {Q : Except ε β → σ → Prop} {f : α → Program S ε β}
    {p : Program S ε α} {s : σ}
    (h : Keeps env c I (bindPost env c I Q f) p s) :
    Keeps env c I Q (p.bind f) s := by
  induction p generalizing s with
  | pure a => exact (h s ReflTransGen.refl).2
  | raise e => exact (h s ReflTransGen.refl).2
  | call op next ih =>
      intro s' hs'
      obtain ⟨hI, hop⟩ := h s' hs'
      exact ⟨hI, fun r s'' henv => ⟨(hop r s'' henv).1, ih r (hop r s'' henv).2⟩⟩

/-- What must hold of the outcome of `p` for `p` with handler `k` to keep the contract. -/
def catchPost (env : Environment S ε σ) (c : Contract σ)
    (I : σ → Prop) (Q : Except ε α → σ → Prop)
    (k : ε → Program S ε α) : Except ε α → σ → Prop
  | .ok a, s => Keeps env c I Q (.pure a) s
  | .error e, s => Keeps env c I Q (k e) s

/-- Exception handling. -/
theorem tryCatch
    {k : ε → Program S ε α} {p : Program S ε α} {s : σ}
    (h : Keeps env c I (catchPost env c I Q k) p s) :
    Keeps env c I Q (p.tryCatch k) s := by
  induction p generalizing s with
  | pure a => exact (h s ReflTransGen.refl).2
  | raise e => exact (h s ReflTransGen.refl).2
  | call op next ih =>
      intro s' hs'
      obtain ⟨hI, hop⟩ := h s' hs'
      exact ⟨hI, fun r s'' henv => ⟨(hop r s'' henv).1, ih r (hop r s'' henv).2⟩⟩

/-- What a program may return at all, it returns within the contract. -/
theorem and_returns
    {P : Except ε α → Prop} {p : Program S ε α} {s : σ}
    (h : Keeps env c I Q p s) (hp : p.Returns P) :
    Keeps env c I (fun r s => P r ∧ Q r s) p s := by
  induction p generalizing s with
  | pure a => exact fun s' hs' => ⟨(h s' hs').1, hp, (h s' hs').2⟩
  | raise e => exact fun s' hs' => ⟨(h s' hs').1, hp, (h s' hs').2⟩
  | call op next ih =>
      intro s' hs'
      obtain ⟨hI, hop⟩ := h s' hs'
      exact ⟨hI, fun r s'' henv => ⟨(hop r s'' henv).1, ih r (hop r s'' henv).2 (hp r)⟩⟩

/-- A quiet program returns. -/
theorem and_quiet
    {P : S.Op → Prop}
    (henv : ∀ s op e s', P op → ¬ env s op (.error e) s')
    {p : Program S ε α} {s : σ}
    (h : Keeps env c I Q p s) (hp : p.Quiet P) :
    Keeps env c I (fun r s => (∃ a, r = .ok a) ∧ Q r s) p s := by
  induction p generalizing s with
  | pure a => exact fun s' hs' => ⟨(h s' hs').1, ⟨a, rfl⟩, (h s' hs').2⟩
  | raise e => exact hp.elim
  | call op next ih =>
      intro s' hs'
      obtain ⟨hI, hop⟩ := h s' hs'
      refine ⟨hI, fun r s'' hanswer => ⟨(hop r s'' hanswer).1, ?_⟩⟩
      cases r with
      | ok a => exact ih (.ok a) (hop _ s'' hanswer).2 (hp.1 a)
      | error e =>
          have hquiet := hp.2.resolve_left fun hop => henv s' op e s'' hop hanswer
          exact ih (.error e) (hop _ s'' hanswer).2 (hquiet e)

/-- An attempt returns what the program returned or raised. -/
theorem attempt
    {Q : Except ε (Except ε α) → σ → Prop} {p : Program S ε α} {s : σ}
    (h : Keeps env c I (fun r => Q (.ok r)) p s) :
    Keeps env c I Q p.attempt s := by
  induction p generalizing s with
  | pure a => exact h
  | raise e => exact h
  | call op next ih =>
      intro s' hs'
      obtain ⟨hI, hop⟩ := h s' hs'
      exact ⟨hI, fun r s'' henv => ⟨(hop r s'' henv).1, ih r (hop r s'' henv).2⟩⟩

/-- What is done at the end, whatever came before. -/
theorem andFinally
    {p : Program S ε α} {q : Program S ε Unit} {s : σ}
    (h : Keeps env c I
      (fun r s => Keeps env c I Q (q.bind fun _ => Program.ofExcept r) s) p s) :
    Keeps env c I Q (p.andFinally q) s :=
  bind (attempt h)

end Keeps

end Contracts

/-! ## Pools -/

section Pools

universe u

variable {κ : Type u} {S : Signature}
variable {ε α σ : Type}

/-- A program on its way through the pool. -/
inductive Job (S : Signature) (ε α : Type)
  | queued (p : Program S ε α)
  | running (p : Program S ε α)
  | finished (r : Except ε α)

namespace Job

/-- What is left of the program. -/
def rest : Job S ε α → Program S ε α
  | queued p | running p => p
  | finished r => Program.ofExcept r

/-- The job takes up a worker. -/
def busy : Job S ε α → Bool
  | running _ => true
  | queued _ | finished _ => false

/-- The job waits for a worker. -/
def waiting : Job S ε α → Bool
  | queued _ => true
  | running _ | finished _ => false

/-- The outcome of a job that is over. -/
def outcome : Job S ε α → Option (Except ε α)
  | finished r => some r
  | queued _ | running _ => none

end Job

/-- The world, the jobs under their keys, and the outcomes in the order in which
they were handed over. -/
structure Pool (κ : Type u) (S : Signature) (ε α σ : Type) where
  world : σ
  jobs : List (κ × Job S ε α)
  results : List (κ × Except ε α)

/-- All programs in the queue. -/
def Pool.initial (s : σ) (programs : List (κ × Program S ε α)) : Pool κ S ε α σ where
  world := s
  jobs := programs.map fun program => (program.1, .queued program.2)
  results := []

/-- The number of workers that have a job. -/
def Pool.running (pool : Pool κ S ε α σ) : Nat :=
  pool.jobs.countP fun job => job.2.busy

/-- All jobs are over. -/
def Pool.Finished (pool : Pool κ S ε α σ) : Prop :=
  ∀ job ∈ pool.jobs, job.2.outcome.isSome = true

/-- One step of a pool of `workers` workers in a world that drifts. -/
inductive PoolStep (env : Environment S ε σ) (drift : σ → σ → Prop) (workers : Nat) :
    Pool κ S ε α σ → Pool κ S ε α σ → Prop
  /-- A free worker takes the first program of the queue. -/
  | take
      (pool : Pool κ S ε α σ) (before after : List (κ × Job S ε α)) (k : κ)
      (p : Program S ε α)
      (hjobs : pool.jobs = before ++ (k, .queued p) :: after)
      (hfirst : ∀ job ∈ before, job.2.waiting = false)
      (hfree : pool.running < workers) :
      PoolStep env drift workers pool
        { pool with jobs := before ++ (k, .running p) :: after }
  /-- An operation of a running program is answered. -/
  | operation
      (pool : Pool κ S ε α σ) (before after : List (κ × Job S ε α)) (k : κ)
      (op : S.Op) (next : Except ε (S.Answer op) → Program S ε α)
      (r : Except ε (S.Answer op)) (s : σ)
      (hjobs : pool.jobs = before ++ (k, .running (.call op next)) :: after)
      (henv : env pool.world op r s) :
      PoolStep env drift workers pool
        { pool with world := s, jobs := before ++ (k, .running (next r)) :: after }
  /-- The worker hands over the outcome and is free again. -/
  | finish
      (pool : Pool κ S ε α σ) (before after : List (κ × Job S ε α)) (k : κ)
      (r : Except ε α)
      (hjobs : pool.jobs = before ++ (k, .running (Program.ofExcept r)) :: after) :
      PoolStep env drift workers pool
        { pool with
          jobs := before ++ (k, .finished r) :: after
          results := pool.results ++ [(k, r)] }
  /-- The world goes on by itself. -/
  | drift
      (pool : Pool κ S ε α σ) (s : σ)
      (hdrift : drift pool.world s) :
      PoolStep env drift workers pool { pool with world := s }

/-- The states a pool gets to. -/
def Pool.Reachable (env : Environment S ε σ) (drift : σ → σ → Prop) (workers : Nat)
    (s : σ) (programs : List (κ × Program S ε α)) (pool : Pool κ S ε α σ) : Prop :=
  ReflTransGen (PoolStep env drift workers) (Pool.initial s programs) pool

namespace Pool

variable {env : Environment S ε σ} {drift : σ → σ → Prop} {workers : Nat}
variable {s : σ} {programs : List (κ × Program S ε α)} {pool pool' : Pool κ S ε α σ}

/-- A run of one program is one of the pool, while the others wait. -/
theorem steps_of_reaches
    (before after : List (κ × Job S ε α)) {k : κ} {results : List (κ × Except ε α)}
    {p q : Program S ε α} {s s' : σ}
    (h : Reaches env s p s' q) :
    ReflTransGen (PoolStep env drift workers)
      ⟨s, before ++ (k, .running p) :: after, results⟩
      ⟨s', before ++ (k, .running q) :: after, results⟩ := by
  induction h with
  | here => exact .refl
  | step henv _ ih => exact .head (.operation _ before after k _ _ _ _ rfl henv) ih

/-- The keys of the jobs are those of the programs. -/
theorem keys_of_reachable
    (h : Reachable env drift workers s programs pool) :
    pool.jobs.map Prod.fst = programs.map Prod.fst := by
  induction h with
  | refl => simp [initial]
  | tail _ hstep ih =>
      cases hstep with
      | take before after k p hjobs _ _ => simpa [hjobs] using ih
      | operation before after k op next r s hjobs _ => simpa [hjobs] using ih
      | finish before after k r hjobs => simpa [hjobs] using ih
      | drift s _ => exact ih

/-- Nobody's job but one is changed, and the rest of that one keeps its contract. -/
theorem forall_replace
    {P R : κ → Program S ε α → Prop} {before after : List (κ × Job S ε α)}
    {k : κ} {job job' : Job S ε α}
    (hnodup : ((before ++ (k, job) :: after).map Prod.fst).Nodup)
    (h : ∀ entry ∈ before ++ (k, job) :: after, P entry.1 entry.2.rest)
    (hothers : ∀ k' p, k' ≠ k → P k' p → R k' p)
    (hjob : P k job.rest → R k job'.rest) :
    ∀ entry ∈ before ++ (k, job') :: after, R entry.1 entry.2.rest := by
  rw [List.map_append, List.map_cons, List.perm_middle.nodup_iff, List.nodup_cons,
    ← List.map_append] at hnodup
  intro entry hentry
  rw [List.mem_append, List.mem_cons] at hentry
  rcases hentry with hbefore | rfl | hafter
  · refine hothers _ _ (fun heq => ?_) (h entry (List.mem_append_left _ hbefore))
    exact hnodup.1 (List.mem_map.mpr ⟨entry, List.mem_append_left _ hbefore, heq⟩)
  · exact hjob (h (k, job) (by simp))
  · refine hothers _ _ (fun heq => ?_) (h entry (by simp [hafter]))
    exact hnodup.1 (List.mem_map.mpr ⟨entry, List.mem_append_right _ hafter, heq⟩)

/-- The parallel rule: programs with different keys that keep their contracts alone
keep them in the pool, if each may rely on what the others guarantee and on how
the world drifts. -/
theorem keeps_of_reachable
    {c : κ → Contract σ} {I : κ → σ → Prop} {Q : κ → Except ε α → σ → Prop}
    (hnodup : (programs.map Prod.fst).Nodup)
    (hothers : ∀ k k', k ≠ k' → ∀ s s', (c k').guarantee s s' → (c k).rely s s')
    (hdrift : ∀ k ∈ programs.map Prod.fst, ∀ s s', drift s s' → (c k).rely s s')
    (hprograms : ∀ program ∈ programs,
      Keeps env (c program.1) (I program.1) (Q program.1) program.2 s)
    (h : Reachable env drift workers s programs pool) :
    ∀ job ∈ pool.jobs, Keeps env (c job.1) (I job.1) (Q job.1) job.2.rest pool.world := by
  induction h with
  | refl =>
      intro job hjob
      obtain ⟨program, hprogram, rfl⟩ := List.mem_map.mp hjob
      exact hprograms program hprogram
  | @tail pool pool' hreach hstep ih =>
      have hkeys : (pool.jobs.map Prod.fst).Nodup := by
        rw [keys_of_reachable hreach]
        exact hnodup
      cases hstep with
      | take before after k p hjobs _ _ =>
          rw [hjobs] at hkeys ih
          exact forall_replace (P := fun k p => Keeps env (c k) (I k) (Q k) p pool.world)
            hkeys ih (fun _ _ _ h => h) id
      | operation before after k op next r s' hjobs henv =>
          rw [hjobs] at hkeys ih
          have hguarantee := ((ih (k, .running (.call op next)) (by simp)).operation henv).1
          exact forall_replace (P := fun k p => Keeps env (c k) (I k) (Q k) p pool.world)
            (R := fun k p => Keeps env (c k) (I k) (Q k) p s') hkeys ih
            (fun k' p hne h => h.of_rely (hothers k' k hne _ _ hguarantee))
            fun h => (Keeps.operation h henv).2
      | finish before after k r hjobs =>
          rw [hjobs] at hkeys ih
          exact forall_replace (P := fun k p => Keeps env (c k) (I k) (Q k) p pool.world)
            hkeys ih (fun _ _ _ h => h) id
      | drift s' hdrift' =>
          intro job hjob
          have hkey : job.1 ∈ programs.map Prod.fst := by
            rw [← keys_of_reachable hreach]
            exact List.mem_map_of_mem hjob
          exact (ih job hjob).of_rely (hdrift job.1 hkey _ _ hdrift')

/-- What every operation of the programs and every drift of the world is like, the
whole run is like. -/
theorem relates_of_reachable
    {c : κ → Contract σ} {I : κ → σ → Prop} {Q : κ → Except ε α → σ → Prop}
    {R : σ → σ → Prop}
    (hkeeps : ∀ pool, Reachable env drift workers s programs pool → ∀ job ∈ pool.jobs,
      Keeps env (c job.1) (I job.1) (Q job.1) job.2.rest pool.world)
    (hguarantee : ∀ k ∈ programs.map Prod.fst, ∀ s s', (c k).guarantee s s' → R s s')
    (hdrift : ∀ s s', drift s s' → R s s')
    (h : Reachable env drift workers s programs pool) :
    ReflTransGen R s pool.world := by
  induction h with
  | refl => exact ReflTransGen.refl
  | @tail pool pool' hreach hstep ih =>
      cases hstep with
      | take before after k p _ _ _ => exact ih
      | operation before after k op next r s' hjobs henv =>
          have hjob : (k, Job.running (.call op next)) ∈ pool.jobs := by
            rw [hjobs]
            simp
          have hmem : k ∈ programs.map Prod.fst := by
            rw [← keys_of_reachable hreach]
            exact List.mem_map_of_mem hjob
          have hop := (hkeeps pool hreach _ hjob).operation henv
          exact ih.tail (hguarantee k hmem _ _ hop.1)
      | finish before after k r _ => exact ih
      | drift s' hdrift' => exact ih.tail (hdrift _ _ hdrift')

/-- An invariant of every program and of the drift holds in the whole run. -/
theorem inv_of_reachable
    {c : κ → Contract σ} {I : σ → Prop} {Q : κ → Except ε α → σ → Prop}
    (hI : I s)
    (hdrift : ∀ s s', drift s s' → I s → I s')
    (hkeeps : ∀ pool, Reachable env drift workers s programs pool → ∀ job ∈ pool.jobs,
      Keeps env (c job.1) I (Q job.1) job.2.rest pool.world)
    (h : Reachable env drift workers s programs pool) :
    I pool.world := by
  induction h with
  | refl => exact hI
  | @tail pool pool' hreach hstep ih =>
      have hreach' := hreach.tail hstep
      cases hstep with
      | take before after k p _ _ _ => exact ih
      | operation before after k op next r s' _ _ =>
          exact (hkeeps _ hreach' (k, .running (next r)) (by simp)).inv
      | finish before after k r _ => exact ih
      | drift s' hdrift' => exact hdrift _ _ hdrift' ih

/-- The outcomes that were handed over are those of the jobs that are over. -/
theorem results_perm
    (h : Reachable env drift workers s programs pool) :
    pool.results.Perm (pool.jobs.filterMap fun job => job.2.outcome.map (Prod.mk job.1)) := by
  induction h with
  | refl =>
      have hnone : (initial s programs : Pool κ S ε α σ).jobs.filterMap
          (fun job => job.2.outcome.map (Prod.mk job.1)) = [] := by
        refine List.filterMap_eq_nil_iff.mpr fun job hjob => ?_
        obtain ⟨program, -, rfl⟩ := List.mem_map.mp hjob
        rfl
      rw [hnone]
      exact List.Perm.refl _
  | tail _ hstep ih =>
      cases hstep with
      | take before after k p hjobs _ _ => simpa [hjobs, Job.outcome] using ih
      | operation before after k op next r s hjobs _ => simpa [hjobs, Job.outcome] using ih
      | finish before after k r hjobs =>
          rw [hjobs, List.filterMap_append, List.filterMap_cons] at ih
          rw [List.filterMap_append, List.filterMap_cons]
          exact (ih.append_right [(k, r)]).trans
            ((List.perm_append_singleton _ _).trans List.perm_middle.symm)
      | drift s _ => exact ih

/-- At the end every program has handed over its outcome. -/
theorem results_keys
    (h : Reachable env drift workers s programs pool) (hfinished : pool.Finished) :
    (pool.results.map Prod.fst).Perm (programs.map Prod.fst) := by
  rw [← keys_of_reachable h]
  refine ((results_perm h).map Prod.fst).trans (List.Perm.of_eq ?_)
  rw [List.map_filterMap, ← List.filterMap_eq_map]
  refine List.filterMap_congr fun job hjob => ?_
  obtain ⟨r, hr⟩ := Option.isSome_iff_exists.mp (hfinished job hjob)
  simp [hr]

/-- An outcome that was handed over is as the postcondition says. -/
theorem post_of_mem_results
    {c : κ → Contract σ} {I : κ → σ → Prop} {Q : κ → Except ε α → σ → Prop}
    (hreach : Reachable env drift workers s programs pool)
    (hkeeps : ∀ job ∈ pool.jobs,
      Keeps env (c job.1) (I job.1) (Q job.1) job.2.rest pool.world)
    {k : κ} {r : Except ε α} (hresult : (k, r) ∈ pool.results) :
    Q k r pool.world := by
  obtain ⟨⟨k', job⟩, hjob, heq⟩ :=
    List.mem_filterMap.mp ((results_perm hreach).mem_iff.mp hresult)
  cases job with
  | queued p => cases heq
  | running p => cases heq
  | finished r' =>
      cases heq
      exact (hkeeps _ hjob).post

end Pool

end Pools

end Effects
end YdbSnippets
