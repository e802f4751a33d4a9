import YdbSnippets.LockRecord.Record
import Mathlib.Tactic.SplitIfs

/-!
# Mutual exclusion

At most one client owns the record as long as no client gives it back twice.
A client does give it back twice when the reply of an applied `unlock` is lost
and the retry context runs the callback again: the `UPDATE` does not look at
the owner, so it also unlocks a record that another client has locked since.
-/

namespace YdbSnippets
namespace LockRecord

section Exclusion

variable {Client : Type} [DecidableEq Client]
variable {systemInfo : Client → String}
variable {s s' : State Client} {c : Client} {a : Action}

/-- The client wrote the record as locked, is still in that attempt or past
it, and has not written it as unlocked. -/
def Phase.owns : Phase → Bool
  | .lockApplied | .holding | .unlocking false => true
  | _ => false

/-- The step applies an `unlock` whose call was already applied before, while
the record is locked. -/
def RepeatsUnlock (s : State Client) (c : Client) (a : Action) : Prop :=
  a = .commitUnlock ∧ s.phase c = .unlocking true ∧ selectLocked s.row = true

/-- At most one client owns the record, an owned record is locked, and a
transaction only goes on to its commit from an unlocked record. -/
structure Exclusive (s : State Client) : Prop where
  single : ∀ c d, (s.phase c).owns = true → (s.phase d).owns = true → c = d
  locked : ∀ c, (s.phase c).owns = true → selectLocked s.row = true
  reads : ∀ c seen, s.phase c = .lockRead seen → selectLocked seen = false

/-- What a step does to the record and to the ownership of the client that
takes it. -/
inductive Effect (s : State Client) (c : Client) : Action → State Client → Prop
  | acquire
      {a : Action} {s' : State Client} {seen : Option LockRow}
      (hphase : s.phase c = .lockRead seen)
      (hunchanged : s.row = seen)
      (hlocked : selectLocked s'.row = true) :
      Effect s c a s'
  | release
      {s' : State Client} {applied : Bool}
      (hphase : s.phase c = .unlocking applied)
      (howns : (s'.phase c).owns = false) :
      Effect s c .commitUnlock s'
  | keep
      {a : Action} {s' : State Client}
      (hrow : s'.row = s.row)
      (howns : (s'.phase c).owns = true → (s.phase c).owns = true) :
      Effect s c a s'

theorem step_effect
    (h : step systemInfo s c a = some s') :
    Effect s c a s' := by
  cases a with
  | commitLock =>
      simp only [step] at h
      split at h
      · next seen hphase =>
          split_ifs at h with hrow
          cases h
          exact .acquire hphase hrow rfl
      · cases h
  | commitUnlock =>
      simp only [step] at h
      split at h
      · next applied hphase =>
          cases h
          exact .release hphase (by simp [Phase.owns])
      · cases h
  | selectRow =>
      simp only [step] at h
      split at h
      · split_ifs at h <;> cases h
        · exact .keep rfl id
        · exact .keep rfl (by simp [Phase.owns])
      · cases h
  | callLock | lockReplyLost | lockThrows | unlockReplyLost | unlockReturns
  | unlockThrows =>
      simp only [step] at h
      split at h <;> cases h
      exact .keep rfl (by simp [Phase.owns])
  | lockReturns | callUnlock =>
      simp only [step] at h
      split at h
      · next hphase =>
          cases h
          exact .keep rfl (by simp [Phase.owns, hphase])
      · cases h
  | attemptFails =>
      simp only [step] at h
      split at h <;> cases h
      · exact .keep rfl (by simp [Phase.owns])
      · exact .keep rfl id
      · exact .keep rfl id

/-- The record a transaction has read when it goes on to its commit. -/
theorem step_reads
    (h : step systemInfo s c a = some s') :
    ∀ seen, s'.phase c = .lockRead seen → selectLocked seen = false := by
  intro seen hseen
  cases a <;>
    simp only [step] at h <;>
    (repeat' split at h) <;>
    simp only [Option.some.injEq, reduceCtorEq] at h <;>
    subst h <;>
    simp_all

/-- One step keeps the ownership exclusive, unless it repeats an `unlock`. -/
theorem exclusive_step
    (hs : Exclusive s)
    (h : step systemInfo s c a = some s')
    (honce : ¬ RepeatsUnlock s c a) :
    Exclusive s' := by
  have hother : ∀ d, d ≠ c → s'.phase d = s.phase d := fun d => step_other h
  have hreads : ∀ d seen, s'.phase d = .lockRead seen → selectLocked seen = false := by
    intro d seen hd
    by_cases hdc : d = c
    · subst hdc
      exact step_reads h seen hd
    · rw [hother d hdc] at hd
      exact hs.reads d seen hd
  cases step_effect h with
  | @acquire _ _ seen hphase hunchanged hlocked =>
      -- the record was not locked, so nobody owned it
      have hnone : ∀ d, (s.phase d).owns = false := by
        intro d
        by_contra howns
        have hrow := hs.locked d (by simpa using howns)
        rw [hunchanged, hs.reads c seen hphase] at hrow
        cases hrow
      have honly : ∀ d, (s'.phase d).owns = true → d = c := by
        intro d hd
        by_contra hdc
        rw [hother d hdc, hnone d] at hd
        cases hd
      refine ⟨?_, fun _ _ => hlocked, hreads⟩
      intro d e hd he
      rw [honly d hd, honly e he]
  | @release _ applied hphase howns =>
      have hnone : ∀ d, (s'.phase d).owns = false := by
        intro d
        by_contra hd
        have hdtrue : (s'.phase d).owns = true := by simpa using hd
        have hdc : d ≠ c := by
          rintro rfl
          rw [howns] at hdtrue
          cases hdtrue
        rw [hother d hdc] at hdtrue
        cases applied with
        | false => exact hdc (hs.single d c hdtrue (by rw [hphase]; rfl))
        | true => exact honce ⟨rfl, hphase, hs.locked d hdtrue⟩
      refine ⟨?_, ?_, hreads⟩
      · intro d e hd
        rw [hnone d] at hd
        cases hd
      · intro d hd
        rw [hnone d] at hd
        cases hd
  | keep hrow howns =>
      have hbefore : ∀ d, (s'.phase d).owns = true → (s.phase d).owns = true := by
        intro d hd
        by_cases hdc : d = c
        · subst hdc
          exact howns hd
        · rw [← hother d hdc]
          exact hd
      refine ⟨?_, ?_, hreads⟩
      · intro d e hd he
        exact hs.single d e (hbefore d hd) (hbefore e he)
      · intro d hd
        rw [hrow]
        exact hs.locked d (hbefore d hd)

/-- A run in which no `unlock` is repeated keeps the ownership exclusive. -/
theorem exclusive_of_reaches
    (hs : Exclusive s)
    (hrun : Reaches systemInfo (fun s c a => ¬ RepeatsUnlock s c a) s s') :
    Exclusive s' := by
  induction hrun with
  | refl => exact hs
  | tail _ hlast ih =>
      obtain ⟨c, a, honce, hstep⟩ := hlast
      exact exclusive_step ih hstep honce

end Exclusion

/-- From a state in which every client is idle, whatever the record holds, no
two clients ever hold the lock, as long as no step repeats an applied `unlock`
on a locked record. -/
theorem mutual_exclusion
    {Client : Type} [DecidableEq Client]
    (systemInfo : Client → String)
    (s s' : State Client)
    (hidle : ∀ c, s.phase c = .idle)
    (hrun : Reaches systemInfo (fun s c a => ¬ RepeatsUnlock s c a) s s')
    (c d : Client)
    (hc : s'.phase c = .holding)
    (hd : s'.phase d = .holding) :
    c = d := by
  have hstart : Exclusive s := by
    refine ⟨?_, ?_, ?_⟩
    · intro c d hc
      rw [hidle c] at hc
      cases hc
    · intro c hc
      rw [hidle c] at hc
      cases hc
    · intro c seen hc
      rw [hidle c] at hc
      cases hc
  have hend := exclusive_of_reaches hstart hrun
  apply hend.single c d
  · rw [hc]
    rfl
  · rw [hd]
    rfl

section TwoClients

/-- Two idle clients and no record. -/
def twoIdle : State Bool where
  row := none
  phase := fun _ => .idle

/-- The way of a client into the lock when no reply is lost. -/
def acquires (c : Bool) : List (Bool × Action) :=
  [(c, .callLock), (c, .selectRow), (c, .commitLock), (c, .lockReturns)]

/-- The reply of an applied `unlock` is lost, the other client takes the lock,
the `unlock` is run again, and its client takes the lock too. -/
def repeatedUnlockRun : List (Bool × Action) :=
  acquires false ++
    [(false, .callUnlock), (false, .commitUnlock), (false, .unlockReplyLost)] ++
    acquires true ++
    [(false, .commitUnlock), (false, .unlockReturns)] ++
    acquires false

theorem mutual_exclusion_one_holder :
    ∃ s', execute (fun _ => "host") twoIdle (acquires true) = some s' ∧
      s'.phase true = .holding ∧ ∀ d, s'.phase d = .holding → true = d := by
  have hrun : ∃ s', execute (fun _ => "host") twoIdle (acquires true) = some s' ∧
      s'.phase true = .holding :=
    ⟨_, rfl, rfl⟩
  obtain ⟨s', hexec, hholds⟩ := hrun
  refine ⟨s', hexec, hholds, ?_⟩
  intro d hd
  refine mutual_exclusion (fun _ => "host") twoIdle s' (fun _ => rfl)
    (reaches_of_execute hexec ?_) true d hholds hd
  rintro s c a hmem ⟨rfl, _⟩
  simp [acquires] at hmem

/-- Two clients hold the lock at once after a repeated `unlock`. -/
theorem repeated_unlock_breaks_exclusion :
    ¬ ∀ (s' : State Bool),
        Reaches (fun _ => "host") (fun _ _ _ => True) twoIdle s' →
        ∀ c d, s'.phase c = .holding → s'.phase d = .holding → c = d := by
  intro hclaim
  have hrun : ∃ s', execute (fun _ => "host") twoIdle repeatedUnlockRun = some s' ∧
      s'.phase false = .holding ∧ s'.phase true = .holding :=
    ⟨_, rfl, rfl, rfl⟩
  obtain ⟨s', hexec, hfalse, htrue⟩ := hrun
  have heq := hclaim s' (reaches_of_execute hexec (fun _ _ _ _ => trivial)) false true hfalse htrue
  cases heq

end TwoClients

end LockRecord
end YdbSnippets
