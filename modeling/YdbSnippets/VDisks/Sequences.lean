import YdbSnippets.VDisks.Overlaps

/-!
# The requests of a run

The waiting loop of the programs is the loop of `Waiting`, which reads its polls
from a list.

Which operations `run_operations` starts: those of the VDisks of each group, one
VDisk after the other and each database in its turn, up to the first one whose
answer was an exception or an error status.  Waiting never fails, so that nothing
else ends the requests of a VDisk.  What one group does is read off its program;
the others leave its requests alone.
-/

namespace YdbSnippets
namespace VDisks

open Python Effects Pools

section Loop

/-- A page without progress ends the loop at the deadline. -/
theorem waitFrom_due
    {state : Str → PanelState} {due : Nat → Bool} {page : Str} {reading : Nat}
    (polls : List Poll)
    (hpage : state page ≠ .inProgress) (hdue : due reading = true) :
    waitFrom state due false reading (.ok page :: polls) = some (state page, 1) := by
  rw [waitFrom]
  cases hs : state page with
  | inProgress => exact absurd hs hpage
  | idle => simp [hdue]
  | unknown => simp [hdue]

/-- A storage that only answers polls, in the given order, and readings of the
clock. -/
def pollHandler (clock : Nat → ℚ) :
    Handler storageSignature Str (List Poll × Nat)
  | (polls, reading), .start _ => (.ok (200 : Nat), (polls, reading))
  | ([], reading), .page _ _ => (.error [], ([], reading))
  | (poll :: polls, reading), .page _ _ => (poll, (polls, reading))
  | (polls, reading), .clock _ => (.ok (clock reading), (polls, reading + 1))
  | (polls, reading), .sleep _ => (.ok (), (polls, reading))
  | (polls, reading), .markDone _ _ => (.ok (), (polls, reading))
  | (polls, reading), .forever => (.error [], (polls, reading))

variable (py : Interpreter) (request : Request) (pollInterval deadline : ℚ)
variable (clock : Nat → ℚ)

/-- What the loop does with a page that shows the operation. -/
theorem run_waitLoop_progress
    {sawInProgress : Bool} {reading : Nat} {text : Str} {polls : List Poll}
    (hstate : parsePanelState py request.panel text = .inProgress) :
    (waitLoop py request pollInterval deadline (polls.length + 1) sawInProgress).run
        (pollHandler clock) (.ok text :: polls, reading) =
      (waitLoop py request pollInterval deadline polls.length true).run
        (pollHandler clock) (polls, reading + 1) := by
  have hpage : (fetchDbMainPage request.vdisk request.dbname).attempt.run (pollHandler clock)
      (.ok text :: polls, reading) = (.ok (.ok text), (polls, reading)) := rfl
  rw [waitLoop]
  refine (Program.run_bind_ok hpage).trans ?_
  dsimp only
  rw [hstate]
  rfl

/-- What the loop does with another page. -/
theorem run_waitLoop_other
    {sawInProgress : Bool} {reading : Nat} {text : Str} {polls : List Poll}
    {state : PanelState}
    (hstate : parsePanelState py request.panel text = state) (hne : state ≠ .inProgress) :
    (waitLoop py request pollInterval deadline (polls.length + 1) sawInProgress).run
        (pollHandler clock) (.ok text :: polls, reading) =
      if sawInProgress then (.ok state, (polls, reading))
      else if deadline ≤ clock reading then (.ok state, (polls, reading + 1))
      else (waitLoop py request pollInterval deadline polls.length false).run
        (pollHandler clock) (polls, reading + 1) := by
  have hread : ∀ p : ℚ → StorageProgram PanelState,
      ((time request.vdisk).bind p).run (pollHandler clock) (polls, reading) =
        (p (clock reading)).run (pollHandler clock) (polls, reading + 1) := fun _ => rfl
  have hpage : (fetchDbMainPage request.vdisk request.dbname).attempt.run (pollHandler clock)
      (.ok text :: polls, reading) = (.ok (.ok text), (polls, reading)) := rfl
  rw [waitLoop]
  refine (Program.run_bind_ok hpage).trans ?_
  dsimp only
  rw [hstate]
  cases state with
  | inProgress => exact absurd rfl hne
  | idle =>
      split_ifs with hsaw hdue
      · rfl
      · refine (hread _).trans ?_
        rw [if_pos hdue]
        rfl
      · refine (hread _).trans ?_
        rw [if_neg hdue]
        rfl
  | unknown =>
      split_ifs with hsaw hdue
      · rfl
      · refine (hread _).trans ?_
        rw [if_pos hdue]
        rfl
      · refine (hread _).trans ?_
        rw [if_neg hdue]
        rfl

/-- What the loop over polls from a list returns.  One that ran out of polls goes on. -/
def waitOutcome : Option (PanelState × Nat) → Except Str PanelState
  | some (state, _) => .ok state
  | none => .error []

theorem waitOutcome_map (r : Option (PanelState × Nat)) :
    waitOutcome (r.map fun r => (r.1, r.2 + 1)) = waitOutcome r := by
  cases r <;> rfl

/-- The loop over polls from a list is the loop that sends them. -/
theorem run_waitLoop
    (sawInProgress : Bool) (reading : Nat) (polls : List Poll) :
    ((waitLoop py request pollInterval deadline polls.length sawInProgress).run
      (pollHandler clock) (polls, reading)).1 =
        waitOutcome (waitFrom (parsePanelState py request.panel)
          (fun reading => decide (deadline ≤ clock reading)) sawInProgress reading polls) := by
  induction polls generalizing sawInProgress reading with
  | nil => rfl
  | cons poll polls ih =>
      cases poll with
      | error exc => exact (ih sawInProgress reading).trans (waitOutcome_map _).symm
      | ok text =>
          rw [List.length_cons]
          by_cases hpage : parsePanelState py request.panel text = .inProgress
          · rw [run_waitLoop_progress _ _ _ _ _ hpage, ih, waitFrom, hpage]
            exact (waitOutcome_map _).symm
          · rw [run_waitLoop_other _ _ _ _ _ rfl hpage]
            cases sawInProgress with
            | true => rw [waitFrom_settled reading polls hpage, if_pos rfl, waitOutcome]
            | false =>
                rw [if_neg Bool.false_ne_true]
                by_cases hdue : deadline ≤ clock reading
                · rw [if_pos hdue, waitFrom_due polls hpage (decide_eq_true hdue), waitOutcome]
                · rw [if_neg hdue, waitFrom_early polls hpage (decide_eq_false hdue),
                    waitOutcome_map, ih]

/-- `wait_until_idle` in the programs returns what the loop over the polls returns, and
nothing before that. -/
theorem run_waitForIdle (polls : List Poll) :
    ((waitForIdle py request pollInterval polls.length).run (pollHandler clock) (polls, 0)).1 =
      waitOutcome (waitUntilIdle py request.panel pollInterval clock polls) :=
  run_waitLoop py request pollInterval (clock 0 + max pollInterval 5) clock false 1 polls

end Loop

/-! ## The requests of a group -/

section Requests

/-- A dry run sends none of the requests. -/
def Settings.sent (settings : Settings) (requests : List Request) : List Request :=
  if settings.dryRun then [] else requests

/-- The requests that `process_vdisk` sends if none of them fails. -/
def sentTo (settings : Settings) (v : VDisk) : List Request :=
  settings.sent (requestsOf settings.dbnames settings.doDefrag v)

/-- `SentUpTo total sent r`: the requests of `total` were sent one after the other, up to the
first one that failed.  It is the last one, and `r` is its exception. -/
inductive SentUpTo : List Request → List Start → Except Str Unit → Prop
  | done : SentUpTo [] [] (.ok ())
  | failed
      (start : Start) (total : List Request) (exc : Str)
      (hfailure : start.failure = some exc) :
      SentUpTo (start.request :: total) [start] (.error exc)
  | next
      (start : Start) (total : List Request) (sent : List Start) (r : Except Str Unit)
      (hfailure : start.failure = none) (hsent : SentUpTo total sent r) :
      SentUpTo (start.request :: total) (start :: sent) r

/-- What the VDisks of a group were sent, and the messages that were left: each one
got all its requests, or those up to the first one that failed. -/
inductive Processed (settings : Settings) : List VDisk → List Start → List Str → Prop
  | nil : Processed settings [] [] []
  | ok
      (v : VDisk) (vdisks : List VDisk) (sent starts : List Start) (errors : List Str)
      (hsent : SentUpTo (sentTo settings v) sent (.ok ()))
      (h : Processed settings vdisks starts errors) :
      Processed settings (v :: vdisks) (sent ++ starts) errors
  | failed
      (v : VDisk) (vdisks : List VDisk) (sent starts : List Start) (errors : List Str)
      (exc : Str) (hsent : SentUpTo (sentTo settings v) sent (.error exc))
      (h : Processed settings vdisks starts errors) :
      Processed settings (v :: vdisks) (sent ++ starts) (errorMessage v exc :: errors)

/-- The others do not send requests to the group. -/
abbrev requestsContract : Int → Contract Storage :=
  Contract.among fun groupId s s' => s'.startsIn groupId = s.startsIn groupId

variable {py : Interpreter} {pages : Storage → VDisk → DbName → Str → Prop}
variable {lag latency : ℚ} {groupId : Int} {s s' : Storage}
variable {settings : Settings} {polls : Nat} {total : List Request} {sent starts : List Start}
variable {r : Except Str Unit}

theorem SentUpTo.prefix
    (h : SentUpTo total sent r) :
    sent.map Start.request <+: total := by
  induction h with
  | done => exact List.prefix_rfl
  | failed start total exc hfailure => exact ⟨total, rfl⟩
  | next start total sent r hfailure hsent ih =>
      rw [List.map_cons]
      exact (List.prefix_cons_inj _).mpr ih

/-- No request failed, so that all of them were sent. -/
theorem SentUpTo.requests_eq
    (h : SentUpTo total sent (.ok ())) :
    sent.map Start.request = total := by
  generalize hr : (Except.ok () : Except Str Unit) = r' at h
  induction h with
  | done => rfl
  | failed start total exc hfailure => cases hr
  | next start total sent r' hfailure hsent ih => rw [List.map_cons, ih hr]

/-- All of them were sent, and then others. -/
theorem SentUpTo.append
    {total' : List Request} {sent' : List Start}
    (h : SentUpTo total sent (.ok ())) (h' : SentUpTo total' sent' r) :
    SentUpTo (total ++ total') (sent ++ sent') r := by
  generalize hr : (Except.ok () : Except Str Unit) = r' at h
  induction h with
  | done => exact h'
  | failed start total exc hfailure => cases hr
  | next start total sent r' hfailure hsent ih =>
      exact SentUpTo.next start _ _ _ hfailure (ih hr)

/-- One of them failed, and the others were not sent. -/
theorem SentUpTo.append_left
    {exc : Str} (total' : List Request)
    (h : SentUpTo total sent (.error exc)) :
    SentUpTo (total ++ total') sent (.error exc) := by
  generalize hr : (Except.error exc : Except Str Unit) = r' at h
  induction h with
  | done => cases hr
  | failed start total exc' hfailure =>
      cases hr
      exact SentUpTo.failed start _ exc hfailure
  | next start total sent r' hfailure hsent ih =>
      exact SentUpTo.next start _ _ _ hfailure (ih hr)

/-- Only a start is logged. -/
def startedBy : (op : StorageOp) → Except Str (storageSignature.Answer op) → List Start
  | .start request, answer => [⟨request, answer⟩]
  | .page _ _, _ | .clock _, _ | .sleep _, _ | .markDone _ _, _ | .forever, _ => []

/-- The operation is no start. -/
def SendsNothing : StorageOp → Prop
  | .start _ => False
  | .page _ _ | .clock _ | .sleep _ | .markDone _ _ | .forever => True

/-- The storage has no part in the operation. -/
def NeverFails : StorageOp → Prop
  | .start _ | .page _ _ => False
  | .clock _ | .sleep _ | .markDone _ _ | .forever => True

theorem startedBy_eq_nil
    {op : StorageOp} {r : Except Str (storageSignature.Answer op)}
    (hop : SendsNothing op) :
    startedBy op r = [] := by
  cases op with
  | start request => exact hop.elim
  | _ => rfl

theorem not_failed
    {op : StorageOp} {e : Str}
    (hop : NeverFails op) :
    ¬ StorageAnswer pages latency s op (.error e) s' := by
  intro h
  cases h <;> exact hop

theorem starts_of_answer
    {op : StorageOp} {r : Except Str (storageSignature.Answer op)}
    (h : StorageAnswer pages latency s op r s') :
    s'.starts = s.starts ++ startedBy op r := by
  cases h <;> first | rfl | exact (List.append_nil _).symm

theorem starts_of_drift
    (h : StorageDrift lag s s') :
    s'.starts = s.starts := by
  cases h <;> rfl

theorem startsIn_of_answer
    {op : StorageOp} {r : Except Str (storageSignature.Answer op)}
    (h : StorageAnswer pages latency s op r s') (groupId : Int) :
    s'.startsIn groupId = s.startsIn groupId ++
      (startedBy op r).filter fun start => decide (start.request.vdisk.groupId = groupId) := by
  unfold Storage.startsIn
  rw [starts_of_answer h, List.filter_append]

theorem stable_starts (groupId : Int) (starts : List Start) :
    (requestsContract groupId).Stable fun s => s.startsIn groupId = starts :=
  fun _ _ h hrely => hrely.trans h

/-- An operation for a VDisk of the group. -/
theorem sends_guarantee
    {op : StorageOp} {r : Except Str (storageSignature.Answer op)}
    (hop : ∀ start ∈ startedBy op r, start.request.vdisk.groupId = groupId)
    (h : StorageAnswer pages latency s op r s') :
    (requestsContract groupId).guarantee s s' := by
  intro other hother
  rw [startsIn_of_answer h]
  refine List.append_right_eq_self.mpr (List.filter_eq_nil_iff.mpr ?_)
  intro start hstart heq
  exact hother ((of_decide_eq_true heq).symm.trans (hop start hstart))

/-- `Sends total starts p`: what `p` sends after `starts` goes to the group and is a part of
`total` from its start.  If `p` raises, it is the exception of the last request. -/
def Sends
    (pages : Storage → VDisk → DbName → Str → Prop) (latency : ℚ) (groupId : Int)
    (total : List Request) (starts : List Start) (p : StorageProgram Unit) (s : Storage) : Prop :=
  Keeps (StorageAnswer pages latency) (requestsContract groupId)
    (fun s => ∃ sent : List Start, sent.map Start.request <+: total ∧
      s.startsIn groupId = starts ++ sent)
    (fun r s => ∃ sent, SentUpTo total sent r ∧ s.startsIn groupId = starts ++ sent) p s

/-- A program that has ended. -/
theorem sends_ended
    (hsent : SentUpTo total sent r)
    (h : s.startsIn groupId = starts ++ sent) :
    Sends pages latency groupId total starts (Program.ofExcept r) s :=
  Keeps.ended (stable_starts groupId (starts ++ sent)) h
    (fun _ hs => ⟨sent, hsent.prefix, hs⟩) fun _ hs => ⟨sent, hsent, hs⟩

theorem sends_done
    (h : s.startsIn groupId = starts) :
    Sends pages latency groupId [] starts (.pure ()) s :=
  sends_ended .done (h.trans (List.append_nil _).symm)

/-- One program after the other. -/
theorem sends_bind
    {first second : List Request} {p : StorageProgram Unit} {f : Unit → StorageProgram Unit}
    (hp : Sends pages latency groupId first starts p s)
    (hf : ∀ s sent, s.startsIn groupId = starts ++ sent →
      Sends pages latency groupId second (starts ++ sent) (f ()) s) :
    Sends pages latency groupId (first ++ second) starts (p.bind f) s := by
  refine Keeps.bind (hp.mono ?_ ?_)
  · rintro s ⟨sent, hsent, hs⟩
    exact ⟨sent, hsent.trans (List.prefix_append _ _), hs⟩
  · rintro r s - ⟨sent, hsent, hs⟩
    cases r with
    | ok a =>
        refine (hf s sent hs).mono ?_ ?_
        · -- what comes after `sent` is sent after all of the first ones
          rintro s ⟨sent', hsent', hs⟩
          refine ⟨sent ++ sent', ?_, by rw [hs, List.append_assoc]⟩
          rw [List.map_append, hsent.requests_eq]
          exact (List.prefix_append_right_inj first).mpr hsent'
        · rintro r s - ⟨sent', hsent', hs⟩
          exact ⟨sent ++ sent', hsent.append hsent', by rw [hs, List.append_assoc]⟩
    | error exc =>
        have hended : Sends pages latency groupId (first ++ second) starts (.raise exc) s :=
          sends_ended (hsent.append_left second) hs
        exact hended

/-- The program starts nothing and does not raise. -/
structure Waits {α : Type} (p : StorageProgram α) : Prop where
  uses : p.Uses SendsNothing
  quiet : p.Quiet NeverFails

theorem waits_pure {α : Type} (a : α) :
    Waits (.pure a) :=
  ⟨trivial, trivial⟩

theorem waits_perform
    {op : StorageOp}
    (hsends : SendsNothing op) (hfails : NeverFails op) :
    Waits (@Program.perform storageSignature Str op) :=
  ⟨Program.uses_perform hsends, Program.quiet_perform hfails⟩

theorem waits_bind
    {α β : Type} {p : StorageProgram α} {f : α → StorageProgram β}
    (hp : Waits p) (hf : ∀ a, Waits (f a)) :
    Waits (p.bind f) :=
  ⟨Program.uses_bind hp.uses fun a => (hf a).uses,
    Program.quiet_bind hp.quiet fun a => (hf a).quiet⟩

/-- Waiting only polls, and a poll that fails is repeated. -/
theorem waits_waitLoop
    (py : Interpreter) (request : Request) (pollInterval deadline : ℚ) (polls : Nat)
    (sawInProgress : Bool) :
    Waits (waitLoop py request pollInterval deadline polls sawInProgress) := by
  induction polls generalizing sawInProgress with
  | zero => exact waits_bind (waits_perform trivial trivial) fun never => nomatch (never : Empty)
  | succ polls ih =>
      have hsleep : ∀ delay saw, Waits ((sleep delay).bind fun _ =>
          waitLoop py request pollInterval deadline polls saw) :=
        fun delay saw => waits_bind (waits_perform trivial trivial) fun _ => ih saw
      have hother : ∀ state, Waits (if sawInProgress = true then .pure state else
          (time request.vdisk).bind fun now => if deadline ≤ now then .pure state else
            (sleep (min pollInterval 1)).bind fun _ =>
              waitLoop py request pollInterval deadline polls false) := by
        intro state
        split_ifs with hsaw
        · exact waits_pure state
        · refine waits_bind (waits_perform trivial trivial) fun now => ?_
          split_ifs with hdue
          · exact waits_pure state
          · exact hsleep _ false
      have hpage : Waits (fetchDbMainPage request.vdisk request.dbname).attempt :=
        ⟨Program.uses_attempt (Program.uses_perform trivial), Program.quiet_attempt _⟩
      refine waits_bind hpage fun r => ?_
      cases r with
      | error exc => exact hsleep _ sawInProgress
      | ok text =>
          cases hstate : parsePanelState py request.panel text with
          | inProgress =>
              simp only [hstate]
              exact waits_bind (waits_perform trivial trivial) fun _ => hsleep _ true
          | idle =>
              simp only [hstate]
              exact hother _
          | unknown =>
              simp only [hstate]
              exact hother _

/-- Whatever is left of a program after its request was accepted. -/
theorem sends_rest
    {start : Start} {p : StorageProgram Unit}
    (hp : Waits p) (hfailure : start.failure = none)
    (h : s.startsIn groupId = starts ++ [start]) :
    Sends pages latency groupId [start.request] starts p s := by
  have hkeeps : Keeps (StorageAnswer pages latency) (requestsContract groupId)
      (fun s => ∃ sent : List Start, sent.map Start.request <+: [start.request] ∧
        s.startsIn groupId = starts ++ sent)
      (fun _ (s : Storage) => s.startsIn groupId = starts ++ [start]) p s := by
    refine Keeps.of_uses (A := fun s : Storage => s.startsIn groupId = starts ++ [start])
      (stable_starts groupId _) ?_ ?_ (fun _ _ hs => hs) hp.uses h
    · intro s op r s' hop hs henv
      have hnone : startedBy op r = [] := startedBy_eq_nil hop
      refine ⟨sends_guarantee (fun start hstart => ?_) henv, ?_⟩
      · rw [hnone] at hstart
        cases hstart
      · rw [startsIn_of_answer henv, hnone, hs, List.filter_nil, List.append_nil]
    · exact fun s hs => ⟨[start], List.prefix_rfl, hs⟩
  refine (hkeeps.and_quiet (fun _ _ _ _ => not_failed) hp.quiet).weaken ?_
  rintro r s - ⟨⟨a, rfl⟩, hs⟩
  exact ⟨[start], .next start [] [] _ hfailure .done, hs⟩

/-! The functions of the script, from one operation to a group. -/

theorem Settings.sent_append (settings : Settings) (requests requests' : List Request) :
    settings.sent (requests ++ requests') = settings.sent requests ++ settings.sent requests' := by
  unfold Settings.sent
  split_ifs <;> rfl

/-- What `start_vdisk_action` makes of the status, and what follows. -/
theorem sends_answered
    {p : StorageProgram Unit} {request : Request} (status : Nat)
    (hp : Waits p)
    (h : s.startsIn groupId = starts ++ [⟨request, .ok status⟩]) :
    Sends pages latency groupId [request] starts
      ((if 400 ≤ status then .raise (startError status request) else .pure () :
        StorageProgram Unit).bind fun _ => p) s := by
  split_ifs with hstatus
  · have hfailure : Start.failure ⟨request, .ok status⟩ = some (startError status request) :=
      if_pos hstatus
    have hended : Sends pages latency groupId [request] starts
        (.raise (startError status request)) s :=
      sends_ended (.failed ⟨request, .ok status⟩ [] _ hfailure) h
    exact hended
  · have hfailure : Start.failure ⟨request, .ok status⟩ = none := if_neg hstatus
    exact sends_rest hp hfailure h

/-- A request is sent, and waited for if it was accepted. -/
theorem sends_startVDiskAction
    {p : StorageProgram Unit} {request : Request}
    (hp : Waits p)
    (h : s.startsIn request.vdisk.groupId = starts) :
    Sends pages latency request.vdisk.groupId [request] starts
      ((startVDiskAction request).bind fun _ => p) s := by
  refine Keeps.call (S := storageSignature) (stable_starts _ starts) h
    (fun s hs => ⟨[], List.nil_prefix, by rw [hs, List.append_nil]⟩) ?_
  intro s r s' hs henv
  refine ⟨sends_guarantee (fun _ hmem => by rw [List.mem_singleton.mp hmem]) henv, ?_⟩
  have hlogged : s'.startsIn request.vdisk.groupId = starts ++ [⟨request, r⟩] := by
    rw [startsIn_of_answer henv, hs]
    simp [startedBy]
  cases r with
  | error exc =>
      have hended : Sends pages latency request.vdisk.groupId [request] starts (.raise exc) s' :=
        sends_ended (.failed ⟨request, .error exc⟩ [] exc rfl) hlogged
      exact hended
  | ok status => exact sends_answered status hp hlogged

theorem sends_processRequest
    (pages : Storage → VDisk → DbName → Str → Prop) (py : Interpreter) (latency : ℚ)
    (settings : Settings) (polls : Nat) (request : Request)
    (h : s.startsIn request.vdisk.groupId = starts) :
    Sends pages latency request.vdisk.groupId (settings.sent [request]) starts
      (processRequest py settings polls request) s := by
  unfold processRequest Settings.sent
  by_cases hdry : settings.dryRun = true
  · rw [if_pos hdry, if_pos hdry]
    exact sends_done h
  · rw [if_neg hdry, if_neg hdry]
    refine sends_startVDiskAction ?_ h
    split_ifs
    · refine waits_bind (waits_bind (waits_perform trivial trivial) fun _ => ?_)
        fun _ => waits_pure ()
      exact waits_waitLoop py request _ _ _ _
    · exact waits_pure ()

theorem sends_processDatabases
    (pages : Storage → VDisk → DbName → Str → Prop) (py : Interpreter) (latency : ℚ)
    (settings : Settings) (polls : Nat) (v : VDisk) (dbnames : List DbName)
    (h : s.startsIn v.groupId = starts) :
    Sends pages latency v.groupId
      (settings.sent (dbnames.map fun dbname => ⟨v, dbname, .compaction⟩)) starts
      (processDatabases py settings polls v dbnames) s := by
  induction dbnames generalizing s starts with
  | nil =>
      have hnone : settings.sent [] = [] := by
        unfold Settings.sent
        split_ifs <;> rfl
      rw [List.map_nil, hnone]
      exact sends_done h
  | cons dbname dbnames ih =>
      have happend := settings.sent_append [⟨v, dbname, .compaction⟩]
        (dbnames.map fun dbname => ⟨v, dbname, .compaction⟩)
      rw [List.singleton_append] at happend
      rw [List.map_cons, happend]
      exact sends_bind
        (sends_processRequest pages py latency settings polls ⟨v, dbname, .compaction⟩ h)
        fun s sent hs => ih hs

theorem sends_processVDisk
    (pages : Storage → VDisk → DbName → Str → Prop) (py : Interpreter) (latency : ℚ)
    (settings : Settings) (polls : Nat) (v : VDisk)
    (h : s.startsIn v.groupId = starts) :
    Sends pages latency v.groupId (sentTo settings v) starts
      (processVDisk py settings polls v) s := by
  unfold processVDisk sentTo requestsOf
  split_ifs with hdefrag
  · exact sends_processRequest pages py latency settings polls ⟨v, .logoBlobs, .defrag⟩ h
  · exact sends_processDatabases pages py latency settings polls v settings.dbnames h

/-- What the group was sent so far is what its VDisks are due, in their order. -/
def SentInOrder
    (settings : Settings) (groupId : Int) (vdisks : List VDisk) (starts : List Start)
    (s : Storage) : Prop :=
  ∃ sent : List Start,
    (sent.map Start.request).Sublist (vdisks.flatMap (sentTo settings)) ∧
      s.startsIn groupId = starts ++ sent

/-- The VDisks of the group were processed, and the messages are those they left. -/
def SentToGroup
    (settings : Settings) (groupId : Int) (vdisks : List VDisk) (starts : List Start)
    (r : Except Str (List Str)) (s : Storage) : Prop :=
  ∃ sent errors, r = .ok errors ∧ Processed settings vdisks sent errors ∧
    s.startsIn groupId = starts ++ sent

/-- The program sends the VDisks of the group what they are due. -/
abbrev SendsGroup
    (pages : Storage → VDisk → DbName → Str → Prop) (latency : ℚ) (settings : Settings)
    (groupId : Int) (vdisks : List VDisk) (starts : List Start)
    (p : StorageProgram (List Str)) (s : Storage) : Prop :=
  Keeps (StorageAnswer pages latency) (requestsContract groupId)
    (SentInOrder settings groupId vdisks starts) (SentToGroup settings groupId vdisks starts)
    p s

theorem sublist_of_processed
    {vdisks : List VDisk} {errors : List Str}
    (h : Processed settings vdisks sent errors) :
    (sent.map Start.request).Sublist (vdisks.flatMap (sentTo settings)) := by
  induction h with
  | nil => exact List.Sublist.refl _
  | ok v vdisks sent starts errors hsent h ih =>
      rw [List.map_append]
      exact hsent.prefix.sublist.append ih
  | failed v vdisks sent starts errors exc hsent h ih =>
      rw [List.map_append]
      exact hsent.prefix.sublist.append ih

/-- The messages of the VDisks are known. -/
theorem sendsGroup_ended
    (pages : Storage → VDisk → DbName → Str → Prop) (latency : ℚ)
    {vdisks : List VDisk} {errors : List Str}
    (hprocessed : Processed settings vdisks sent errors)
    (h : s.startsIn groupId = starts ++ sent) :
    SendsGroup pages latency settings groupId vdisks starts (.pure errors) s := by
  refine Keeps.ended (r := .ok errors) (stable_starts groupId (starts ++ sent)) h ?_ ?_
  · exact fun s hs => ⟨sent, sublist_of_processed hprocessed, hs⟩
  · exact fun s hs => ⟨sent, errors, rfl, hprocessed, hs⟩

theorem sendsGroup_markDone
    {vdisks : List VDisk} {errors : List Str} {v : VDisk} {ok : Bool}
    (hprocessed : Processed settings vdisks sent errors)
    (h : s.startsIn groupId = starts ++ sent) :
    SendsGroup pages latency settings groupId vdisks starts
      ((markDone v ok).bind fun _ => .pure errors) s := by
  refine Keeps.call (S := storageSignature) (stable_starts _ (starts ++ sent)) h
    (fun s hs => ⟨sent, sublist_of_processed hprocessed, hs⟩) ?_
  intro s r s' hs henv
  refine ⟨sends_guarantee (fun _ hmem => by cases hmem) henv, ?_⟩
  cases henv
  exact sendsGroup_ended pages latency hprocessed hs

/-- The messages of one VDisk, and those of the others after it. -/
theorem Processed.cons
    {v : VDisk} {vdisks : List VDisk} {first second : List Start} {errors more : List Str}
    (hone : Processed settings [v] first errors) (h : Processed settings vdisks second more) :
    Processed settings (v :: vdisks) (first ++ second) (errors ++ more) := by
  cases hone with
  | ok _ _ sent starts _ hsent hnil =>
      cases hnil
      rw [List.append_nil]
      exact Processed.ok v vdisks sent second more hsent h
  | failed _ _ sent starts _ exc hsent hnil =>
      cases hnil
      rw [List.append_nil]
      exact Processed.failed v vdisks sent second more exc hsent h

theorem sendsGroup_processMember
    (pages : Storage → VDisk → DbName → Str → Prop) (py : Interpreter) (latency : ℚ)
    (settings : Settings) (polls : Nat) (v : VDisk)
    (h : s.startsIn v.groupId = starts) :
    SendsGroup pages latency settings v.groupId [v] starts
      (processMember py settings polls v) s := by
  have hone := sends_processVDisk pages py latency settings polls v h
  refine Keeps.tryCatch (Keeps.bind (hone.mono ?_ ?_))
  · rintro s ⟨sent, hsent, hs⟩
    exact ⟨sent, by simpa using hsent.sublist, hs⟩
  · rintro r s - ⟨sent, hsent, hs⟩
    cases r with
    | ok a =>
        have hprocessed : Processed settings [v] (sent ++ []) [] :=
          Processed.ok v [] sent [] [] hsent Processed.nil
        rw [List.append_nil] at hprocessed
        have hmark : SendsGroup pages latency settings v.groupId [v] starts
          ((markDone v true).bind fun _ => .pure []) s := sendsGroup_markDone hprocessed hs
        refine hmark.weaken ?_
        rintro r s - ⟨sent, errors, rfl, hsent, hs⟩
        exact sendsGroup_ended pages latency hsent hs
    | error exc =>
        have hprocessed : Processed settings [v] (sent ++ []) [errorMessage v exc] :=
          Processed.failed v [] sent [] [] exc hsent Processed.nil
        rw [List.append_nil] at hprocessed
        have hmark : ∀ s', s'.startsIn v.groupId = starts ++ sent →
            SendsGroup pages latency settings v.groupId [v] starts
              ((markDone v false).bind fun _ => .pure [errorMessage v exc]) s' :=
          fun s' hs' => sendsGroup_markDone hprocessed hs'
        intro s' hs'
        have hkept := (stable_starts v.groupId (starts ++ sent)).of_rely hs hs'
        exact ⟨(hmark s' hkept).inv, hmark s' hkept⟩

theorem sendsGroup_processGroup
    (pages : Storage → VDisk → DbName → Str → Prop) (py : Interpreter) (latency : ℚ)
    (settings : Settings) (polls : Nat) {vdisks : List VDisk}
    (hgroup : ∀ v ∈ vdisks, v.groupId = groupId)
    (h : s.startsIn groupId = starts) :
    SendsGroup pages latency settings groupId vdisks starts
      (processGroup py settings polls vdisks) s := by
  induction vdisks generalizing s starts with
  | nil => exact sendsGroup_ended pages latency Processed.nil (by rw [h, List.append_nil])
  | cons v vdisks ih =>
      obtain ⟨rfl, hgroup⟩ := List.forall_mem_cons.mp hgroup
      have hmember := sendsGroup_processMember pages py latency settings polls v h
      refine Keeps.bind (hmember.mono ?_ ?_)
      · rintro s ⟨sent, hsent, hs⟩
        refine ⟨sent, ?_, hs⟩
        rw [List.flatMap_cons, List.flatMap_nil, List.append_nil] at hsent
        rw [List.flatMap_cons]
        exact hsent.trans (List.sublist_append_left _ _)
      · rintro r s - ⟨first, errors, rfl, hfirst, hs⟩
        refine Keeps.bind ((ih hgroup hs).mono ?_ ?_)
        · rintro s ⟨sent, hsent, hs⟩
          have hsublist := (sublist_of_processed hfirst).append hsent
          rw [List.flatMap_cons, List.flatMap_nil, List.append_nil, ← List.map_append] at hsublist
          exact ⟨first ++ sent, hsublist, by rw [hs, List.append_assoc]⟩
        · rintro r s - ⟨second, more, rfl, hsecond, hs⟩
          exact sendsGroup_ended pages latency (hfirst.cons hsecond) (by rw [hs, List.append_assoc])

end Requests

section Pool

variable {py : Interpreter} {settings : Settings} {polls threads : Nat} {vdisks : List VDisk}
variable {pages : Storage → VDisk → DbName → Str → Prop} {lag latency : ℚ} {s : Storage}
variable {pool : Pool Int storageSignature Str (List Str) Storage}

/-- Every group sends its requests in the pool. -/
theorem sendsGroup_of_operating
    (hs : s.starts = [])
    (hrun : Operating py settings polls threads vdisks pages lag latency s pool) :
    ∀ job ∈ pool.jobs, SendsGroup pages latency settings job.1
      (ofGroup job.1 (sortVDisks vdisks)) [] job.2.rest pool.world := by
  refine Pool.keeps_of_reachable (c := requestsContract)
    (I := fun k => SentInOrder settings k (ofGroup k (sortVDisks vdisks)) [])
    (Q := fun k => SentToGroup settings k (ofGroup k (sortVDisks vdisks)) []) ?_ ?_ ?_ ?_ hrun
  · rw [groupPrograms_keys py settings polls]
    exact nodup_groupTasks vdisks
  · intro k k' hne s s' hguarantee
    exact hguarantee k hne
  · intro k _ s s' hdrift
    change s'.startsIn k = s.startsIn k
    rw [Storage.startsIn, starts_of_drift hdrift, Storage.startsIn]
  · intro program hprogram
    obtain ⟨task, htask, rfl⟩ := List.mem_map.mp hprogram
    rw [← items_of_mem_groupTasks htask]
    refine sendsGroup_processGroup pages py latency settings polls
      ((wellFormed_groupTasks vdisks).keyed task htask) ?_
    rw [Storage.startsIn, hs, List.filter_nil]

/-- Nothing is sent to a group without a thread. -/
theorem startsIn_of_operating
    (hs : s.starts = [])
    (hrun : Operating py settings polls threads vdisks pages lag latency s pool)
    {groupId : Int} (hgroup : groupId ∉ (groupTasks vdisks).map Task.key) :
    pool.world.startsIn groupId = [] := by
  have hsame := Pool.relates_of_reachable (c := requestsContract)
    (I := fun k => SentInOrder settings k (ofGroup k (sortVDisks vdisks)) [])
    (Q := fun k => SentToGroup settings k (ofGroup k (sortVDisks vdisks)) [])
    (R := fun s s' : Storage => s'.startsIn groupId = s.startsIn groupId)
    (fun pool hpool => sendsGroup_of_operating hs hpool)
    (fun k hk s s' hguarantee => hguarantee groupId fun heq => by
      rw [groupPrograms_keys py settings polls, ← heq] at hk
      exact hgroup hk)
    (fun s s' hdrift => by rw [Storage.startsIn, starts_of_drift hdrift, Storage.startsIn])
    hrun
  have hnone : s.startsIn groupId = [] := by rw [Storage.startsIn, hs, List.filter_nil]
  exact (stable_starts groupId []).of_rely hnone hsame

/-- The messages of group 171, whose first VDisk refused its start. -/
def refusedMessages : List Str :=
  [errorMessage (vdiskAt 171 1) (startError 500 (requestAt 171 1))]

/-- Two threads until the end: the first start of group 171 is refused, the second one accepted,
and the start of group 172 gets no answer. -/
theorem operating_refused :
    ∃ pool, Operating asciiInterpreter (compactLogoBlobs false) 10 2 twoGroups
        (Storage.Shows asciiInterpreter) 1 1 restingStorage pool ∧
      pool.world.starts = [⟨requestAt 171 1, .ok 500⟩, ⟨requestAt 172 0, .error "timeout".toList⟩,
        ⟨requestAt 171 3, .ok 200⟩] ∧
      pool.results = [(171, .ok refusedMessages),
        (172, .ok [errorMessage (vdiskAt 172 0) "timeout".toList])] ∧
      pool.Finished := by
  have htaken := operating_taken asciiInterpreter (compactLogoBlobs false) 10
    (Storage.Shows asciiInterpreter) 1 1 restingStorage
  have hrefused := htaken.tail
    (.operation _ [] [_] 171 (StorageOp.start (requestAt 171 1)) _ _ _ rfl
      (.refused _ (requestAt 171 1) 500 (by decide)))
  have hlost := hrefused.tail
    (.operation _ [_] [] 172 (StorageOp.start (requestAt 172 0)) _ _ _ rfl
      (.lost _ (requestAt 172 0) "timeout".toList))
  have hmarked := hlost.tail
    (.operation _ [] [_] 171 (StorageOp.markDone (vdiskAt 171 1) false) _ _ _ rfl
      (.markDone _ _ _))
  have haccepted := hmarked.tail
    (.operation _ [] [_] 171 (StorageOp.start (requestAt 171 3)) _ _ _ rfl
      (.accepted _ (requestAt 171 3) 200 (by decide)))
  have hsecond := haccepted.tail
    (.operation _ [] [_] 171 (StorageOp.markDone (vdiskAt 171 3) true) _ _ _ rfl
      (.markDone _ _ _))
  have hfinished := hsecond.tail (.finish _ [] [_] 171 (.ok refusedMessages) rfl)
  have hother := hfinished.tail
    (.operation _ [_] [] 172 (StorageOp.markDone (vdiskAt 172 0) false) _ _ _ rfl
      (.markDone _ _ _))
  refine ⟨_, hother.tail (.finish _ [_] [] 172
    (.ok [errorMessage (vdiskAt 172 0) "timeout".toList]) rfl), rfl, rfl, ?_⟩
  intro job hjob
  rcases List.mem_pair.mp hjob with rfl | rfl <;> rfl

end Pool

end VDisks
end YdbSnippets
