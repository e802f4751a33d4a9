import YdbSnippets.VDisks.Processing
import Mathlib.Tactic.Linarith

/-!
# One operation of a storage group at a time

While `run_operations` waits for its operations, no two operations that were
started by it are under way in one group, whatever the groups do in parallel and
whatever becomes of single requests.  The argument is about one group: its thread
starts an operation only where none is under way, and the loop that waits for it
returns only after it has ended.
-/

namespace YdbSnippets
namespace VDisks

open Python Effects Pools

section Rely

/-- What is under way was accepted before, and within `lag` if it does not show yet. -/
def Storage.Timely (lag : ℚ) (s : Storage) : Prop :=
  ∀ request operation, s.active request = some operation →
    operation.since ≤ s.now ∧ (operation.visible = false → s.now ≤ operation.since + lag)

/-- The start requests of a group, with their answers. -/
def Storage.startsIn (groupId : Int) (s : Storage) : List Start :=
  s.starts.filter fun start => decide (start.request.vdisk.groupId = groupId)

/-- What the thread of a group relies on: the others leave the operations, the
requests and the pages of the group alone. -/
structure GroupRely (lag : ℚ) (groupId : Int) (s s' : Storage) : Prop where
  now : s.now ≤ s'.now
  timely : s.Timely lag → s'.Timely lag
  active : ∀ request operation', request.vdisk.groupId = groupId →
    s'.active request = some operation' → operation'.acknowledged = true →
      ∃ operation, s.active request = some operation ∧ operation.acknowledged = true ∧
        operation.since = operation'.since ∧
        (operation.visible = true → operation'.visible = true)
  starts : s'.startsIn groupId = s.startsIn groupId
  polled : ∀ v : VDisk, v.groupId = groupId → s'.polled v = s.polled v

theorem GroupRely.refl
    (lag : ℚ) (groupId : Int) (s : Storage) :
    GroupRely lag groupId s s :=
  ⟨le_refl _, id, fun _ operation _ h hack => ⟨operation, h, hack, rfl, id⟩, rfl, fun _ _ => rfl⟩

/-- The contract of the thread of a group. -/
abbrev groupContract (lag : ℚ) (groupId : Int) : Contract Storage :=
  Contract.among (GroupRely lag) groupId

variable {py : Interpreter} {lag latency : ℚ} {groupId : Int} {s s' : Storage}

/-- An accepted operation is new, or was under way before. -/
theorem accept_active
    {request request' : Request} {acknowledged : Bool} {operation : Operation}
    (h : (s.accept request acknowledged).active request' = some operation) :
    (request' = request ∧ operation = ⟨s.now, false, acknowledged⟩) ∨
      ∃ before, s.active request' = some before ∧ operation.since = before.since ∧
        operation.visible = before.visible ∧
        (operation.acknowledged = true →
          before.acknowledged = true ∨ (request' = request ∧ acknowledged = true)) := by
  unfold Storage.accept at h
  by_cases heq : request' = request
  · subst heq
    simp only [Function.update_self, Option.some.injEq] at h
    cases hbefore : s.active request' with
    | none =>
        rw [hbefore] at h
        exact Or.inl ⟨rfl, h.symm⟩
    | some before =>
        rw [hbefore] at h
        subst h
        refine Or.inr ⟨before, rfl, rfl, rfl, fun hack => ?_⟩
        rcases Bool.or_eq_true_iff.mp hack with hack | hack
        · exact Or.inl hack
        · exact Or.inr ⟨rfl, hack⟩
  · simp only [Function.update_of_ne heq] at h
    exact Or.inr ⟨operation, h, rfl, rfl, Or.inl⟩

theorem timely_accept
    (hlag : 0 ≤ lag) (request : Request) (acknowledged : Bool)
    (h : s.Timely lag) :
    (s.accept request acknowledged).Timely lag := by
  intro request' operation hactive
  rcases accept_active hactive with ⟨-, rfl⟩ | ⟨before, hbefore, hsince, hvisible, -⟩
  · refine ⟨le_refl _, fun _ => ?_⟩
    change s.now ≤ s.now + lag
    linarith
  · rw [hsince, hvisible]
    exact h request' before hbefore

/-- What is accepted unacknowledged, or in another group, is nothing to the group. -/
theorem rely_accept
    (hlag : 0 ≤ lag) (s : Storage) (request : Request) (acknowledged : Bool)
    (h : acknowledged = true → request.vdisk.groupId ≠ groupId) :
    GroupRely lag groupId s (s.accept request acknowledged) := by
  refine ⟨le_refl _, timely_accept hlag request acknowledged, ?_, rfl, fun _ _ => rfl⟩
  intro request' operation hgroup hactive hack
  rcases accept_active hactive with ⟨rfl, rfl⟩ | ⟨before, hbefore, hsince, hvisible, hacked⟩
  · exact absurd hgroup (h hack)
  · rcases hacked hack with hacked | ⟨rfl, hacknowledged⟩
    · exact ⟨before, hbefore, hacked, hsince.symm, fun hv => hvisible.trans hv⟩
    · exact absurd hgroup (h hacknowledged)

theorem rely_asked
    (lag : ℚ) (s : Storage) (request : Request) (answer : Except Str Nat)
    (h : request.vdisk.groupId ≠ groupId) :
    GroupRely lag groupId s (s.asked request answer) := by
  refine ⟨le_refl _, id, fun _ operation _ hactive hack => ⟨operation, hactive, hack, rfl, id⟩,
    ?_, ?_⟩
  · simp [Storage.startsIn, Storage.asked, List.filter_append, h]
  · intro v hv
    refine Function.update_of_ne ?_ _ _
    rintro rfl
    exact h hv

theorem GroupRely.trans
    {s'' : Storage}
    (h : GroupRely lag groupId s s') (h' : GroupRely lag groupId s' s'') :
    GroupRely lag groupId s s'' := by
  refine ⟨h.now.trans h'.now, fun ht => h'.timely (h.timely ht), ?_,
    h'.starts.trans h.starts, fun v hv => (h'.polled v hv).trans (h.polled v hv)⟩
  intro request operation hgroup hactive hack
  obtain ⟨middle, hmiddle, hmack, hmsince, hmvisible⟩ :=
    h'.active request operation hgroup hactive hack
  obtain ⟨first, hfirst, hfack, hfsince, hfvisible⟩ :=
    h.active request middle hgroup hmiddle hmack
  exact ⟨first, hfirst, hfack, hfsince.trans hmsince, fun hv => hmvisible (hfvisible hv)⟩

/-- The VDisk that an operation is about. -/
def StorageOp.vdisk : StorageOp → Option VDisk
  | .start request => some request.vdisk
  | .page v _ | .clock v | .markDone v _ => some v
  | .sleep _ | .forever => none

/-- An operation about a VDisk of one group is nothing to the other groups. -/
theorem rely_of_answer
    {pages : Storage → VDisk → DbName → Str → Prop} {op : StorageOp}
    {r : Except Str (storageSignature.Answer op)}
    (hlag : 0 ≤ lag)
    (hop : ∀ v, op.vdisk = some v → v.groupId ≠ groupId)
    (h : StorageAnswer pages latency s op r s') :
    GroupRely lag groupId s s' := by
  cases h with
  | accepted _ request status _ =>
      exact (rely_asked lag s request _ (hop _ rfl)).trans
        (rely_accept hlag _ request true fun _ => hop _ rfl)
  | refused _ request status _ => exact rely_asked lag s request _ (hop _ rfl)
  | refusedAccepted _ request status _ =>
      exact (rely_asked lag s request _ (hop _ rfl)).trans
        (rely_accept hlag _ request false fun h => by cases h)
  | lost _ request exc => exact rely_asked lag s request _ (hop _ rfl)
  | lostAccepted _ request exc =>
      exact (rely_asked lag s request _ (hop _ rfl)).trans
        (rely_accept hlag _ request false fun h => by cases h)
  | page _ v dbname text _ =>
      have hrefl := GroupRely.refl lag groupId s
      refine ⟨hrefl.now, id, hrefl.active, rfl, fun w hw => Function.update_of_ne ?_ _ _⟩
      rintro rfl
      exact hop _ rfl hw
  | pageFailed _ v dbname exc => exact GroupRely.refl lag groupId _
  | clock _ v _ => exact GroupRely.refl lag groupId _
  | sleep _ delay => exact GroupRely.refl lag groupId _
  | markDone _ v ok =>
      have hrefl := GroupRely.refl lag groupId s
      exact ⟨hrefl.now, id, hrefl.active, rfl, fun _ _ => rfl⟩

/-- The drift of the storage is nothing to a group but that its operations show up
and end. -/
theorem rely_of_drift
    (hlag : 0 ≤ lag)
    (h : StorageDrift lag s s') :
    GroupRely lag groupId s s' := by
  cases h with
  | pass t hlater hhidden =>
      have hrefl := GroupRely.refl lag groupId s
      refine ⟨hlater, fun htimely => ?_, hrefl.active, rfl, fun _ _ => rfl⟩
      intro request operation hactive
      exact ⟨(htimely request operation hactive).1.trans hlater,
        hhidden request operation hactive⟩
  | appear request operation hactive =>
      refine ⟨le_refl _, ?_, ?_, rfl, fun _ _ => rfl⟩
      · intro htimely request' operation' hactive'
        by_cases heq : request' = request
        · subst heq
          simp only [Function.update_self, Option.some.injEq] at hactive'
          subst hactive'
          exact ⟨(htimely request' operation hactive).1, fun hhidden => by cases hhidden⟩
        · simp only [Function.update_of_ne heq] at hactive'
          exact htimely request' operation' hactive'
      · intro request' operation' _ hactive' hack
        by_cases heq : request' = request
        · subst heq
          simp only [Function.update_self, Option.some.injEq] at hactive'
          subst hactive'
          exact ⟨operation, hactive, hack, rfl, fun _ => rfl⟩
        · simp only [Function.update_of_ne heq] at hactive'
          exact ⟨operation', hactive', hack, rfl, id⟩
  | finish request =>
      have hsame : ∀ request' operation',
          Function.update s.active request none request' = some operation' →
            s.active request' = some operation' := by
        intro request' operation' hactive'
        by_cases heq : request' = request
        · subst heq
          simp at hactive'
        · rwa [Function.update_of_ne heq] at hactive'
      refine ⟨le_refl _, ?_, ?_, rfl, fun _ _ => rfl⟩
      · exact fun htimely request' operation' hactive' =>
          htimely request' operation' (hsame request' operation' hactive')
      · exact fun request' operation' _ hactive' hack =>
          ⟨operation', hsame request' operation' hactive', hack, rfl, id⟩
  | others request => exact rely_accept hlag s request false fun h => by cases h

end Rely

/-! ## The thread of a group -/

section Thread

variable {py : Interpreter} {lag latency : ℚ} {groupId : Int} {s s' : Storage}

/-- No operation of the tool is under way in the group. -/
structure Storage.Idle (lag : ℚ) (groupId : Int) (s : Storage) : Prop where
  timely : s.Timely lag
  none : ∀ request operation, request.vdisk.groupId = groupId →
    s.active request = some operation → operation.acknowledged = false

/-- If an operation of the tool is under way in the group, it is this one.  It was
accepted by `accepted`, and it shows if its page said so. -/
structure Storage.Only
    (lag : ℚ) (request : Request) (accepted : ℚ) (seen : Bool) (s : Storage) : Prop where
  timely : s.Timely lag
  past : accepted ≤ s.now
  only : ∀ request' operation, request'.vdisk.groupId = request.vdisk.groupId →
    s.active request' = some operation → operation.acknowledged = true →
      request' = request ∧ operation.since ≤ accepted ∧
        (seen = true → operation.visible = true)

/-- No two operations of the tool are under way in the group. -/
def Storage.Apart (groupId : Int) (s : Storage) : Prop :=
  ∀ request request' operation operation',
    s.active request = some operation → operation.acknowledged = true →
    s.active request' = some operation' → operation'.acknowledged = true →
    request.vdisk.groupId = groupId → request'.vdisk.groupId = groupId → request = request'

theorem Storage.Idle.apart
    (h : s.Idle lag groupId) :
    s.Apart groupId := by
  intro request request' operation operation' hactive hack _ _ hgroup _
  rw [h.none request operation hgroup hactive] at hack
  cases hack

theorem Storage.Only.apart
    {request : Request} {accepted : ℚ} {seen : Bool}
    (h : s.Only lag request accepted seen) :
    s.Apart request.vdisk.groupId := by
  intro first second operation operation' hactive hack hactive' hack' hgroup hgroup'
  rw [(h.only first operation hgroup hactive hack).1,
    (h.only second operation' hgroup' hactive' hack').1]

theorem stable_idle (lag : ℚ) (groupId : Int) :
    (groupContract lag groupId).Stable (Storage.Idle lag groupId) := by
  intro s s' h hrely
  refine ⟨hrely.timely h.timely, ?_⟩
  intro request operation hgroup hactive
  cases hack : operation.acknowledged with
  | false => rfl
  | true =>
      obtain ⟨before, hbefore, hback, -, -⟩ := hrely.active request operation hgroup hactive hack
      rw [h.none request before hgroup hbefore] at hback
      cases hback

theorem stable_only (lag : ℚ) (request : Request) (accepted : ℚ) (seen : Bool) :
    (groupContract lag request.vdisk.groupId).Stable
      (Storage.Only lag request accepted seen) := by
  intro s s' h hrely
  refine ⟨hrely.timely h.timely, h.past.trans hrely.now, ?_⟩
  intro request' operation hgroup hactive hack
  obtain ⟨before, hbefore, hback, hsince, hvisible⟩ :=
    hrely.active request' operation hgroup hactive hack
  obtain ⟨heq, hle, hseen⟩ := h.only request' before hgroup hbefore hback
  exact ⟨heq, hsince ▸ hle, fun h => hvisible (hseen h)⟩

/-- The page was made at `made`, and the operation did not show then. -/
def Storage.PageMade
    (lag : ℚ) (request : Request) (accepted made : ℚ) (s : Storage) : Prop :=
  s.polled request.vdisk = some made ∧
    ∀ operation, s.active request = some operation → operation.acknowledged = true →
      made ≤ accepted + lag

theorem stable_pageMade (lag : ℚ) (request : Request) (accepted made : ℚ) :
    (groupContract lag request.vdisk.groupId).Stable
      (Storage.PageMade lag request accepted made) := by
  intro s s' h hrely
  refine ⟨(hrely.polled _ rfl).trans h.1, ?_⟩
  intro operation hactive hack
  obtain ⟨before, hbefore, hback, -, -⟩ := hrely.active request operation rfl hactive hack
  exact h.2 before hbefore hback

/-- What a program of the group needs of an operation of its own: the others are
left alone. -/
theorem guarantee_of_answer
    {op : StorageOp} {r : Except Str (storageSignature.Answer op)}
    (hlag : 0 ≤ lag)
    (hop : ∀ v, op.vdisk = some v → v.groupId = groupId)
    (h : StorageAnswer (Storage.Shows py) latency s op r s') :
    (groupContract lag groupId).guarantee s s' := by
  intro other hother
  refine rely_of_answer hlag (fun v hv heq => hother ?_) h
  rw [← heq, hop v hv]

/-- The postcondition of a program of the group: it leaves no operation behind. -/
def LeavesIdle {α : Type} (lag : ℚ) (groupId : Int) : Except Str α → Storage → Prop :=
  fun _ s => s.Idle lag groupId

/-- A program of a group keeps the operations of the group apart and leaves none. -/
abbrev KeepsApart {α : Type} (py : Interpreter) (lag latency : ℚ) (groupId : Int)
    (p : StorageProgram α) (s : Storage) : Prop :=
  Keeps (StorageAnswer (Storage.Shows py) latency) (groupContract lag groupId)
    (Storage.Apart groupId) (LeavesIdle lag groupId) p s

theorem keepsApart_ended
    {α : Type} (r : Except Str α)
    (h : s.Idle lag groupId) :
    KeepsApart py lag latency groupId (Program.ofExcept r) s :=
  Keeps.ended (stable_idle lag groupId) h (fun _ h => h.apart) fun _ h => h

/-- An operation that changes no operation of the storage. -/
theorem keepsApart_aside
    {α : Type} {A : Storage → Prop} (op : StorageOp)
    {next : Except Str (storageSignature.Answer op) → StorageProgram α}
    (hlag : 0 ≤ lag)
    (hop : ∀ v, op.vdisk = some v → v.groupId = groupId)
    (hstable : (groupContract lag groupId).Stable A) (hA : A s)
    (hapart : ∀ s, A s → s.Apart groupId)
    (hnext : ∀ s r s', A s → StorageAnswer (Storage.Shows py) latency s op r s' →
      KeepsApart py lag latency groupId (next r) s') :
    KeepsApart py lag latency groupId (.call op next) s :=
  Keeps.call hstable hA hapart fun s r s' h henv =>
    ⟨guarantee_of_answer hlag hop henv, hnext s r s' h henv⟩

theorem keepsApart_sleep
    {α : Type} {A : Storage → Prop} {f : Unit → StorageProgram α}
    (hlag : 0 ≤ lag) (delay : ℚ)
    (hstable : (groupContract lag groupId).Stable A) (hA : A s)
    (hapart : ∀ s, A s → s.Apart groupId)
    (hf : ∀ s, A s → KeepsApart py lag latency groupId (f ()) s) :
    KeepsApart py lag latency groupId ((sleep delay).bind f) s := by
  refine keepsApart_aside (.sleep delay) hlag (fun v hv => by cases hv) hstable hA
    hapart ?_
  intro s r s' hs henv
  cases henv
  exact hf s hs

theorem keepsApart_time
    {α : Type} {A : Storage → Prop} {f : ℚ → StorageProgram α} {v : VDisk}
    (hlag : 0 ≤ lag) (hv : v.groupId = groupId)
    (hstable : (groupContract lag groupId).Stable A) (hA : A s)
    (hapart : ∀ s, A s → s.Apart groupId)
    (hf : ∀ s, A s → (∀ made, s.polled v = some made → s.now ≤ made + latency) →
      KeepsApart py lag latency groupId (f s.now) s) :
    KeepsApart py lag latency groupId ((time v).bind f) s := by
  refine keepsApart_aside (.clock v) hlag
    (fun w hw => by cases hw; exact hv) hstable hA hapart ?_
  intro s r s' hs henv
  cases henv with
  | clock _ _ hlatency => exact hf s hs hlatency

/-- A page is fetched at some moment, or it is not. -/
theorem keepsApart_page
    {α : Type} {A : Storage → Prop} {f : Except Str Str → StorageProgram α}
    {v : VDisk} {dbname : DbName}
    (hlag : 0 ≤ lag) (hv : v.groupId = groupId)
    (hstable : (groupContract lag groupId).Stable A) (hA : A s)
    (hapart : ∀ s, A s → s.Apart groupId)
    (hfailed : ∀ s exc, A s → KeepsApart py lag latency groupId (f (.error exc)) s)
    (hf : ∀ s text, A s → s.Shows py v dbname text →
      KeepsApart py lag latency groupId (f (.ok text))
        { s with polled := Function.update s.polled v (some s.now) }) :
    KeepsApart py lag latency groupId ((fetchDbMainPage v dbname).attempt.bind f) s := by
  refine keepsApart_aside (.page v dbname) hlag
    (fun w hw => by cases hw; exact hv) hstable hA hapart ?_
  intro s r s' hs henv
  cases henv with
  | page _ _ _ text hshows => exact hf s text hs hshows
  | pageFailed _ _ _ exc => exact hfailed s exc hs

/-- The panel of the request on a page. -/
theorem panelState_of_shows
    {request : Request} {text : Str}
    (hpanel : request.panel = .defrag → request.dbname = .logoBlobs)
    (h : s.Shows py request.vdisk request.dbname text) :
    parsePanelState py request.panel text = s.panelState request := by
  obtain ⟨v, dbname, panel⟩ := request
  cases panel with
  | compaction => exact h.1
  | defrag => exact h.2 (hpanel rfl)

theorem panelState_inProgress_iff
    {request : Request} :
    s.panelState request = .inProgress ↔
      ∃ operation, s.active request = some operation ∧ operation.visible = true := by
  unfold Storage.panelState
  cases s.active request with
  | none => simp
  | some operation => cases hv : operation.visible <;> simp [hv]

theorem panelState_idle_iff
    {request : Request} :
    s.panelState request = .idle ↔
      ∀ operation, s.active request = some operation → operation.visible = false := by
  unfold Storage.panelState
  cases s.active request with
  | none => simp
  | some operation => cases hv : operation.visible <;> simp [hv]

theorem panelState_ne_unknown
    {request : Request} :
    s.panelState request ≠ .unknown := by
  unfold Storage.panelState
  cases s.active request with
  | none => simp
  | some operation => cases hv : operation.visible <;> simp [hv]

/-- The page of a VDisk was made now. -/
abbrev Storage.paged (s : Storage) (v : VDisk) : Storage :=
  { s with polled := Function.update s.polled v (some s.now) }

/-- A page that shows the operation. -/
theorem Storage.Only.seen
    {request : Request} {accepted : ℚ} {seen : Bool}
    (h : s.Only lag request accepted seen)
    (hpanel : s.panelState request = .inProgress) :
    (s.paged request.vdisk).Only lag request accepted true := by
  obtain ⟨shown, hshown, hvisible⟩ := panelState_inProgress_iff.mp hpanel
  refine ⟨h.timely, h.past, ?_⟩
  intro request' operation hgroup hactive hack
  obtain ⟨rfl, hle, -⟩ := h.only request' operation hgroup hactive hack
  obtain rfl := Option.some.inj (hshown.symm.trans hactive)
  exact ⟨rfl, hle, fun _ => hvisible⟩

/-- A page that does not show an operation that was seen: it has ended. -/
theorem Storage.Only.idle
    {request : Request} {accepted : ℚ}
    (h : s.Only lag request accepted true)
    (hpanel : s.panelState request = .idle) :
    (s.paged request.vdisk).Idle lag request.vdisk.groupId := by
  refine ⟨h.timely, ?_⟩
  intro request' operation hgroup hactive
  cases hack : operation.acknowledged with
  | false => rfl
  | true =>
      obtain ⟨rfl, -, hseen⟩ := h.only request' operation hgroup hactive hack
      have hvisible := hseen rfl
      rw [panelState_idle_iff.mp hpanel operation hactive] at hvisible
      cases hvisible

/-- A page that does not show the operation: if it has not ended, then the page was
made early. -/
theorem Storage.Only.pageMade
    {request : Request} {accepted : ℚ} {seen : Bool}
    (h : s.Only lag request accepted seen)
    (hpanel : s.panelState request = .idle) :
    (s.paged request.vdisk).PageMade lag request accepted s.now := by
  refine ⟨Function.update_self _ _ _, ?_⟩
  intro operation hactive hack
  have hle := (h.only request operation rfl hactive hack).2.1
  have htime := (h.timely request operation hactive).2 (panelState_idle_iff.mp hpanel _ hactive)
  exact htime.trans (by linarith)

/-- At the deadline the page is too late to have missed the operation. -/
theorem Storage.Only.idle_of_due
    {request : Request} {accepted made deadline : ℚ} {seen : Bool}
    (h : s.Only lag request accepted seen)
    (hmade : s.PageMade lag request accepted made)
    (hlatency : ∀ made, s.polled request.vdisk = some made → s.now ≤ made + latency)
    (hdeadline : accepted + lag + latency < deadline) (hdue : deadline ≤ s.now) :
    s.Idle lag request.vdisk.groupId := by
  refine ⟨h.timely, ?_⟩
  intro request' operation hgroup hactive
  cases hack : operation.acknowledged with
  | false => rfl
  | true =>
      obtain ⟨rfl, -, -⟩ := h.only request' operation hgroup hactive hack
      have hle := hmade.2 operation hactive hack
      have hread := hlatency made hmade.1
      linarith

/-- The loop waits until the operation has ended: a page that shows it is followed by
one that does not, or the deadline is so late that a page must have shown it. -/
theorem keepsApart_waitLoop
    (hlag : 0 ≤ lag)
    {request : Request} {accepted deadline : ℚ}
    (hpanel : request.panel = .defrag → request.dbname = .logoBlobs)
    (hdeadline : accepted + lag + latency < deadline)
    (pollInterval : ℚ) (polls : Nat) {seen : Bool}
    (h : s.Only lag request accepted seen) :
    KeepsApart py lag latency request.vdisk.groupId
      (waitLoop py request pollInterval deadline polls seen) s := by
  induction polls generalizing s seen with
  | zero =>
      refine keepsApart_aside .forever hlag (fun v hv => by cases hv) (stable_only _ _ _ _) h
        (fun _ h => h.apart) ?_
      intro s r s' _ henv
      cases henv
  | succ polls ih =>
      refine keepsApart_page hlag rfl (stable_only _ _ _ _) h (fun _ h => h.apart) ?_ ?_
      · intro s exc hs
        exact keepsApart_sleep hlag _ (stable_only _ _ _ _) hs (fun _ h => h.apart)
          fun s hs => ih hs
      · intro s text hs hshows
        simp only [panelState_of_shows hpanel hshows]
        cases hstate : s.panelState request with
        | unknown => exact absurd hstate panelState_ne_unknown
        | inProgress =>
            refine keepsApart_time hlag rfl (stable_only _ _ _ _) (hs.seen hstate)
              (fun _ h => h.apart) ?_
            intro s hs _
            exact keepsApart_sleep hlag _ (stable_only _ _ _ _) hs (fun _ h => h.apart)
              fun s hs => ih hs
        | idle =>
            simp only
            split_ifs with hsaw
            · subst hsaw
              exact keepsApart_ended (.ok PanelState.idle) (hs.idle hstate)
            · have hpaged : (s.paged request.vdisk).Only lag request accepted seen :=
                ⟨hs.timely, hs.past, hs.only⟩
              refine keepsApart_time hlag rfl ((stable_only _ _ _ _).and (stable_pageMade _ _ _ _))
                ⟨hpaged, hs.pageMade hstate⟩ (fun _ h => h.1.apart) ?_
              intro s' hs' hlatency
              split_ifs with hdue
              · exact keepsApart_ended (.ok PanelState.idle)
                  (hs'.1.idle_of_due hs'.2 hlatency hdeadline hdue)
              · rw [Bool.not_eq_true] at hsaw
                exact keepsApart_sleep hlag _ (stable_only _ _ _ _) (hsaw ▸ hs'.1)
                  (fun _ h => h.apart) fun s hs => ih hs

/-- Where none is under way, an operation that is accepted is the only one. -/
theorem Storage.Idle.accept
    (hlag : 0 ≤ lag) {request : Request}
    (answer : Except Str Nat) (h : s.Idle lag request.vdisk.groupId) :
    ((s.asked request answer).accept request true).Only lag request s.now false := by
  have htimely : (s.asked request answer).Timely lag := h.timely
  refine ⟨timely_accept hlag request true htimely, le_refl _, ?_⟩
  intro request' operation hgroup hactive hack
  rcases accept_active hactive with ⟨rfl, rfl⟩ | ⟨before, hbefore, hsince, hvisible, hacked⟩
  · exact ⟨rfl, le_refl _, fun h => by cases h⟩
  · rcases hacked hack with hacked | ⟨rfl, -⟩
    · rw [h.none request' before hgroup hbefore] at hacked
      cases hacked
    · refine ⟨rfl, ?_, fun h => by cases h⟩
      rw [hsince]
      exact (h.timely request' before hbefore).1

/-- What is accepted without an answer is not an operation of the tool. -/
theorem Storage.Idle.accept_others
    (hlag : 0 ≤ lag) (request : Request)
    (h : s.Idle lag groupId) :
    (s.accept request false).Idle lag groupId :=
  stable_idle lag groupId s _ h (rely_accept hlag s request false fun h => by cases h)

/-- Only where a start is accepted and answered, something is under way after it. -/
theorem keepsApart_start
    {α : Type} {f : Unit → StorageProgram α} {request : Request}
    (hlag : 0 ≤ lag)
    (h : s.Idle lag request.vdisk.groupId)
    (hf : ∀ s accepted, s.Only lag request accepted false →
      KeepsApart py lag latency request.vdisk.groupId (f ()) s) :
    KeepsApart py lag latency request.vdisk.groupId ((startVDiskAction request).bind f) s := by
  refine Keeps.call (S := storageSignature) (stable_idle _ _) h (fun _ h => h.apart) ?_
  intro s r s' hs henv
  refine ⟨guarantee_of_answer hlag (fun v hv => by cases hv; rfl) henv, ?_⟩
  have hasked : ∀ answer, (s.asked request answer).Idle lag request.vdisk.groupId :=
    fun _ => ⟨hs.timely, hs.none⟩
  cases henv with
  | accepted _ _ status hstatus =>
      change Keeps _ _ _ _ (((if 400 ≤ status then throw (startError status request)
        else pure () : StorageProgram Unit)).bind f) _
      rw [if_neg (Nat.not_le.mpr hstatus)]
      exact hf _ _ (hs.accept hlag _)
  | refused _ _ status hstatus =>
      change Keeps _ _ _ _ (((if 400 ≤ status then throw (startError status request)
        else pure () : StorageProgram Unit)).bind f) _
      rw [if_pos hstatus]
      exact keepsApart_ended (.error _) (hasked _)
  | refusedAccepted _ _ status hstatus =>
      change Keeps _ _ _ _ (((if 400 ≤ status then throw (startError status request)
        else pure () : StorageProgram Unit)).bind f) _
      rw [if_pos hstatus]
      exact keepsApart_ended (.error _) ((hasked _).accept_others hlag request)
  | lost _ _ exc => exact keepsApart_ended (.error exc) (hasked _)
  | lostAccepted _ _ exc =>
      exact keepsApart_ended (.error exc) ((hasked _).accept_others hlag request)

theorem keepsApart_waitForIdle
    {request : Request} {pollInterval accepted : ℚ}
    (hlag : 0 ≤ lag) (hsum : lag + latency < max pollInterval 5)
    (hpanel : request.panel = .defrag → request.dbname = .logoBlobs)
    (polls : Nat)
    (h : s.Only lag request accepted false) :
    KeepsApart py lag latency request.vdisk.groupId
      (waitForIdle py request pollInterval polls) s := by
  refine keepsApart_time hlag rfl (stable_only _ _ _ _) h (fun _ h => h.apart) ?_
  intro s hs _
  refine keepsApart_waitLoop hlag hpanel ?_ pollInterval polls hs
  have hpast := hs.past
  linarith

/-- Programs that leave no operation behind, one after the other. -/
theorem keepsApart_bind
    {α β : Type} {p : StorageProgram α} {f : α → StorageProgram β}
    (hp : KeepsApart py lag latency groupId p s)
    (hf : ∀ a s, s.Idle lag groupId → KeepsApart py lag latency groupId (f a) s) :
    KeepsApart py lag latency groupId (p.bind f) s := by
  refine Keeps.bind (hp.weaken ?_)
  intro r s _ hs
  cases r with
  | ok a => exact hf a s hs
  | error e =>
      have hended : KeepsApart py lag latency groupId (.raise e : StorageProgram β) s :=
        keepsApart_ended (.error e) hs
      exact hended

theorem keepsApart_markDone
    {α : Type} {f : Unit → StorageProgram α} {v : VDisk} {ok : Bool}
    (hlag : 0 ≤ lag) (hv : v.groupId = groupId)
    (h : s.Idle lag groupId)
    (hf : ∀ s, s.Idle lag groupId → KeepsApart py lag latency groupId (f ()) s) :
    KeepsApart py lag latency groupId ((markDone v ok).bind f) s := by
  refine keepsApart_aside (.markDone v ok) hlag
    (fun w hw => by cases hw; exact hv) (stable_idle _ _) h (fun _ h => h.apart) ?_
  intro s r s' hs henv
  cases henv
  exact hf _ ⟨hs.timely, hs.none⟩

/-! The functions of the script, from one operation to a group. -/

variable {settings : Settings} {polls : Nat}

theorem keepsApart_processRequest
    (request : Request)
    (hlag : 0 ≤ lag) (hsum : lag + latency < max settings.pollInterval 5)
    (hwait : settings.wait = true)
    (hpanel : request.panel = .defrag → request.dbname = .logoBlobs)
    (h : s.Idle lag request.vdisk.groupId) :
    KeepsApart py lag latency request.vdisk.groupId
      (processRequest py settings polls request) s := by
  unfold processRequest
  split_ifs
  · exact keepsApart_ended (.ok ()) h
  · refine keepsApart_start hlag h ?_
    intro s accepted hs
    exact keepsApart_bind (keepsApart_waitForIdle hlag hsum hpanel polls hs)
      fun _ s hs => keepsApart_ended (.ok ()) hs

theorem keepsApart_processVDisk
    {v : VDisk}
    (hlag : 0 ≤ lag) (hsum : lag + latency < max settings.pollInterval 5)
    (hwait : settings.wait = true)
    (h : s.Idle lag v.groupId) :
    KeepsApart py lag latency v.groupId (processVDisk py settings polls v) s := by
  unfold processVDisk
  split_ifs
  · exact keepsApart_processRequest ⟨v, .logoBlobs, .defrag⟩ hlag hsum hwait (fun _ => rfl) h
  · generalize settings.dbnames = dbnames
    induction dbnames generalizing s with
    | nil => exact keepsApart_ended (.ok ()) h
    | cons dbname dbnames ih =>
        exact keepsApart_bind
          (keepsApart_processRequest ⟨v, dbname, .compaction⟩ hlag hsum hwait
            (fun hdefrag => by cases hdefrag) h)
          fun _ s hs => ih hs

theorem keepsApart_processMember
    {v : VDisk}
    (hlag : 0 ≤ lag) (hsum : lag + latency < max settings.pollInterval 5)
    (hwait : settings.wait = true)
    (h : s.Idle lag v.groupId) :
    KeepsApart py lag latency v.groupId (processMember py settings polls v) s := by
  have hbody : KeepsApart py lag latency v.groupId
      ((processVDisk py settings polls v).bind fun _ =>
        (markDone v true).bind fun _ => (.pure [] : StorageProgram (List Str))) s :=
    keepsApart_bind (keepsApart_processVDisk hlag hsum hwait h) fun _ s hs =>
      keepsApart_markDone hlag rfl hs fun s hs => keepsApart_ended (.ok []) hs
  refine Keeps.tryCatch (hbody.weaken ?_)
  intro r s _ hs
  cases r with
  | ok errors =>
      have hended : KeepsApart py lag latency v.groupId (.pure errors) s :=
        keepsApart_ended (.ok errors) hs
      exact hended
  | error exc =>
      have hmark : KeepsApart py lag latency v.groupId
          ((markDone v false).bind fun _ => .pure [errorMessage v exc]) s :=
        keepsApart_markDone hlag rfl hs fun s hs => keepsApart_ended (.ok _) hs
      exact hmark

theorem keepsApart_processGroup
    {vdisks : List VDisk}
    (hlag : 0 ≤ lag) (hsum : lag + latency < max settings.pollInterval 5)
    (hwait : settings.wait = true)
    (hgroup : ∀ v ∈ vdisks, v.groupId = groupId)
    (h : s.Idle lag groupId) :
    KeepsApart py lag latency groupId (processGroup py settings polls vdisks) s := by
  induction vdisks generalizing s with
  | nil => exact keepsApart_ended (.ok []) h
  | cons v vdisks ih =>
      obtain ⟨rfl, hgroup⟩ := List.forall_mem_cons.mp hgroup
      refine keepsApart_bind (keepsApart_processMember hlag hsum hwait h) fun errors s hs => ?_
      exact keepsApart_bind (ih hgroup hs) fun more s hs => keepsApart_ended (.ok _) hs

end Thread

/-! ## The pool -/

section Operations

variable {py : Interpreter} {settings : Settings} {polls threads : Nat} {vdisks : List VDisk}
variable {lag latency : ℚ} {s : Storage}
variable {pool : Pool Int storageSignature Str (List Str) Storage}

theorem groupPrograms_keys
    (py : Interpreter) (settings : Settings) (polls : Nat) {vdisks : List VDisk} :
    (groupPrograms py settings polls vdisks).map Prod.fst = (groupTasks vdisks).map Task.key := by
  unfold groupPrograms
  rw [List.map_map]
  rfl

theorem idle_of_untouched
    (hs : s.Untouched) (htimely : s.Timely lag) (groupId : Int) :
    s.Idle lag groupId :=
  ⟨htimely, fun request operation _ hactive => hs.1 request operation hactive⟩

/-- Every group keeps its operations apart in the pool. -/
theorem keepsApart_of_operating
    (hlag : 0 ≤ lag) (hsum : lag + latency < max settings.pollInterval 5)
    (hwait : settings.wait = true)
    (hs : s.Untouched) (htimely : s.Timely lag)
    (hrun : Operating py settings polls threads vdisks (Storage.Shows py) lag latency s pool) :
    ∀ job ∈ pool.jobs, KeepsApart py lag latency job.1 job.2.rest pool.world := by
  refine Pool.keeps_of_reachable (c := groupContract lag) ?_ ?_ ?_ ?_ hrun
  · rw [groupPrograms_keys py settings polls]
    exact nodup_groupTasks vdisks
  · intro k k' hne s s' hguarantee
    exact hguarantee k hne
  · intro k _ s s' hdrift
    exact rely_of_drift hlag hdrift
  · intro program hprogram
    obtain ⟨task, htask, rfl⟩ := List.mem_map.mp hprogram
    exact keepsApart_processGroup hlag hsum hwait ((wellFormed_groupTasks vdisks).keyed task htask)
      (idle_of_untouched hs htimely task.key)

/-- A group without a thread stays idle. -/
theorem idle_of_operating
    (hlag : 0 ≤ lag) (hsum : lag + latency < max settings.pollInterval 5)
    (hwait : settings.wait = true)
    (hs : s.Untouched) (htimely : s.Timely lag)
    (hrun : Operating py settings polls threads vdisks (Storage.Shows py) lag latency s pool)
    {groupId : Int} (hgroup : groupId ∉ (groupTasks vdisks).map Task.key) :
    pool.world.Idle lag groupId := by
  have hrelies := Pool.relates_of_reachable (R := GroupRely lag groupId)
    (fun pool hpool => keepsApart_of_operating hlag hsum hwait hs htimely hpool)
    (fun k hk s s' hguarantee => hguarantee groupId fun heq => by
      rw [groupPrograms_keys py settings polls, ← heq] at hk
      exact hgroup hk)
    (fun s s' hdrift => rely_of_drift hlag hdrift) hrun
  exact (stable_idle lag groupId).of_rely (idle_of_untouched hs htimely groupId) hrelies

/-- A storage in which nothing goes on. -/
def restingStorage : Storage where
  now := 0
  active := fun _ => none
  starts := []
  polled := fun _ => none
  done := 0
  errors := 0

/-- Compaction of LogoBlobs. -/
def compactLogoBlobs (wait : Bool) : Settings where
  dbnames := [.logoBlobs]
  wait := wait
  pollInterval := 5
  dryRun := false
  doDefrag := false

/-- The first request for `vdiskAt`. -/
def requestAt (groupId failDomain : Int) : Request :=
  ⟨vdiskAt groupId failDomain, .logoBlobs, .compaction⟩

theorem groupPrograms_twoGroups
    (py : Interpreter) (settings : Settings) (polls : Nat) :
    groupPrograms py settings polls twoGroups =
      [(171, processGroup py settings polls [vdiskAt 171 1, vdiskAt 171 3]),
        (172, processGroup py settings polls [vdiskAt 172 0])] := by
  rw [groupPrograms, groupTasks_twoGroups]
  rfl

/-- Both groups have a thread. -/
theorem operating_taken
    (py : Interpreter) (settings : Settings) (polls : Nat)
    (pages : Storage → VDisk → DbName → Str → Prop) (lag latency : ℚ) (s : Storage) :
    Operating py settings polls 2 twoGroups pages lag latency s
      { world := s
        jobs :=
          [(171, .running (processGroup py settings polls [vdiskAt 171 1, vdiskAt 171 3])),
            (172, .running (processGroup py settings polls [vdiskAt 172 0]))]
        results := [] } := by
  unfold Operating Pool.Reachable poolSize
  rw [groupPrograms_twoGroups, groupTasks_twoGroups]
  refine .head (PoolStep.take _ [] [_] 171 _ rfl (by simp) Nat.zero_lt_two) ?_
  exact .single (PoolStep.take _ [_] [] 172 _ rfl (by simp [Job.waiting]) Nat.one_lt_two)

/-- Two threads, after the first start of each group was accepted. -/
theorem operating_started :
    ∃ pool, Operating asciiInterpreter (compactLogoBlobs true) 10 2 twoGroups
        (Storage.Shows asciiInterpreter) 1 1 restingStorage pool ∧
      pool.world =
        (((restingStorage.asked (requestAt 171 1) (.ok 200)).accept (requestAt 171 1) true).asked
          (requestAt 172 0) (.ok 200)).accept (requestAt 172 0) true := by
  have htaken := operating_taken asciiInterpreter (compactLogoBlobs true) 10
    (Storage.Shows asciiInterpreter) 1 1 restingStorage
  have hfirst := htaken.tail (.operation _ [] [_] 171 (StorageOp.start (requestAt 171 1)) _ _ _ rfl
    (.accepted _ (requestAt 171 1) 200 (by decide)))
  exact ⟨_, hfirst.tail (.operation _ [_] [] 172 (StorageOp.start (requestAt 172 0)) _ _ _ rfl
    (.accepted _ (requestAt 172 0) 200 (by decide))), rfl⟩

end Operations

end VDisks
end YdbSnippets
