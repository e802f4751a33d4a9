import YdbSnippets.Python.Patterns
import YdbSnippets.Text.Search
import Mathlib.Tactic.SplitIfs

/-!
# Waiting for a VDisk

`vdisk_compact.py`: what a status page says of the compaction or of the defrag
of a VDisk, and the loop that polls the page until the operation is over.
-/

namespace YdbSnippets
namespace VDisks

open Python Text

section Panels

/-- The two panels of the status page. -/
inductive Panel
  | compaction
  | defrag
deriving DecidableEq, Repr

/-- What `parse_panel_state` returns: `In progress`, the idle label, or
`Unknown`. -/
inductive PanelState
  | inProgress
  | idle
  | unknown
deriving DecidableEq, Repr

def inProgressLiteral : Str := "In progress".toList

/-- `idle_literal` -/
def Panel.idleLiteral : Panel → Str
  | compaction => "No compaction".toList
  | defrag => "No defrag".toList

/-- `</div>\s*</div>\s*\Z` -/
def closesPage (text : Str) : Bool :=
  match afterLiteral "</div>".toList text with
  | none => false
  | some rest =>
      match afterLiteral "</div>".toList (skipSpaces rest) with
      | none => false
      | some rest => (skipSpaces rest).isEmpty

/-- The shortest text before the end of the page. -/
def beforePageEnd : Str → Str
  | [] => []
  | c :: text => if closesPage (c :: text) then [] else c :: beforePageEnd text

/-- The body of the panel: `RE_COMPACTION_PANEL` and `RE_DEFRAG_PANEL`. -/
def Panel.body : Panel → Str → Option Str
  | compaction, text =>
      (splitAtLiteral "Database Full Compaction".toList text).map fun parts =>
        match splitAtLiteral "Database Defrag".toList parts.2 with
        | some (body, _) => body
        | none => parts.2
  | defrag, text =>
      (splitAtLiteral "Database Defrag".toList text).map fun parts => beforePageEnd parts.2

/-- A label and `\s*<` after it: the label as the page spells it. -/
def labelAt (label text : Str) : Option Str :=
  match afterLiteral label text with
  | none => none
  | some rest =>
      if (skipSpaces rest).head? = some '<' then some (text.take label.length) else none

/-- `RE_COMPACTION_STATE` and `RE_DEFRAG_STATE`: the first label between tags. -/
def searchState (panel : Panel) : Str → Option Str
  | [] => none
  | c :: text =>
      let here :=
        if c = '>' then
          (labelAt inProgressLiteral (skipSpaces text)).or
            (labelAt panel.idleLiteral (skipSpaces text))
        else none
      here.or (searchState panel text)

/-- `parse_compaction_state` and `parse_defrag_state` -/
def parsePanelState (py : Interpreter) (panel : Panel) (text : Str) : PanelState :=
  let chunk := (panel.body text).getD text
  match searchState panel chunk with
  | some value =>
      if py.lower value = py.lower inProgressLiteral then .inProgress else .idle
  | none =>
      if containsLiteral panel.idleLiteral chunk then .idle
      else if containsLiteral inProgressLiteral chunk then .inProgress
      else .unknown

example : parsePanelState asciiInterpreter .compaction
    "<h3>Database Full Compaction</h3><b> In Progress </b><h3>Database Defrag</h3>".toList =
      .inProgress := by
  rw [String.toList_ofList]
  decide +kernel

end Panels

section Loop

/-- A poll: the text of the page, or the text of the exception. -/
abbrev Poll := Except Str Str

variable {Time : Type} [Add Time] [Max Time] [OfNat Time 5] [LE Time] [DecidableLE Time]

/-- The loop of `wait_until_idle`: the state it returns and the number of polls
it made.  `reading` counts the readings of the clock so far; the loop is still
waiting when the polls are used up. -/
def waitFrom (state : Str → PanelState) (due : Nat → Bool) :
    Bool → Nat → List Poll → Option (PanelState × Nat)
  | _, _, [] => none
  | sawInProgress, reading, .error _ :: polls =>
      (waitFrom state due sawInProgress reading polls).map fun r => (r.1, r.2 + 1)
  | sawInProgress, reading, .ok page :: polls =>
      match state page with
      | .inProgress =>
          (waitFrom state due true (reading + 1) polls).map fun r => (r.1, r.2 + 1)
      | s =>
          if sawInProgress || due reading then some (s, 1)
          else (waitFrom state due false (reading + 1) polls).map fun r => (r.1, r.2 + 1)

/-- A reading of the clock is at or after `deadline_to_appear`. -/
def isDue (pollInterval : Time) (clock : Nat → Time) (reading : Nat) : Bool :=
  decide (clock 0 + max pollInterval 5 ≤ clock reading)

/-- `wait_until_idle` for a panel of a VDisk, with the readings of the clock. -/
def waitUntilIdle
    (py : Interpreter) (panel : Panel) (pollInterval : Time) (clock : Nat → Time)
    (polls : List Poll) : Option (PanelState × Nat) :=
  waitFrom (parsePanelState py panel) (isDue pollInterval clock) false 1 polls

end Loop

section Runs

variable {state : Str → PanelState} {due : Nat → Bool}

/-- The poll read a page with this state. -/
def Reports (state : Str → PanelState) (s : PanelState) (poll : Poll) : Prop :=
  ∃ page, poll = .ok page ∧ state page = s

/-- The number of polls that read a page. -/
def readable (polls : List Poll) : Nat :=
  polls.countP fun poll => match poll with
    | .ok _ => true
    | .error _ => false

/-- The poll failed or reported `In progress`. -/
def Unsettled (state : Str → PanelState) (poll : Poll) : Prop :=
  ∀ page, poll = .ok page → state page = .inProgress

theorem waitFrom_pos
    {saw : Bool} {reading : Nat} {polls : List Poll} {s : PanelState} {used : Nat}
    (h : waitFrom state due saw reading polls = some (s, used)) :
    0 < used := by
  cases polls with
  | nil => cases h
  | cons poll polls =>
      cases poll with
      | error exc =>
          obtain ⟨r, -, heq⟩ := Option.map_eq_some_iff.mp h
          cases heq
          omega
      | ok page =>
          unfold waitFrom at h
          split at h
          · obtain ⟨r, -, heq⟩ := Option.map_eq_some_iff.mp h
            cases heq
            omega
          · split at h
            · cases h
              omega
            · obtain ⟨r, -, heq⟩ := Option.map_eq_some_iff.mp h
              cases heq
              omega

/-- Once an operation was seen, a poll that settles nothing is passed over. -/
theorem waitFrom_unsettled
    (due : Nat → Bool) {poll : Poll} (reading : Nat) (polls : List Poll)
    (h : Unsettled state poll) :
    ∃ reading', waitFrom state due true reading (poll :: polls) =
      (waitFrom state due true reading' polls).map fun r => (r.1, r.2 + 1) := by
  cases poll with
  | error exc => exact ⟨reading, rfl⟩
  | ok page =>
      refine ⟨reading + 1, ?_⟩
      rw [waitFrom, h page rfl]

/-- Once an operation was seen, a page that says anything but `In progress` ends
the loop. -/
theorem waitFrom_settled
    {page : Str} (reading : Nat) (polls : List Poll)
    (h : state page ≠ .inProgress) :
    waitFrom state due true reading (.ok page :: polls) = some (state page, 1) := by
  unfold waitFrom
  cases hs : state page with
  | inProgress => exact absurd hs h
  | idle => rfl
  | unknown => rfl

/-- Once an operation was seen, the loop returns the first page that says
anything but `In progress`. -/
theorem waitFrom_true_iff
    {reading : Nat} {polls : List Poll} {s : PanelState} {used : Nat} :
    waitFrom state due true reading polls = some (s, used) ↔
      ∃ during page after, polls = during ++ .ok page :: after ∧
        (∀ poll ∈ during, Unsettled state poll) ∧ state page = s ∧ s ≠ .inProgress ∧
        used = during.length + 1 := by
  constructor
  · intro h
    induction polls generalizing reading used with
    | nil => cases h
    | cons poll polls ih =>
        by_cases hunsettled : Unsettled state poll
        · obtain ⟨reading', hstep⟩ := waitFrom_unsettled due reading polls hunsettled
          rw [hstep] at h
          obtain ⟨⟨s', used'⟩, hrest, heq⟩ := Option.map_eq_some_iff.mp h
          cases heq
          obtain ⟨during, page, after, rfl, hduring, hpage, hs, rfl⟩ := ih hrest
          refine ⟨poll :: during, page, after, rfl, ?_, hpage, hs, rfl⟩
          exact List.forall_mem_cons.mpr ⟨hunsettled, hduring⟩
        · unfold Unsettled at hunsettled
          push Not at hunsettled
          obtain ⟨page, rfl, hpage⟩ := hunsettled
          rw [waitFrom_settled reading polls hpage] at h
          cases h
          exact ⟨[], page, polls, rfl, by simp, rfl, hpage, rfl⟩
  · rintro ⟨during, page, after, rfl, hduring, hpage, hs, rfl⟩
    induction during generalizing reading with
    | nil =>
        rw [List.nil_append, waitFrom_settled reading after (hpage ▸ hs), hpage]
        rfl
    | cons poll during ih =>
        obtain ⟨hpoll, hrest⟩ := List.forall_mem_cons.mp hduring
        obtain ⟨reading', hstep⟩ :=
          waitFrom_unsettled due reading (during ++ .ok page :: after) hpoll
        rw [List.cons_append, hstep, ih hrest]
        rfl

/-- Nothing in these polls ends the loop before an operation was seen. -/
structure Quiet
    (state : Str → PanelState) (due : Nat → Bool) (reading : Nat) (polls : List Poll) :
    Prop where
  noProgress : ∀ poll ∈ polls, ¬ Reports state .inProgress poll
  notDue : ∀ k < readable polls, due (reading + k) = false

theorem quiet_nil (reading : Nat) : Quiet state due reading [] :=
  ⟨nofun, nofun⟩

/-- A failed poll is passed over. -/
theorem quiet_error_iff
    {reading : Nat} {exc : Str} {polls : List Poll} :
    Quiet state due reading (.error exc :: polls) ↔ Quiet state due reading polls := by
  constructor
  · intro h
    exact ⟨fun poll hpoll => h.noProgress poll (List.mem_cons_of_mem _ hpoll), h.notDue⟩
  · intro h
    refine ⟨List.forall_mem_cons.mpr ⟨?_, h.noProgress⟩, h.notDue⟩
    rintro ⟨page, hpage, -⟩
    cases hpage

/-- A page without progress is passed over before the deadline. -/
theorem quiet_ok_iff
    {reading : Nat} {page : Str} {polls : List Poll} :
    Quiet state due reading (.ok page :: polls) ↔
      state page ≠ .inProgress ∧ due reading = false ∧
        Quiet state due (reading + 1) polls := by
  have hreadable : readable (.ok page :: polls) = readable polls + 1 := by
    simp [readable]
  constructor
  · intro h
    refine ⟨?_, ?_, ?_, ?_⟩
    · intro hpage
      exact h.noProgress _ List.mem_cons_self ⟨page, rfl, hpage⟩
    · exact h.notDue 0 (by omega)
    · exact fun poll hpoll => h.noProgress poll (List.mem_cons_of_mem _ hpoll)
    · intro k hk
      have hdue := h.notDue (k + 1) (by omega)
      rwa [show reading + (k + 1) = reading + 1 + k by omega] at hdue
  · rintro ⟨hpage, hdue, hrest⟩
    constructor
    · refine List.forall_mem_cons.mpr ⟨?_, hrest.noProgress⟩
      rintro ⟨page', heq, hprogress⟩
      cases heq
      exact hpage hprogress
    · intro k hk
      cases k with
      | zero => exact hdue
      | succ k =>
          have hdue' := hrest.notDue k (by omega)
          rwa [show reading + 1 + k = reading + (k + 1) by omega] at hdue'

/-- A page without progress that is not due is passed over. -/
theorem waitFrom_early
    {page : Str} {reading : Nat} (polls : List Poll)
    (hpage : state page ≠ .inProgress) (hdue : due reading = false) :
    waitFrom state due false reading (.ok page :: polls) =
      (waitFrom state due false (reading + 1) polls).map fun r => (r.1, r.2 + 1) := by
  rw [waitFrom]
  cases hs : state page with
  | inProgress => exact absurd hs hpage
  | idle => simp [hdue]
  | unknown => simp [hdue]

/-- Quiet polls are passed over. -/
theorem waitFrom_append
    (polls : List Poll) {reading : Nat} {before : List Poll}
    (h : Quiet state due reading before) :
    ∃ reading', waitFrom state due false reading (before ++ polls) =
      (waitFrom state due false reading' polls).map fun r => (r.1, r.2 + before.length) := by
  induction before generalizing reading with
  | nil =>
      refine ⟨reading, ?_⟩
      rw [List.nil_append]
      cases waitFrom state due false reading polls <;> rfl
  | cons poll before ih =>
      have hlater : ∀ {reading' : Nat}, Quiet state due reading' before →
          waitFrom state due false reading (poll :: (before ++ polls)) =
            (waitFrom state due false reading' (before ++ polls)).map
              (fun r => (r.1, r.2 + 1)) →
          ∃ reading', waitFrom state due false reading (poll :: before ++ polls) =
            (waitFrom state due false reading' polls).map
              fun r => (r.1, r.2 + (poll :: before).length) := by
        intro reading' hquiet hstep
        obtain ⟨final, hfinal⟩ := ih hquiet
        refine ⟨final, ?_⟩
        rw [List.cons_append, hstep, hfinal]
        cases waitFrom state due false final polls <;> rfl
      cases poll with
      | error exc => exact hlater (quiet_error_iff.mp h) rfl
      | ok page =>
          obtain ⟨hpage, hdue, hrest⟩ := quiet_ok_iff.mp h
          exact hlater hrest (waitFrom_early _ hpage hdue)

/-- A run that saw an operation before it returned: quiet polls, the page that
shows the operation, and then a wait for its end. -/
theorem waitFrom_split
    {reading : Nat} {polls : List Poll} {s : PanelState} {used : Nat}
    (h : waitFrom state due false reading polls = some (s, used))
    (hsaw : ∃ poll ∈ polls.take (used - 1), Reports state .inProgress poll) :
    ∃ before begun rest reading' used', polls = before ++ .ok begun :: rest ∧
      Quiet state due reading before ∧ state begun = .inProgress ∧
      waitFrom state due true reading' rest = some (s, used') ∧
      used = before.length + 1 + used' := by
  induction polls generalizing reading used with
  | nil => cases h
  | cons poll polls ih =>
      have hlater : ∀ {reading' : Nat}, ¬ Reports state .inProgress poll →
          (∀ before, Quiet state due reading' before →
            Quiet state due reading (poll :: before)) →
          (waitFrom state due false reading' polls).map (fun r => (r.1, r.2 + 1)) =
            some (s, used) →
          ∃ before begun rest reading' used', poll :: polls = before ++ .ok begun :: rest ∧
            Quiet state due reading before ∧ state begun = .inProgress ∧
            waitFrom state due true reading' rest = some (s, used') ∧
            used = before.length + 1 + used' := by
        intro reading' hpoll hquiet hmap
        obtain ⟨⟨s', used'⟩, hrest, heq⟩ := Option.map_eq_some_iff.mp hmap
        cases heq
        have hpos := waitFrom_pos hrest
        have hsaw' : ∃ poll ∈ polls.take (used' - 1), Reports state .inProgress poll := by
          obtain ⟨seen, hseen, hreports⟩ := hsaw
          rw [show used' + 1 - 1 = used' - 1 + 1 by omega, List.take_succ_cons] at hseen
          rcases List.mem_cons.mp hseen with rfl | hseen
          · exact absurd hreports hpoll
          · exact ⟨seen, hseen, hreports⟩
        obtain ⟨before, begun, rest, reading'', used'', rfl, hbefore, hbegun, hwait, rfl⟩ :=
          ih hrest hsaw'
        refine ⟨poll :: before, begun, rest, reading'', used'', rfl, hquiet _ hbefore, hbegun,
          hwait, ?_⟩
        rw [List.length_cons]
        omega
      cases poll with
      | error exc =>
          refine hlater ?_ (fun before hbefore => quiet_error_iff.mpr hbefore) h
          rintro ⟨page, hpage, -⟩
          cases hpage
      | ok page =>
          by_cases hpage : state page = .inProgress
          · rw [waitFrom, hpage] at h
            obtain ⟨⟨s', used'⟩, hrest, heq⟩ := Option.map_eq_some_iff.mp h
            cases heq
            refine ⟨[], page, polls, reading + 1, used', rfl, quiet_nil reading, hpage,
              hrest, ?_⟩
            rw [List.length_nil]
            omega
          · cases hdue : due reading with
            | false =>
                rw [waitFrom_early _ hpage hdue] at h
                refine hlater ?_ (fun before hbefore => quiet_ok_iff.mpr ⟨hpage, hdue, hbefore⟩) h
                rintro ⟨page', heq, hprogress⟩
                cases heq
                exact hpage hprogress
            | true =>
                -- the loop returns on this poll, with no poll before it
                have hused : used = 1 := by
                  unfold waitFrom at h
                  cases hs : state page with
                  | inProgress => exact absurd hs hpage
                  | idle =>
                      simp only [hs, hdue, Bool.or_true, if_true, Option.some.injEq,
                        Prod.mk.injEq] at h
                      exact h.2.symm
                  | unknown =>
                      simp only [hs, hdue, Bool.or_true, if_true, Option.some.injEq,
                        Prod.mk.injEq] at h
                      exact h.2.symm
                obtain ⟨seen, hseen, -⟩ := hsaw
                rw [hused] at hseen
                cases hseen

/-- If the loop returns after a poll that reported `In progress`, then the poll
it returns on reported the idle label. -/
def EndsIdle
    (state : Str → PanelState) (result : Option (PanelState × Nat)) (polls : List Poll) :
    Prop :=
  ∀ s used, result = some (s, used) →
    (∃ poll ∈ polls.take (used - 1), Reports state .inProgress poll) →
    ∃ poll, polls[used - 1]? = some poll ∧ Reports state .idle poll

/-- The loop gets to see an operation, and the first readable page after it that
does not show the operation any more has neither label. -/
def BlankAfterProgress
    (state : Str → PanelState) (due : Nat → Bool) (polls : List Poll) : Prop :=
  ∃ before begun during page after,
    polls = before ++ .ok begun :: (during ++ .ok page :: after) ∧
      Quiet state due 1 before ∧ state begun = .inProgress ∧
      (∀ poll ∈ during, Unsettled state poll) ∧ state page = .unknown

/-- The loop ends on an idle page unless it meets a page without a label. -/
theorem endsIdle_iff
    (state : Str → PanelState) (due : Nat → Bool) (polls : List Poll) :
    EndsIdle state (waitFrom state due false 1 polls) polls ↔
      ¬ BlankAfterProgress state due polls := by
  constructor
  · rintro h ⟨before, begun, during, page, after, rfl, hquiet, hbegun, hduring, hpage⟩
    obtain ⟨reading, hskip⟩ :=
      waitFrom_append (.ok begun :: (during ++ .ok page :: after)) hquiet
    have hwait : waitFrom state due true (reading + 1) (during ++ .ok page :: after) =
        some (.unknown, during.length + 1) :=
      waitFrom_true_iff.mpr ⟨during, page, after, rfl, hduring, hpage, nofun, rfl⟩
    rw [waitFrom, hbegun] at hskip
    simp only [hwait, Option.map_some] at hskip
    have hidle := h _ _ hskip
    rw [show during.length + 1 + 1 + before.length - 1 =
      before.length + (during.length + 1) by omega] at hidle
    have hseen : .ok begun ∈ (before ++ .ok begun :: (during ++ .ok page :: after)).take
        (before.length + (during.length + 1)) := by
      refine List.mem_of_getElem? (i := before.length) ?_
      rw [List.getElem?_take_of_lt (by omega), List.getElem?_append_right (le_refl _),
        Nat.sub_self]
      rfl
    obtain ⟨poll, hget, hreports⟩ := hidle ⟨.ok begun, hseen, begun, rfl, hbegun⟩
    obtain ⟨page', rfl, hpage'⟩ := hreports
    rw [List.getElem?_append_right (by omega), Nat.add_sub_cancel_left,
      List.getElem?_cons_succ, List.getElem?_append_right (by omega), Nat.sub_self,
      List.getElem?_cons_zero] at hget
    cases hget
    rw [hpage] at hpage'
    cases hpage'
  · intro h s used hwait hsaw
    obtain ⟨before, begun, rest, reading, used', rfl, hquiet, hbegun, hrest, rfl⟩ :=
      waitFrom_split hwait hsaw
    obtain ⟨during, page, after, rfl, hduring, hpage, hs, rfl⟩ := waitFrom_true_iff.mp hrest
    refine ⟨.ok page, ?_, page, rfl, ?_⟩
    · rw [show before.length + 1 + (during.length + 1) - 1 =
        before.length + (during.length + 1) by omega,
        List.getElem?_append_right (by omega), Nat.add_sub_cancel_left,
        List.getElem?_cons_succ, List.getElem?_append_right (by omega), Nat.sub_self]
      rfl
    · cases hstate : state page with
      | inProgress => exact absurd (hpage.symm.trans hstate) hs
      | idle => rfl
      | unknown =>
          exact absurd ⟨before, begun, during, page, after, rfl, hquiet, hbegun, hduring,
            hstate⟩ h

end Runs

section Results

variable {Time : Type} [Add Time] [Max Time] [OfNat Time 5] [LE Time] [DecidableLE Time]

/-- Waiting ends on the idle label, after an operation was seen, unless the first
readable page that no longer shows the operation has neither label. -/
theorem wait_until_idle_iff
    (py : Interpreter)
    (panel : Panel)
    (pollInterval : Time)
    (clock : Nat → Time)
    (polls : List Poll) :
    EndsIdle (parsePanelState py panel)
        (waitUntilIdle py panel pollInterval clock polls) polls ↔
      ¬ BlankAfterProgress (parsePanelState py panel) (isDue pollInterval clock) polls :=
  endsIdle_iff _ _ polls

/-- A running compaction, then a page without the panel. -/
theorem blank_page_ends_wait :
    ¬ EndsIdle (parsePanelState asciiInterpreter .compaction)
        (waitUntilIdle asciiInterpreter .compaction (5 : Nat) (fun _ => 0)
          [.ok "<b>In progress</b>".toList, .ok "<html></html>".toList])
        [.ok "<b>In progress</b>".toList, .ok "<html></html>".toList] := by
  have hbegun : parsePanelState asciiInterpreter .compaction "<b>In progress</b>".toList =
      .inProgress := by
    rw [String.toList_ofList]
    decide +kernel
  have hpage : parsePanelState asciiInterpreter .compaction "<html></html>".toList =
      .unknown := by
    rw [String.toList_ofList]
    decide +kernel
  intro h
  refine (endsIdle_iff _ _ _).mp h ?_
  exact ⟨[], _, [], _, [], rfl, quiet_nil 1, hbegun, by simp, hpage⟩

end Results

end VDisks
end YdbSnippets
