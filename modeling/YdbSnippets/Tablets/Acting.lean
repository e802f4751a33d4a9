import YdbSnippets.Lists.Keyed
import YdbSnippets.Tablets.Actions

/-!
# What becomes of the selected tablets

A thread sends requests for its own tablet only, at least one and at most as many
as there are attempts, none after a success or a final error, and leaves one line
about it.  What the other threads and Hive do meanwhile is nothing to it but that its
own requests may be carried out late.
-/

namespace YdbSnippets
namespace Tablets

open Python Text Effects Firsts Keyed

section Rely

/-- The answers to the requests for a tablet, in their order. -/
def Hive.answersTo (s : Hive) (tabletId : Int) : List (Except Str HttpReply) :=
  (entriesOf tabletId s.posts).map Prod.snd

/-- How a tablet was counted. -/
def Hive.countedOf (s : Hive) (tabletId : Int) : List (Int × Bool) :=
  entriesOf tabletId s.counted

/-- What was printed about a tablet. -/
def Hive.printedOf (s : Hive) (tabletId : Int) : List (Int × Str) :=
  entriesOf tabletId s.printed

/-- What the thread of a tablet relies on. -/
structure TabletRely (action : Action) (tabletId : Int) (s s' : Hive) : Prop where
  posts : s'.answersTo tabletId = s.answersTo tabletId
  counted : s'.countedOf tabletId = s.countedOf tabletId
  printed : s'.printedOf tabletId = s.printedOf tabletId
  stopped : s'.stopped tabletId = s.stopped tabletId ∨
    (s.answersTo tabletId ≠ [] ∧ s'.stopped tabletId = action.stops)

theorem TabletRely.refl (action : Action) (tabletId : Int) (s : Hive) :
    TabletRely action tabletId s s :=
  ⟨rfl, rfl, rfl, Or.inl rfl⟩

/-- The contract of the thread of a tablet. -/
abbrev tabletContract (action : Action) (tabletId : Int) : Contract Hive :=
  Contract.among (TabletRely action) tabletId

variable {printer : Printer} {loads : Str → Option Json} {action : Action} {wait : Bool}
variable {tabletId : Int} {s s' : Hive}

/-- The tablet that an operation is about. -/
def HiveOp.tablet : HiveOp → Option Int
  | .post _ tabletId _ | .count tabletId _ | .print tabletId _ => some tabletId
  | .sleep _ => none

theorem answersTo_posted (s : Hive) (tabletId other : Int) (answer : Except Str HttpReply) :
    (s.posted other answer).answersTo tabletId =
      s.answersTo tabletId ++ if other = tabletId then [answer] else [] := by
  unfold Hive.answersTo Hive.posted
  rw [entriesOf_append, List.map_append]
  split_ifs with h
  · rw [h, entriesOf_self]
    rfl
  · rw [entriesOf_of_ne h]
    rfl

theorem rely_posted
    (action : Action) (s : Hive) (answer : Except Str HttpReply) {other : Int}
    (h : other ≠ tabletId) :
    TabletRely action tabletId s (s.posted other answer) := by
  refine ⟨?_, rfl, rfl, Or.inl rfl⟩
  rw [answersTo_posted, if_neg h, List.append_nil]

theorem rely_carry
    (action other : Action) (s : Hive) {otherId : Int}
    (h : otherId ≠ tabletId) :
    TabletRely action tabletId s (s.carry other otherId) :=
  ⟨rfl, rfl, rfl, Or.inl (Function.update_of_ne h.symm _ _)⟩

theorem TabletRely.trans_carry
    {other : Action} {otherId : Int}
    (h : TabletRely action tabletId s s') (hne : otherId ≠ tabletId) :
    TabletRely action tabletId s (s'.carry other otherId) := by
  have hsame : (s'.carry other otherId).stopped tabletId = s'.stopped tabletId :=
    Function.update_of_ne hne.symm _ _
  refine ⟨h.posts, h.counted, h.printed, ?_⟩
  rw [hsame]
  exact h.stopped

/-- An operation about one tablet is nothing to the threads of the others. -/
theorem rely_of_hiveAnswer
    {op : HiveOp} {r : Except Str (hiveSignature.Answer op)}
    (hop : ∀ t, op.tablet = some t → t ≠ tabletId)
    (h : HiveAnswer printer loads s op r s') :
    TabletRely action tabletId s s' := by
  cases h with
  | carried _ other t wait reply =>
      exact (rely_posted action s _ (hop t rfl)).trans_carry (hop t rfl)
  | ignored _ other t wait reply _ => exact rely_posted action s _ (hop t rfl)
  | lost _ other t wait exc => exact rely_posted action s _ (hop t rfl)
  | lostCarried _ other t wait exc =>
      exact (rely_posted action s _ (hop t rfl)).trans_carry (hop t rfl)
  | slept _ delay => exact TabletRely.refl action tabletId _
  | counted _ t ok =>
      refine ⟨rfl, ?_, rfl, Or.inl rfl⟩
      rw [Hive.countedOf, entriesOf_append, entriesOf_of_ne (hop t rfl), List.append_nil]
      rfl
  | printed _ t line =>
      refine ⟨rfl, rfl, ?_, Or.inl rfl⟩
      rw [Hive.printedOf, entriesOf_append, entriesOf_of_ne (hop t rfl), List.append_nil]
      rfl

theorem rely_of_hiveDrift
    {selected : List Int}
    (hselected : tabletId ∈ selected)
    (h : HiveDrift action selected s s') :
    TabletRely action tabletId s s' := by
  cases h with
  | late t hposted =>
      by_cases heq : t = tabletId
      · subst heq
        obtain ⟨entry, hentry, rfl⟩ := List.mem_map.mp hposted
        have hmem : entry.2 ∈ s.answersTo entry.1 :=
          List.mem_map_of_mem (mem_entriesOf.mpr ⟨hentry, rfl⟩)
        exact ⟨rfl, rfl, rfl, Or.inr ⟨List.ne_nil_of_mem hmem, Function.update_self _ _ _⟩⟩
      · exact rely_carry action action s heq
  | others t other hother =>
      refine rely_carry action other s ?_
      rintro rfl
      exact hother hselected

end Rely

/-! ## The thread of a tablet -/

section Thread

variable {py : Interpreter} {printer : Printer} {loads : Str → Option Json}
variable {action : Action} {wait : Bool} {tabletId : Int} {before s s' : Hive}

/-- These were the answers for the tablet; it is as it was or as the action leaves it,
and this much was counted and printed of it. -/
structure Asked
    (action : Action) (tabletId : Int) (before : Hive) (answers : List (Except Str HttpReply))
    (counted : List (Int × Bool)) (printed : List (Int × Str)) (s : Hive) : Prop where
  answers_eq : s.answersTo tabletId = answers
  counted_eq : s.countedOf tabletId = counted
  printed_eq : s.printedOf tabletId = printed
  stopped_or : s.stopped tabletId = before.stopped tabletId ∨
    (answers ≠ [] ∧ s.stopped tabletId = action.stops)

/-- The action was carried out. -/
def Hive.Carried (action : Action) (tabletId : Int) (s : Hive) : Prop :=
  s.stopped tabletId = action.stops

theorem stable_asked
    (action : Action) (tabletId : Int) (before : Hive) (answers : List (Except Str HttpReply))
    (counted : List (Int × Bool)) (printed : List (Int × Str)) :
    (tabletContract action tabletId).Stable
      (Asked action tabletId before answers counted printed) := by
  intro s s' h hrely
  refine ⟨hrely.posts.trans h.answers_eq, hrely.counted.trans h.counted_eq,
    hrely.printed.trans h.printed_eq, ?_⟩
  rcases hrely.stopped with hsame | ⟨hne, hstopped⟩
  · rw [hsame]
    exact h.stopped_or
  · rw [h.answers_eq] at hne
    exact Or.inr ⟨hne, hstopped⟩

theorem stable_carried (action : Action) (tabletId : Int) :
    (tabletContract action tabletId).Stable (Hive.Carried action tabletId) := by
  intro s s' h hrely
  rcases hrely.stopped with hsame | ⟨-, hstopped⟩
  · exact hsame.trans h
  · exact hstopped

theorem hive_guarantee
    {op : HiveOp} {r : Except Str (hiveSignature.Answer op)}
    (hop : ∀ t, op.tablet = some t → t = tabletId)
    (h : HiveAnswer printer loads s op r s') :
    (tabletContract action tabletId).guarantee s s' := by
  intro other hother
  refine rely_of_hiveAnswer (fun t ht heq => ?_) h
  exact hother (heq.symm.trans (hop t ht))

/-- What a success promises: the action was carried out, unless it was only accepted. -/
def Promised (action : Action) (tabletId : Int) (last : Bool × Str) (s : Hive) : Prop :=
  last.1 = true → last.2 ≠ acceptedResult → s.Carried action tabletId

theorem stable_promised (action : Action) (tabletId : Int) (last : Bool × Str) :
    (tabletContract action tabletId).Stable (Promised action tabletId last) :=
  fun s s' h hrely hok hresult => stable_carried action tabletId s s' (h hok hresult) hrely

variable {answers earlier : List (Except Str HttpReply)} {answer : Except Str HttpReply}
variable {counted : List (Int × Bool)} {printed : List (Int × Str)}

theorem Asked.post
    (h : Asked action tabletId before answers counted printed s)
    (answer : Except Str HttpReply) :
    Asked action tabletId before (answers ++ [answer]) counted printed
        (s.posted tabletId answer) ∧
      Asked action tabletId before (answers ++ [answer]) counted printed
        ((s.posted tabletId answer).carry action tabletId) ∧
      ((s.posted tabletId answer).carry action tabletId).Carried action tabletId := by
  have hanswers : (s.posted tabletId answer).answersTo tabletId = answers ++ [answer] := by
    rw [answersTo_posted, if_pos rfl, h.answers_eq]
  have hcarried : ((s.posted tabletId answer).carry action tabletId).stopped tabletId =
      action.stops := Function.update_self _ _ _
  have hne : answers ++ [answer] ≠ [] := List.append_ne_nil_of_right_ne_nil _ (List.cons_ne_nil _ _)
  exact ⟨⟨hanswers, h.counted_eq, h.printed_eq, h.stopped_or.imp_right fun h => ⟨hne, h.2⟩⟩,
    ⟨hanswers, h.counted_eq, h.printed_eq, Or.inr ⟨hne, hcarried⟩⟩, hcarried⟩

/-- A request is repeated after this answer: Hive did not say that the action was carried out or
taken, and the error is not final. -/
def Repeated
    (py : Interpreter) (printer : Printer) (loads : Str → Option Json) (action : Action)
    (answer : Except Str HttpReply) : Prop :=
  (∀ reply, answer = .ok reply →
    ¬ ReportsDone printer loads reply ∧ ¬ ReportsAccepted loads reply) ∧
    isFinalResult py (attemptResult printer loads action answer).2 = false

theorem repeated_iff :
    Repeated py printer loads action answer ↔
      (attemptResult printer loads action answer).1 = false ∧
        isFinalResult py (attemptResult printer loads action answer).2 = false := by
  unfold Repeated
  refine and_congr_left fun _ => ?_
  cases answer with
  | error exc => exact iff_of_true (fun _ h => by cases h) rfl
  | ok reply =>
      have hresult : attemptResult printer loads action (.ok reply) =
          parseHiveResponse printer loads action reply := rfl
      rw [hresult, ← Bool.not_eq_true, parseHiveResponse_ok_iff, not_or]
      exact ⟨fun h => h reply rfl, fun h reply' heq => by cases heq; exact h⟩

/-- At every moment the tablet was asked for at most this often, not again after a success or a
final error, and it is as it was or as the action leaves it. -/
structure Bounded
    (py : Interpreter) (printer : Printer) (loads : Str → Option Json) (action : Action)
    (tabletId : Int) (before : Hive) (attempts : Nat) (s : Hive) : Prop where
  le : (s.answersTo tabletId).length ≤ attempts
  repeated : ∀ answer ∈ (s.answersTo tabletId).dropLast, Repeated py printer loads action answer
  stopped_or : s.stopped tabletId = before.stopped tabletId ∨ s.stopped tabletId = action.stops

theorem Asked.bounded
    {attempts : Nat}
    (h : Asked action tabletId before answers counted printed s) (hle : answers.length ≤ attempts)
    (hrepeated : ∀ answer ∈ answers.dropLast, Repeated py printer loads action answer) :
    Bounded py printer loads action tabletId before attempts s := by
  refine ⟨?_, ?_, h.stopped_or.imp_right And.right⟩
  · rw [h.answers_eq]
    exact hle
  · rw [h.answers_eq]
    exact hrepeated

/-- What is known after the last attempt: the answers before the last one were none to stop at,
and it was one, or no attempt was left. -/
structure LastAttempt
    (py : Interpreter) (printer : Printer) (loads : Str → Option Json) (action : Action)
    (tabletId : Int) (before : Hive) (attempts : Nat) (earlier : List (Except Str HttpReply))
    (answer : Except Str HttpReply) (counted : List (Int × Bool)) (printed : List (Int × Str))
    (s : Hive) : Prop where
  asked : Asked action tabletId before (earlier ++ [answer]) counted printed s
  repeated : ∀ answer ∈ earlier, Repeated py printer loads action answer
  promised : Promised action tabletId (attemptResult printer loads action answer) s
  le : earlier.length + 1 ≤ attempts
  ended : earlier.length + 1 < attempts → ¬ Repeated py printer loads action answer

theorem LastAttempt.bounded
    {attempts : Nat}
    (h : LastAttempt py printer loads action tabletId before attempts earlier answer counted
      printed s) :
    Bounded py printer loads action tabletId before attempts s := by
  refine h.asked.bounded ?_ ?_
  · rw [List.length_append]
    exact h.le
  · rw [List.dropLast_concat]
    exact h.repeated

theorem stable_lastAttempt
    (py : Interpreter) (printer : Printer) (loads : Str → Option Json) (action : Action)
    (tabletId : Int) (before : Hive) (attempts : Nat) (earlier : List (Except Str HttpReply))
    (answer : Except Str HttpReply) (counted : List (Int × Bool)) (printed : List (Int × Str)) :
    (tabletContract action tabletId).Stable
      (LastAttempt py printer loads action tabletId before attempts earlier answer counted
        printed) :=
  fun s s' h hrely =>
    ⟨stable_asked action tabletId before _ counted printed s s' h.asked hrely, h.repeated,
      stable_promised action tabletId _ s s' h.promised hrely, h.le, h.ended⟩

/-- The attempts of one tablet. -/
theorem keeps_hiveAttempts
    (py : Interpreter) (printer : Printer) (loads : Str → Option Json) (wait : Bool)
    (attempts remaining : Nat)
    (hposts : answers.length + remaining = attempts) (hpos : 0 < remaining)
    (hrepeated : ∀ answer ∈ answers, Repeated py printer loads action answer)
    (h : Asked action tabletId before answers counted printed s) :
    Keeps (HiveAnswer printer loads) (tabletContract action tabletId)
      (Bounded py printer loads action tabletId before attempts)
      (fun r s => ∃ earlier answer, r = .ok (attemptResult printer loads action answer) ∧
        LastAttempt py printer loads action tabletId before attempts earlier answer counted
          printed s)
      (hiveAttempts py printer loads action wait tabletId attempts remaining) s := by
  induction remaining generalizing s answers with
  | zero => omega
  | succ remaining ih =>
      have hended : ∀ answer s,
          Asked action tabletId before (answers ++ [answer]) counted printed s →
          Promised action tabletId (attemptResult printer loads action answer) s →
          (answers.length + 1 < attempts → ¬ Repeated py printer loads action answer) →
          Keeps (HiveAnswer printer loads) (tabletContract action tabletId)
            (Bounded py printer loads action tabletId before attempts)
            (fun r s => ∃ earlier answer, r = .ok (attemptResult printer loads action answer) ∧
              LastAttempt py printer loads action tabletId before attempts earlier answer counted
                printed s)
            (.pure (attemptResult printer loads action answer)) s := by
        intro answer s hasked hpromised hover
        have hlast : LastAttempt py printer loads action tabletId before attempts answers answer
            counted printed s :=
          ⟨hasked, hrepeated, hpromised, by omega, hover⟩
        exact Keeps.ended (r := .ok _) (stable_lastAttempt _ _ _ _ _ _ _ _ _ _ _) hlast
          (fun s hs => hs.bounded) fun s hs => ⟨answers, answer, rfl, hs⟩
      -- what the loop does with the result of the attempt
      have hrest : ∀ answer s,
          Asked action tabletId before (answers ++ [answer]) counted printed s →
          Promised action tabletId (attemptResult printer loads action answer) s →
          Keeps (HiveAnswer printer loads) (tabletContract action tabletId)
            (Bounded py printer loads action tabletId before attempts)
            (fun r s => ∃ earlier answer, r = .ok (attemptResult printer loads action answer) ∧
              LastAttempt py printer loads action tabletId before attempts earlier answer counted
                printed s)
            (if (attemptResult printer loads action answer).1 = true then
                .pure (attemptResult printer loads action answer)
              else if isFinalResult py (attemptResult printer loads action answer).2 = true then
                .pure (attemptResult printer loads action answer)
              else if remaining = 0 then .pure (attemptResult printer loads action answer)
              else (@Program.perform hiveSignature _ (.sleep (attempts - remaining))).bind fun _ =>
                hiveAttempts py printer loads action wait tabletId attempts remaining) s := by
        intro answer s hasked hpromised
        split_ifs with hok hfinal hzero
        · refine hended answer s hasked hpromised fun _ hagain => ?_
          rw [(repeated_iff.mp hagain).1] at hok
          cases hok
        · refine hended answer s hasked hpromised fun _ hagain => ?_
          rw [(repeated_iff.mp hagain).2] at hfinal
          cases hfinal
        · exact hended answer s hasked hpromised fun hlt => by omega
        · have hagain : Repeated py printer loads action answer :=
            repeated_iff.mpr ⟨Bool.not_eq_true _ ▸ hok, Bool.not_eq_true _ ▸ hfinal⟩
          have hall : ∀ a ∈ answers ++ [answer], Repeated py printer loads action a := by
            intro a ha
            rcases List.mem_append.mp ha with ha | ha
            · exact hrepeated a ha
            · exact List.mem_singleton.mp ha ▸ hagain
          have hlength : (answers ++ [answer]).length + remaining = attempts := by
            rw [List.length_append, List.length_singleton]
            omega
          refine Keeps.call (S := hiveSignature) (stable_asked _ _ _ _ _ _) hasked
            (fun s hs => hs.bounded (by omega) fun a ha => hall a (List.mem_of_mem_dropLast ha)) ?_
          intro s r s' hs henv
          refine ⟨hive_guarantee (fun t ht => by cases ht) henv, ?_⟩
          cases henv
          exact ih hlength (by omega) hall hs
      refine Keeps.call (S := hiveSignature) (stable_asked _ _ _ _ _ _) h
        (fun s hs => hs.bounded (by omega) fun a ha =>
          hrepeated a (List.mem_of_mem_dropLast ha)) ?_
      intro s r s' hs henv
      refine ⟨hive_guarantee (fun t ht => by cases ht; rfl) henv, ?_⟩
      cases henv with
      | carried _ _ _ _ reply =>
          obtain ⟨-, hcarried, hdone⟩ := hs.post (.ok reply)
          exact hrest (.ok reply) _ hcarried fun _ _ => hdone
      | ignored _ _ _ _ reply hreply =>
          obtain ⟨hignored, -, -⟩ := hs.post (.ok reply)
          exact hrest (.ok reply) _ hignored fun hok hresult =>
            absurd (reportsDone_of_ok hok hresult) hreply
      | lost _ _ _ _ exc =>
          obtain ⟨hlost, -, -⟩ := hs.post (.error exc)
          exact hrest (.error exc) _ hlost fun hok => by cases hok
      | lostCarried _ _ _ _ exc =>
          obtain ⟨-, hcarried, -⟩ := hs.post (.error exc)
          exact hrest (.error exc) _ hcarried fun hok => by cases hok

/-- What a thread leaves of its target: it was counted once, one line was printed, and what
is reported as done was carried out. -/
def Processed
    (py : Interpreter) (printer : Printer) (loads : Str → Option Json) (action : Action)
    (before : Hive) (attempts : Nat) (target : Target) (r : Except Str Bool) (s : Hive) : Prop :=
  ∃ earlier answer, r = .ok (attemptResult printer loads action answer).1 ∧
    LastAttempt py printer loads action target.tabletId before attempts earlier answer
      [(target.tabletId, (attemptResult printer loads action answer).1)]
      [(target.tabletId, target.report (attemptResult printer loads action answer))] s

theorem keeps_processTarget
    (py : Interpreter) (printer : Printer) (loads : Str → Option Json) (wait : Bool)
    (attempts : Nat) (target : Target)
    (hattempts : 0 < attempts)
    (h : Asked action target.tabletId before [] [] [] s) :
    Keeps (HiveAnswer printer loads) (tabletContract action target.tabletId)
      (Bounded py printer loads action target.tabletId before attempts)
      (Processed py printer loads action before attempts target)
      (processTarget py printer loads action wait attempts target) s := by
  have hposts : ([] : List (Except Str HttpReply)).length + attempts = attempts :=
    Nat.zero_add attempts
  have hloop := keeps_hiveAttempts py printer loads wait attempts attempts hposts hattempts
    (fun _ h => by cases h) h
  refine Keeps.bind (hloop.weaken ?_)
  rintro r s - ⟨earlier, answer, rfl, hlast⟩
  -- the tablet is counted, then its line is printed
  refine Keeps.call (S := hiveSignature) (stable_lastAttempt _ _ _ _ _ _ _ _ _ _ _) hlast
    (fun s hs => hs.bounded) ?_
  intro s r s' hs henv
  refine ⟨hive_guarantee (fun t ht => by cases ht; rfl) henv, ?_⟩
  cases henv
  have hcounted : LastAttempt py printer loads action target.tabletId before attempts earlier
      answer [(target.tabletId, (attemptResult printer loads action answer).1)] []
      { s with counted := s.counted ++
          [(target.tabletId, (attemptResult printer loads action answer).1)] } := by
    refine ⟨⟨hs.asked.answers_eq, ?_, hs.asked.printed_eq, hs.asked.stopped_or⟩, hs.repeated,
      hs.promised, hs.le, hs.ended⟩
    have hbefore := hs.asked.counted_eq
    unfold Hive.countedOf at hbefore ⊢
    rw [entriesOf_append, hbefore, List.nil_append, entriesOf_self]
  refine Keeps.call (S := hiveSignature) (stable_lastAttempt _ _ _ _ _ _ _ _ _ _ _) hcounted
    (fun s hs => hs.bounded) ?_
  intro s r s' hs henv
  refine ⟨hive_guarantee (fun t ht => by cases ht; rfl) henv, ?_⟩
  cases henv
  have hprinted : LastAttempt py printer loads action target.tabletId before attempts earlier
      answer [(target.tabletId, (attemptResult printer loads action answer).1)]
      [(target.tabletId, target.report (attemptResult printer loads action answer))]
      { s with printed := s.printed ++
          [(target.tabletId, target.report (attemptResult printer loads action answer))] } := by
    refine ⟨⟨hs.asked.answers_eq, hs.asked.counted_eq, ?_, hs.asked.stopped_or⟩, hs.repeated,
      hs.promised, hs.le, hs.ended⟩
    have hbefore := hs.asked.printed_eq
    unfold Hive.printedOf at hbefore ⊢
    rw [entriesOf_append, hbefore, List.nil_append, entriesOf_self]
  exact Keeps.ended (r := .ok _) (stable_lastAttempt _ _ _ _ _ _ _ _ _ _ _) hprinted
    (fun s hs => hs.bounded) fun s hs => ⟨earlier, answer, rfl, hs⟩

end Thread

/-! ## The pool -/

section Pool

variable {py : Interpreter} {printer : Printer} {loads : Str → Option Json} {action : Action}
variable {wait : Bool} {attempts threads : Nat} {targets : List Target} {before : Hive}
variable {pool : Pool Int hiveSignature Str Bool Hive}

theorem targetPrograms_keys
    (py : Interpreter) (printer : Printer) (loads : Str → Option Json) (action : Action)
    (wait : Bool) (attempts : Nat) (targets : List Target) :
    (targetPrograms py printer loads action wait attempts targets).map Prod.fst =
      targets.map Target.tabletId := by
  unfold targetPrograms
  rw [List.map_map]
  rfl

/-- No request has come, and nothing was counted or printed. -/
def Hive.Fresh (s : Hive) : Prop :=
  s.posts = [] ∧ s.counted = [] ∧ s.printed = []

theorem asked_of_fresh
    (action : Action) (hfresh : before.Fresh) (tabletId : Int) :
    Asked action tabletId before [] [] [] before := by
  obtain ⟨hposts, hcounted, hprinted⟩ := hfresh
  refine ⟨?_, ?_, ?_, Or.inl rfl⟩
  · rw [Hive.answersTo, hposts]
    rfl
  · rw [Hive.countedOf, hcounted]
    rfl
  · rw [Hive.printedOf, hprinted]
    rfl

/-- In the pool every target is processed as it is alone. -/
theorem keeps_of_acting
    (hattempts : 0 < attempts) (hids : (targets.map Target.tabletId).Nodup)
    (hfresh : before.Fresh)
    (hrun : Acting py printer loads action wait attempts threads targets before pool) :
    ∀ job ∈ pool.jobs, Keeps (HiveAnswer printer loads) (tabletContract action job.1)
      (Bounded py printer loads action job.1 before attempts)
      (fun r s => ∃ target ∈ targets, target.tabletId = job.1 ∧
        Processed py printer loads action before attempts target r s)
      job.2.rest pool.world := by
  refine Pool.keeps_of_reachable (c := tabletContract action)
    (I := fun k => Bounded py printer loads action k before attempts)
    (Q := fun k r s => ∃ target ∈ targets, target.tabletId = k ∧
      Processed py printer loads action before attempts target r s) ?_ ?_ ?_ ?_ hrun
  · rw [targetPrograms_keys]
    exact hids
  · intro k k' hne s s' hguarantee
    exact hguarantee k hne
  · intro k hk s s' hdrift
    rw [targetPrograms_keys] at hk
    exact rely_of_hiveDrift hk hdrift
  · intro program hprogram
    obtain ⟨target, htarget, rfl⟩ := List.mem_map.mp hprogram
    have hone := keeps_processTarget py printer loads wait attempts target hattempts
      (asked_of_fresh action hfresh target.tabletId)
    exact hone.weaken fun r s _ hs => ⟨target, htarget, rfl, hs⟩

/-- No request, count or line is about a tablet that is not selected. -/
theorem untouched_of_acting
    (hattempts : 0 < attempts) (hids : (targets.map Target.tabletId).Nodup)
    (hfresh : before.Fresh)
    (hrun : Acting py printer loads action wait attempts threads targets before pool)
    {tabletId : Int} (hother : tabletId ∉ targets.map Target.tabletId) :
    pool.world.answersTo tabletId = [] ∧ pool.world.countedOf tabletId = [] ∧
      pool.world.printedOf tabletId = [] := by
  have hsame := Pool.relates_of_reachable (c := tabletContract action)
    (I := fun k => Bounded py printer loads action k before attempts)
    (Q := fun k r s => ∃ target ∈ targets, target.tabletId = k ∧
      Processed py printer loads action before attempts target r s)
    (R := fun s s' => s'.answersTo tabletId = s.answersTo tabletId ∧
      s'.countedOf tabletId = s.countedOf tabletId ∧ s'.printedOf tabletId = s.printedOf tabletId)
    (fun pool hpool => keeps_of_acting hattempts hids hfresh hpool)
    (fun k hk s s' hguarantee => by
      have hrely := hguarantee tabletId fun heq => hother (by
        rw [targetPrograms_keys] at hk
        rwa [heq])
      exact ⟨hrely.posts, hrely.counted, hrely.printed⟩)
    (fun s s' hdrift => by cases hdrift <;> exact ⟨rfl, rfl, rfl⟩) hrun
  generalize pool.world = s at hsame ⊢
  induction hsame with
  | refl =>
      have hfirst := asked_of_fresh action hfresh tabletId
      exact ⟨hfirst.answers_eq, hfirst.counted_eq, hfirst.printed_eq⟩
  | tail _ hstep ih =>
      exact ⟨hstep.1.trans ih.1, hstep.2.1.trans ih.2.1, hstep.2.2.trans ih.2.2⟩

/-- At the end the counted tablets are the results that were handed over. -/
theorem counted_perm_results
    (hattempts : 0 < attempts) (hids : (targets.map Target.tabletId).Nodup)
    (hfresh : before.Fresh)
    (hrun : Acting py printer loads action wait attempts threads targets before pool)
    (hfinished : pool.Finished) :
    (pool.world.counted.map fun entry => (entry.1, (.ok entry.2 : Except Str Bool))).Perm
      pool.results := by
  have hkeeps := keeps_of_acting hattempts hids hfresh hrun
  have hkeys : (pool.results.map Prod.fst).Perm (targets.map Target.tabletId) := by
    rw [← targetPrograms_keys py printer loads action wait attempts targets]
    exact Pool.results_keys hrun hfinished
  have hnodup : (pool.results.map Prod.fst).Nodup := hkeys.nodup_iff.mpr hids
  refine perm_of_entriesOf fun k => ?_
  have hmap : entriesOf k (pool.world.counted.map
      fun entry => (entry.1, (.ok entry.2 : Except Str Bool))) =
      (pool.world.countedOf k).map fun entry => (entry.1, .ok entry.2) := by
    unfold Hive.countedOf entriesOf
    rw [List.filter_map]
    rfl
  rw [hmap]
  by_cases hk : k ∈ targets.map Target.tabletId
  · obtain ⟨⟨k', r⟩, hresult, rfl⟩ := List.mem_map.mp (hkeys.mem_iff.mpr hk)
    obtain ⟨target, -, hid, earlier, answer, hr, hlast⟩ := Pool.post_of_mem_results
      (c := tabletContract action) (I := fun k => Bounded py printer loads action k before attempts)
      (Q := fun k r s => ∃ target ∈ targets, target.tabletId = k ∧
        Processed py printer loads action before attempts target r s) hrun hkeeps hresult
    have hcounted := hlast.asked.counted_eq
    rw [hid] at hcounted
    rw [hcounted, entriesOf_eq_singleton hnodup hresult, hr]
    rfl
  · rw [(untouched_of_acting hattempts hids hfresh hrun hk).2.1]
    refine (List.filter_eq_nil_iff.mpr fun entry hentry heq => hk ?_).symm
    rw [← hkeys.mem_iff, ← of_decide_eq_true heq]
    exact List.mem_map_of_mem hentry

/-- At the end every target has its result. -/
theorem processed_of_finished
    (hattempts : 0 < attempts) (hids : (targets.map Target.tabletId).Nodup)
    (hfresh : before.Fresh)
    (hrun : Acting py printer loads action wait attempts threads targets before pool)
    (hfinished : pool.Finished) {target : Target} (htarget : target ∈ targets) :
    ∃ r, (target.tabletId, r) ∈ pool.results ∧
      Processed py printer loads action before attempts target r pool.world := by
  have hkeys : (pool.results.map Prod.fst).Perm (targets.map Target.tabletId) := by
    rw [← targetPrograms_keys py printer loads action wait attempts targets]
    exact Pool.results_keys hrun hfinished
  obtain ⟨⟨k, r⟩, hresult, rfl⟩ :=
    List.mem_map.mp (hkeys.mem_iff.mpr (List.mem_map_of_mem htarget))
  obtain ⟨target', htarget', hid, hprocessed⟩ := Pool.post_of_mem_results
    (c := tabletContract action) (I := fun k => Bounded py printer loads action k before attempts)
    (Q := fun k r s => ∃ target ∈ targets, target.tabletId = k ∧
      Processed py printer loads action before attempts target r s) hrun
    (keeps_of_acting hattempts hids hfresh hrun) hresult
  cases List.inj_on_of_nodup_map hids htarget' htarget hid
  exact ⟨r, hresult, hprocessed⟩

theorem errors_eq
    {counted : List (Int × Bool)} {results : List (Int × Except Str Bool)}
    (h : (counted.map fun entry => (entry.1, (.ok entry.2 : Except Str Bool))).Perm results) :
    counted.countP (fun entry => !entry.2) = actionErrors results := by
  unfold actionErrors
  rw [← h.countP_eq, List.countP_map]
  rfl

/-- There are no errors exactly where every entry was counted as done. -/
theorem actionErrors_eq_zero_iff
    {counted : List (Int × Bool)} {results : List (Int × Except Str Bool)}
    (h : (counted.map fun entry => (entry.1, (.ok entry.2 : Except Str Bool))).Perm results) :
    actionErrors results = 0 ↔ ∀ result ∈ results, result.2 = .ok true := by
  rw [← errors_eq h, List.countP_eq_zero]
  constructor
  · intro hall result hresult
    obtain ⟨entry, hentry, rfl⟩ := List.mem_map.mp (h.mem_iff.mpr hresult)
    have hok := hall entry hentry
    simp only [Bool.not_eq_true, Bool.not_eq_false'] at hok
    rw [hok]
  · intro hall entry hentry
    have hok := hall _ (h.mem_iff.mp (List.mem_map_of_mem hentry))
    rw [Except.ok.inj hok]
    simp

/-- Whatever is lost, answered late or repeated, and however the threads take turns: a tablet
that is not selected is never asked for; a selected one is asked for at most `attempts`
times, not again after a success or a final error, and is as it was or as the action leaves
it.  At the end every selected tablet was asked for until a success, a final error or the last
attempt; its line was printed once, and what was reported as done was carried out.  The
counters are those of the results, and the exit status is 0 exactly if nothing failed and
every selected tablet was reported without an error.  Hive says that an action was carried
out only if it was, and nobody else stops or starts a selected tablet. -/
theorem actions_account
    (py : Interpreter) (printer : Printer) (loads : Str → Option Json) (action : Action)
    (wait : Bool) (attempts threads : Nat) (collected : List Target) (before : Hive)
    (pool : Pool Int hiveSignature Str Bool Hive)
    (listingErrors describeErrors : List (Str × DescribeError))
    (hattempts : 0 < attempts)
    (hfresh : before.Fresh)
    (hrun : Acting py printer loads action wait attempts threads (dedupeTargets collected) before
      pool) :
    (∀ tabletId, tabletId ∉ collected.map Target.tabletId → pool.world.answersTo tabletId = []) ∧
      (∀ target ∈ dedupeTargets collected,
        Bounded py printer loads action target.tabletId before attempts pool.world) ∧
      (pool.Finished →
        (∀ target ∈ dedupeTargets collected, ∃ r, (target.tabletId, r) ∈ pool.results ∧
          Processed py printer loads action before attempts target r pool.world) ∧
        pool.world.done = (dedupeTargets collected).length ∧
        pool.world.errors = actionErrors pool.results ∧
        (exitStatus listingErrors describeErrors (actionErrors pool.results) = 0 ↔
          listingErrors = [] ∧ describeErrors = [] ∧
            ∀ target ∈ dedupeTargets collected, (target.tabletId, .ok true) ∈ pool.results)) := by
  have hids : ((dedupeTargets collected).map Target.tabletId).Nodup := nodup_firstsFrom _ _ _
  have hkeeps := keeps_of_acting hattempts hids hfresh hrun
  refine ⟨?_, ?_, fun hfinished => ?_⟩
  · intro tabletId hother
    refine (untouched_of_acting hattempts hids hfresh hrun fun hmem => hother ?_).1
    exact (mem_keys_firstsFrom_iff.mp hmem).2
  · intro target htarget
    have hmem : target.tabletId ∈ pool.jobs.map Prod.fst := by
      rw [Pool.keys_of_reachable hrun, targetPrograms_keys]
      exact List.mem_map_of_mem htarget
    obtain ⟨job, hjob, hid⟩ := List.mem_map.mp hmem
    rw [← hid]
    exact (hkeeps job hjob).inv
  · have hperm := counted_perm_results hattempts hids hfresh hrun hfinished
    have hkeys : (pool.results.map Prod.fst).Perm ((dedupeTargets collected).map
        Target.tabletId) := by
      rw [← targetPrograms_keys py printer loads action wait attempts (dedupeTargets collected)]
      exact Pool.results_keys hrun hfinished
    refine ⟨fun target htarget =>
      processed_of_finished hattempts hids hfresh hrun hfinished htarget, ?_, errors_eq hperm, ?_⟩
    · have hlength := hkeys.length_eq
      rw [List.length_map, List.length_map, ← hperm.length_eq, List.length_map] at hlength
      exact hlength
    · have hstatus : exitStatus listingErrors describeErrors (actionErrors pool.results) = 0 ↔
          listingErrors = [] ∧ describeErrors = [] ∧ actionErrors pool.results = 0 := by
        unfold exitStatus
        split_ifs with hany
        · refine iff_of_false (by decide) fun hnone => ?_
          obtain hlisting | hdescribe | herrors := hany
          · exact hlisting hnone.1
          · exact hdescribe hnone.2.1
          · exact herrors hnone.2.2
        · push Not at hany
          exact iff_of_true rfl hany
      rw [hstatus, actionErrors_eq_zero_iff hperm]
      refine and_congr_right fun _ => and_congr_right fun _ => ⟨?_, ?_⟩
      · intro hall target htarget
        obtain ⟨r, hresult, -⟩ :=
          processed_of_finished hattempts hids hfresh hrun hfinished htarget
        rwa [← hall _ hresult]
      · rintro hall ⟨k, r⟩ hresult
        obtain ⟨target, htarget, rfl⟩ :=
          List.mem_map.mp (hkeys.mem_iff.mp (List.mem_map_of_mem hresult))
        have hnodup := hkeys.nodup_iff.mpr hids
        have hsame := List.inj_on_of_nodup_map hnodup hresult (hall target htarget) rfl
        exact congrArg Prod.snd hsame

/-- A partition and the balancer of a topic; the partition is met twice. -/
def topicTargets : List Target :=
  [⟨"/Root/db/topic".toList, "TOPIC".toList, 1, "partition".toList, []⟩,
    ⟨"/Root/db/topic".toList, "TOPIC".toList, 2, "balancer".toList, []⟩,
    ⟨"/Root/db/other".toList, "TOPIC".toList, 1, "partition".toList, []⟩]

/-- Hive before anything was asked. -/
def runningHive : Hive :=
  ⟨fun _ => false, [], [], []⟩

/-- An answer that says that the tablet was stopped, and how it is loaded. -/
def stoppedReply : HttpReply :=
  ⟨200, "\x7b\"Status\": \"OK\"\x7d".toList⟩

@[inherit_doc stoppedReply] def loadsStopped (text : Str) : Option Json :=
  if text = stoppedReply.text then some (.obj [("Status", .str "OK".toList)]) else none

/-- An answer that ends the requests. -/
def deniedReply : HttpReply :=
  ⟨403, "Access denied".toList⟩

/-- The first request for the partition is lost and the second one carried out; the balancer
may not be stopped. -/
theorem acting_stopped :
    ∃ pool, Acting asciiInterpreter plainPrinter loadsStopped .stop true 3 4
        (dedupeTargets topicTargets) runningHive pool ∧
      pool.Finished ∧
      pool.world.answersTo 1 = [.error "timed out".toList, .ok stoppedReply] ∧
      pool.world.answersTo 2 = [.ok deniedReply] ∧
      pool.results = [(1, .ok true), (2, .ok false)] := by
  have hstart : Acting asciiInterpreter plainPrinter loadsStopped .stop true 3 4
      (dedupeTargets topicTargets) runningHive (Pool.initial runningHive (targetPrograms
        asciiInterpreter plainPrinter loadsStopped .stop true 3 (dedupeTargets topicTargets))) :=
    .refl
  have hfirst := hstart.tail (.take _ [] [_] 1 _ rfl (by simp) Nat.zero_lt_two)
  have hsecond := hfirst.tail (.take _ [_] [] 2 _ rfl (by simp [Job.waiting]) Nat.one_lt_two)
  have hlost := hsecond.tail (.operation _ [] [_] 1 (HiveOp.post .stop 1 true) _ _ _ rfl
    (.lost _ .stop 1 true "timed out".toList))
  have hdenied := hlost.tail (.operation _ [_] [] 2 (HiveOp.post .stop 2 true) _ _ _ rfl
    (.ignored _ .stop 2 true deniedReply fun ⟨_, ⟨hstatus, _⟩, _⟩ => absurd hstatus (by decide)))
  have hslept := hdenied.tail (.operation _ [] [_] 1 (HiveOp.sleep 1) _ _ _ rfl (.slept _ 1))
  have hcarried := hslept.tail (.operation _ [] [_] 1 (HiveOp.post .stop 1 true) _ _ _ rfl
    (.carried _ .stop 1 true stoppedReply))
  have hcounted := hcarried.tail (.operation _ [] [_] 1 (HiveOp.count 1 true) _ _ _ rfl
    (.counted _ 1 true))
  have hprinted := hcounted.tail (.operation _ [] [_] 1 (HiveOp.print 1 _) _ _ _ rfl
    (.printed _ 1 _))
  have hover := hprinted.tail (.finish _ [] [_] 1 (.ok true) rfl)
  have hcounted' := hover.tail (.operation _ [_] [] 2 (HiveOp.count 2 false) _ _ _ rfl
    (.counted _ 2 false))
  have hprinted' := hcounted'.tail (.operation _ [_] [] 2 (HiveOp.print 2 _) _ _ _ rfl
    (.printed _ 2 _))
  refine ⟨_, hprinted'.tail (.finish _ [_] [] 2 (.ok false) rfl), ?_, rfl, rfl, rfl⟩
  intro job hjob
  rcases List.mem_pair.mp hjob with rfl | rfl <;> rfl

/-- Two requests stop the partition and one does not stop the balancer, and the run ends with
status 2. -/
theorem actions_account_stopped :
    ∃ pool, Acting asciiInterpreter plainPrinter loadsStopped .stop true 3 4
        (dedupeTargets topicTargets) runningHive pool ∧
      (∀ target ∈ dedupeTargets topicTargets, ∃ r, (target.tabletId, r) ∈ pool.results ∧
        Processed asciiInterpreter plainPrinter loadsStopped .stop runningHive 3 target r
          pool.world) ∧
      (pool.world.answersTo 1).length = 2 ∧ (pool.world.answersTo 2).length = 1 ∧
      pool.world.answersTo 3 = [] ∧ pool.world.done = 2 ∧ pool.world.errors = 1 ∧
      exitStatus [] [] (actionErrors pool.results) ≠ 0 := by
  obtain ⟨pool, hrun, hfinished, hfirst, hsecond, hresults⟩ := acting_stopped
  obtain ⟨hother, -, hover⟩ := actions_account asciiInterpreter plainPrinter loadsStopped .stop
    true 3 4 topicTargets runningHive pool [] [] (by decide) ⟨rfl, rfl, rfl⟩ hrun
  obtain ⟨hprocessed, hdone, herrors, hstatus⟩ := hover hfinished
  refine ⟨pool, hrun, hprocessed, by rw [hfirst]; rfl, by rw [hsecond]; rfl,
    hother 3 (by decide), hdone, ?_, fun hzero => ?_⟩
  · rw [herrors, hresults]
    rfl
  · have hall := (hstatus.mp hzero).2.2 topicTargets[1] (by decide)
    rw [hresults] at hall
    revert hall
    decide

end Pool

end Tablets
end YdbSnippets
