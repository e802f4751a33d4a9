import YdbSnippets.Backup.ScanErrors
import YdbSnippets.Backup.Spans

/-!
# Scanning the inside of a block

The block finder scans the inside of a block up to its closing brace, and the brace
matcher has scanned it before with a farther limit.  Both see the same braces.
-/

namespace YdbSnippets
namespace Backup

open Python

section Limits

variable {text : Str} {limit limit' i j : Nat} {c : Char}

theorem peek_limit
    (h : peek text limit i = some c) (hlt : i < limit') :
    peek text limit' i = some c := by
  unfold peek
  rw [if_pos hlt]
  exact getElem?_of_peek h

/-- A string that ends before the nearer limit is skipped as before. -/
theorem skipStringFrom_limit
    {quote : Char} (h : skipStringFrom text quote limit i = .ok j) (hj : j ≤ limit') :
    skipStringFrom text quote limit' i = .ok j := by
  fun_induction skipStringFrom text quote limit i with
  | case1 => cases h
  | case2 i hpeek ih =>
      have hlt := lt_of_skipStringFrom h
      rw [skipStringFrom]
      split
      · next hnone =>
          rw [peek_limit hpeek (by omega)] at hnone
          cases hnone
      · next d hd =>
          rw [peek_limit hpeek (by omega)] at hd
          cases hd
          rw [if_pos rfl]
          exact ih h
  | case3 i hpeek hne =>
      cases h
      rw [skipStringFrom]
      split
      · next hnone =>
          rw [peek_limit hpeek (by omega)] at hnone
          cases hnone
      · next d hd =>
          rw [peek_limit hpeek (by omega)] at hd
          cases hd
          rw [if_neg hne, if_pos rfl]
  | case4 i d hpeek hescape hquote ih =>
      have hlt := lt_of_skipStringFrom h
      rw [skipStringFrom]
      split
      · next hnone =>
          rw [peek_limit hpeek (by omega)] at hnone
          cases hnone
      · next d' hd =>
          rw [peek_limit hpeek (by omega)] at hd
          cases hd
          rw [if_neg hescape, if_neg hquote]
          exact ih h

/-- So is a comment. -/
theorem skipLine_limit
    (hi : i ≤ limit') (hj : skipLine text i limit ≤ limit') (hle : limit' ≤ limit) :
    skipLine text i limit' = skipLine text i limit := by
  fun_induction skipLine text i limit with
  | case1 i hnone =>
      obtain rfl : limit' = limit := Nat.le_antisymm hle hj
      rw [skipLine]
      split
      · rfl
      · next d hd =>
          rw [hnone] at hd
          cases hd
  | case2 i hpeek =>
      rw [skipLine]
      split
      · next hnone =>
          rcases Nat.lt_or_eq_of_le hj with hlt | heq
          · rw [peek_limit hpeek hlt] at hnone
            cases hnone
          · exact heq.symm
      · next d hd =>
          have hsame := (getElem?_of_peek hd).symm.trans (getElem?_of_peek hpeek)
          rw [Option.some.inj hsame, if_pos rfl]
  | case3 i d hpeek hne ih =>
      have hbounds := skipLine_bounds text (i := i + 1) (lt_of_peek hpeek)
      rw [skipLine]
      split
      · next hnone =>
          rw [peek_limit hpeek (by omega)] at hnone
          cases hnone
      · next d' hd =>
          rw [peek_limit hpeek (by omega)] at hd
          cases hd
          rw [if_neg hne]
          exact ih (by omega) hj

theorem skipOpaque_limit
    (hc : peek text limit i = some c) (h : skipOpaque text i limit c = some (.ok j))
    (hj : j ≤ limit') (hle : limit' ≤ limit) :
    skipOpaque text i limit' c = some (.ok j) := by
  have hlt := lt_of_skipOpaque hc h
  unfold skipOpaque at h ⊢
  split_ifs at h with hquote hhash hslash
  · rw [if_pos hquote]
    unfold skipString at h ⊢
    rw [getElem?_of_peek hc] at h ⊢
    exact congrArg some (skipStringFrom_limit (Option.some.inj h) hj)
  · rw [if_neg hquote, if_pos hhash]
    have hline := Except.ok.inj (Option.some.inj h)
    rw [skipLine_limit (by omega) (by omega) hle, hline]
  · have hline := Except.ok.inj (Option.some.inj h)
    simp only [Bool.and_eq_true, decide_eq_true_eq, beq_iff_eq] at hslash
    have hnext : i + 1 < j := by
      have h1 : skipLine text i limit = skipLine text (i + 1) limit := by
        rw [skipLine]
        split
        · next hnone =>
            rw [hc] at hnone
            cases hnone
        · next d hd =>
            rw [hc] at hd
            cases hd
            rw [if_neg (by rw [hslash.1]; decide)]
      rw [h1] at hline
      have := lt_skipLine hslash.2 (by decide)
      omega
    have hslash' : peek text limit' (i + 1) = some '/' := peek_limit hslash.2 (by omega)
    rw [if_neg hquote, if_neg hhash, if_pos (by simp [hslash.1, hslash']),
      skipLine_limit (by omega) (by omega) hle, hline]

theorem skipOpaque_none_limit
    (h : skipOpaque text i limit c = none) (hle : limit' ≤ limit) :
    skipOpaque text i limit' c = none := by
  unfold skipOpaque at h ⊢
  split_ifs at h with hquote hhash hslash
  rw [if_neg hquote, if_neg hhash, if_neg]
  intro hslash'
  simp only [Bool.and_eq_true, decide_eq_true_eq, beq_iff_eq] at hslash'
  refine hslash ?_
  simp only [Bool.and_eq_true, decide_eq_true_eq, beq_iff_eq]
  exact ⟨hslash'.1, peek_limit hslash'.2 (by have := lt_of_peek hslash'.2; omega)⟩

end Limits

section Matcher

variable {text : Str} {limit close i depth : Nat}

/-- The matcher is past a character that is no brace and starts nothing opaque. -/
theorem scanMessageFrom_skipWhile
    {test : Char → Bool}
    (htest : ∀ c, test c = true → isQuote c = false ∧ c ≠ '#' ∧ c ≠ '/' ∧ c ≠ '{' ∧ c ≠ '}')
    {limit' : Nat} (hle : limit' ≤ limit) (i depth : Nat) :
    scanMessageFrom text limit (skipWhile test text limit' i) depth =
      scanMessageFrom text limit i depth := by
  fun_induction skipWhile test text limit' i with
  | case1 i c hpeek hc ih =>
      obtain ⟨hquote, hhash, hslash, hopen, hclose⟩ := htest c hc
      have hlt := lt_of_peek hpeek
      rw [ih, scanMessageFrom_other (peek_limit hpeek (by omega)) depth hquote hhash hslash
        hopen hclose]
  | case2 => rfl
  | case3 => rfl

theorem plain_of_isWordPart
    (c : Char) (h : isWordPart c = true) :
    isQuote c = false ∧ c ≠ '#' ∧ c ≠ '/' ∧ c ≠ '{' ∧ c ≠ '}' :=
  ne_of_isWordPart h

theorem plain_of_isWs
    (c : Char) (h : isWs c = true) :
    isQuote c = false ∧ c ≠ '#' ∧ c ≠ '/' ∧ c ≠ '{' ∧ c ≠ '}' := by
  simp only [isWs, Bool.or_eq_true, beq_iff_eq] at h
  rcases h with ((rfl | rfl) | rfl) | rfl <;> decide

/-- The matcher reads a word without a change of its depth. -/
theorem scanMessageFrom_wordEnd
    {limit' : Nat} (hle : limit' ≤ limit) {c : Char}
    (hc : peek text limit i = some c) (hword : isWordStart c = true) (depth : Nat) :
    scanMessageFrom text limit (wordEnd text i limit') depth =
      scanMessageFrom text limit i depth := by
  obtain ⟨hquote, hhash, hslash, hopen, hclose⟩ :=
    plain_of_isWordPart c (isWordPart_of_isWordStart hword)
  unfold wordEnd
  rw [scanMessageFrom_skipWhile plain_of_isWordPart hle,
    ← scanMessageFrom_other hc depth hquote hhash hslash hopen hclose]

/-- It reads on to the brace of a block as well. -/
theorem scanMessageFrom_blockBrace
    {limit' brace : Nat} (hle : limit' ≤ limit)
    (hbrace : blockBrace text i limit' = some brace) (depth : Nat) :
    scanMessageFrom text limit brace depth = scanMessageFrom text limit i depth := by
  unfold blockBrace skipWs at hbrace
  simp only at hbrace
  split_ifs at hbrace with hcolon hopen hopen
  · cases hbrace
    have hlt := lt_of_peek hcolon
    rw [scanMessageFrom_skipWhile plain_of_isWs hle,
      ← scanMessageFrom_other (peek_limit hcolon (by omega)) depth rfl (by decide) (by decide)
        (by decide) (by decide),
      scanMessageFrom_skipWhile plain_of_isWs hle]
  · cases hbrace
    exact scanMessageFrom_skipWhile plain_of_isWs hle _ _

theorem exists_peek_of_scanMessageFrom
    (h : scanMessageFrom text limit i depth = .ok close) :
    ∃ c, peek text limit i = some c := by
  rw [scanMessageFrom] at h
  split at h
  · cases h
  · next c hc => exact ⟨c, hc⟩

/-- Below its closing brace the matcher is at depth one. -/
theorem eq_one_of_close
    (h : scanMessageFrom text limit i depth = .ok close) (hi : close ≤ i + 1) :
    depth = 1 := by
  obtain ⟨c, hc⟩ := exists_peek_of_scanMessageFrom h
  rw [scanMessageFrom_step hc] at h
  cases hskip : skipOpaque text i limit c with
  | some result =>
      cases result with
      | error e =>
          rw [hskip] at h
          cases h
      | ok j =>
          rw [hskip] at h
          have hj := lt_of_skipOpaque hc hskip
          have hclose := scanMessageFrom_bounds h
          omega
  | none =>
      simp only [hskip] at h
      split_ifs at h with hopen hbrace hone
      · have hclose := scanMessageFrom_bounds h
        omega
      · exact hone
      · have hclose := scanMessageFrom_bounds h
        omega
      · have hclose := scanMessageFrom_bounds h
        omega

/-- The matcher comes back to the depth at which it started before it closes the message
around it, also with the nearer limit. -/
theorem scanMessageFrom_split
    {inner outer : Nat} (hinner : 1 ≤ inner) (houter : 1 ≤ outer)
    (h : scanMessageFrom text limit i (inner + outer) = .ok close) :
    ∃ m, scanMessageFrom text (close - 1) i inner = .ok m ∧
      scanMessageFrom text limit m outer = .ok close := by
  induction hn : limit - i using Nat.strong_induction_on generalizing i inner with
  | _ n ih =>
      subst hn
      obtain ⟨c, hc⟩ := exists_peek_of_scanMessageFrom h
      have hlt := lt_of_peek hc
      have hbounds := scanMessageFrom_bounds h
      rw [scanMessageFrom_step hc] at h
      cases hskip : skipOpaque text i limit c with
      | some result =>
          cases result with
          | error e =>
              rw [hskip] at h
              cases h
          | ok j =>
              simp only [hskip] at h
              have hj := lt_of_skipOpaque hc hskip
              have hclose := scanMessageFrom_bounds h
              obtain ⟨m, hm, hrest⟩ := ih (limit - j) (by omega) hinner h rfl
              refine ⟨m, ?_, hrest⟩
              rw [scanMessageFrom_step (peek_limit hc (by omega)),
                skipOpaque_limit hc hskip (by omega) (by omega)]
              exact hm
      | none =>
          simp only [hskip] at h
          have hnone : skipOpaque text i (close - 1) c = none :=
            skipOpaque_none_limit hskip (by omega)
          split_ifs at h with hopen hbrace hone
          · have hclose := scanMessageFrom_bounds h
            have hdeeper : scanMessageFrom text limit (i + 1) (inner + 1 + outer) = .ok close := by
              rw [Nat.add_right_comm]
              exact h
            obtain ⟨m, hm, hrest⟩ := ih (limit - (i + 1)) (by omega) (by omega) hdeeper rfl
            refine ⟨m, ?_, hrest⟩
            rw [scanMessageFrom_step (peek_limit hc (by omega)), hnone]
            simp only [if_pos hopen]
            exact hm
          · omega
          · have hclose := scanMessageFrom_bounds h
            by_cases hlast : inner = 1
            · refine ⟨i + 1, ?_, ?_⟩
              · rw [scanMessageFrom_step (peek_limit hc (by omega)), hnone]
                simp only [if_neg hopen, if_pos hbrace, if_pos hlast]
              · rw [hlast, Nat.add_sub_cancel_left] at h
                exact h
            · have hhigher :
                  scanMessageFrom text limit (i + 1) (inner - 1 + outer) = .ok close := by
                rw [← Nat.sub_add_comm hinner]
                exact h
              obtain ⟨m, hm, hrest⟩ := ih (limit - (i + 1)) (by omega) (by omega) hhigher rfl
              refine ⟨m, ?_, hrest⟩
              rw [scanMessageFrom_step (peek_limit hc (by omega)), hnone]
              simp only [if_neg hopen, if_pos hbrace, if_neg hlast]
              exact hm
          · have hclose := scanMessageFrom_bounds h
            obtain ⟨m, hm, hrest⟩ := ih (limit - (i + 1)) (by omega) hinner h rfl
            refine ⟨m, ?_, hrest⟩
            rw [scanMessageFrom_step (peek_limit hc (by omega)), hnone]
            simp only [if_neg hopen, if_neg hbrace]
            exact hm

theorem scanMessageFrom_of_scanMessage
    {brace : Nat} (h : scanMessage text brace limit = .ok close) :
    scanMessageFrom text limit (brace + 1) 1 = .ok close := by
  unfold scanMessage at h
  split_ifs at h
  exact h

/-- A block inside a message that the matcher closes is closed before the message. -/
theorem exists_close_of_blockBrace
    {limit' brace : Nat} (hle : limit' ≤ limit)
    (hblock : blockBrace text i limit' = some brace)
    (h : scanMessageFrom text limit i (depth + 1) = .ok close) :
    ∃ m, scanMessage text brace (close - 1) = .ok m ∧
      scanMessageFrom text limit m (depth + 1) = .ok close := by
  have hpass := (scanMessageFrom_blockBrace hle hblock (depth + 1)).trans h
  obtain ⟨c, hc⟩ := exists_peek_of_scanMessageFrom hpass
  have hopen : c = '{' := by
    have hsame := (getElem?_of_peek hc).symm.trans (peek_of_blockBrace hblock)
    exact Option.some.inj hsame
  subst hopen
  have hstep := scanMessageFrom_step hc (depth + 1)
  rw [hpass, skipOpaque_eq_none (by decide) (by decide) (by decide)] at hstep
  simp only [if_true] at hstep
  have hclose := scanMessageFrom_bounds hstep.symm
  have hdeeper : scanMessageFrom text limit (brace + 1) (1 + (depth + 1)) = .ok close := by
    rw [Nat.add_comm 1 (depth + 1)]
    exact hstep.symm
  obtain ⟨m, hm, hrest⟩ := scanMessageFrom_split le_rfl (by omega) hdeeper
  refine ⟨m, ?_, hrest⟩
  unfold scanMessage
  rw [if_pos (peek_limit hc (by omega))]
  exact hm

/-- Where the matcher closes a message, a scan of its inside meets no brace that does not
match, at whatever depth the matcher has come to. -/
theorem balanced_of_scanMessageFrom
    {e : Failure} (h : scanMessageFrom text limit i (depth + 1) = .ok close)
    (hfind : findFrom text (close - 1) i depth = .error e) :
    ¬ Unbalanced e := by
  induction hn : close - 1 - i using Nat.strong_induction_on
    generalizing limit close i depth with
  | _ n ih =>
      subst hn
      have hbounds := scanMessageFrom_bounds h
      rcases Nat.lt_or_ge i (close - 1) with hlt | hge
      swap
      · have hdepth := eq_one_of_close h (by omega)
        have hnone : peek text (close - 1) i = none := if_neg (Nat.not_lt.mpr hge)
        rw [findFrom] at hfind
        split at hfind
        · rw [if_pos (Nat.succ.inj hdepth)] at hfind
          cases hfind
        · next c hc =>
            rw [hnone] at hc
            cases hc
      obtain ⟨c, hc⟩ := exists_peek_of_scanMessageFrom h
      have hc' := peek_limit hc hlt
      -- The finder goes on with the inside where the matcher goes on.
      have hnext : ∀ {j d : Nat}, i < j → scanMessageFrom text limit j (d + 1) = .ok close →
          findFrom text (close - 1) j d = .error e → ¬ Unbalanced e :=
        fun hj hscan hrest => ih (close - 1 - _) (by omega) hscan hrest rfl
      rw [findFrom_step hc'] at hfind
      have hstep := scanMessageFrom_step hc (depth + 1)
      rw [h] at hstep
      cases hskip : skipOpaque text i limit c with
      | some result =>
          cases result with
          | error e' =>
              rw [hskip] at hstep
              cases hstep
          | ok j =>
              simp only [hskip] at hstep
              have hj := lt_of_skipOpaque hc hskip
              have hclose := scanMessageFrom_bounds hstep.symm
              simp only [skipOpaque_limit hc hskip (show j ≤ close - 1 by omega) (by omega)]
                at hfind
              exact hnext hj.1 hstep.symm hfind
      | none =>
          simp only [hskip] at hstep
          have hnone : skipOpaque text i (close - 1) c = none :=
            skipOpaque_none_limit hskip (by omega)
          simp only [hnone] at hfind
          split_ifs at hfind with hopen hbrace hdepth hword hattributes
          · rw [if_pos hopen] at hstep
            exact hnext (Nat.lt_succ_self i) hstep.symm hfind
          · rw [if_neg hopen, if_pos hbrace, if_pos (by omega)] at hstep
            have := Except.ok.inj hstep
            omega
          · rw [if_neg hopen, if_pos hbrace, if_neg (by omega), Nat.add_sub_cancel,
              ← Nat.sub_add_cancel (Nat.pos_of_ne_zero hdepth)] at hstep
            exact hnext (Nat.lt_succ_self i) hstep.symm hfind
          · have hpass : scanMessageFrom text limit (wordEnd text i (close - 1)) (depth + 1) =
                .ok close := (scanMessageFrom_wordEnd (by omega) hc hword _).trans h
            have hstop := lt_wordEnd text i (close - 1)
            cases hblock : blockBrace text (wordEnd text i (close - 1)) (close - 1) with
            | none =>
                rw [hblock] at hfind
                exact hnext hstop hpass hfind
            | some brace =>
                have hle := le_of_blockBrace hblock
                obtain ⟨m, hm, hrest⟩ := exists_close_of_blockBrace (by omega) hblock hpass
                have hmessage := scanMessage_bounds hm
                simp only [hblock, hm] at hfind
                rcases Matching.bind_error_iff.mp hfind with hfind | ⟨key, -, hfind⟩
                · exact (lexical_of_extractKey hfind).1
                rcases Matching.bind_error_iff.mp hfind with hfind | ⟨nested, -, hfind⟩
                · exact ih (m - 1 - (brace + 1)) (by omega) (scanMessageFrom_of_scanMessage hm)
                    hfind rfl
                rcases Matching.bind_error_iff.mp hfind with hfind | ⟨rest, -, hfind⟩
                · exact hnext (by omega) hrest hfind
                · cases hfind
          · have hpass : scanMessageFrom text limit (wordEnd text i (close - 1)) (depth + 1) =
                .ok close := (scanMessageFrom_wordEnd (by omega) hc hword _).trans h
            exact hnext (lt_wordEnd text i (close - 1)) hpass hfind
          · rw [if_neg hopen, if_neg hbrace] at hstep
            exact hnext (Nat.lt_succ_self i) hstep.symm hfind

end Matcher

section Laminar

variable {text : Str} {limit i depth : Nat} {blocks : List AttrBlock}

theorem bounds_of_findAttributeBlocks
    {b : AttrBlock} (h : findAttributeBlocks text 0 text.length = .ok blocks) (hb : b ∈ blocks) :
    b.start < b.stop ∧ b.stop ≤ text.length := by
  obtain ⟨k, e, -, hke, he, -, -, hstart, hstop⟩ := foundBetween_of_findFrom h b hb
  have hfirst := start_le_keyword text k e
  have hlast := end_le_stop text k e
  rw [hstart, hstop]
  exact ⟨by omega, stop_le_length he⟩

/-- Of any two spans one contains the other, or they are apart. -/
theorem apart_or_inside
    {start : Nat} {a b : AttrBlock} (h : findAttributeBlocks text start limit = .ok blocks)
    (ha : a ∈ blocks) (hb : b ∈ blocks) :
    a.stop ≤ b.start ∨ b.stop ≤ a.start ∨ Inside a b ∨ Inside b a := by
  have hprecedes := precedes_of_findFrom h
  refine List.Pairwise.forall_of_forall_of_flip (R := fun a b =>
    a.stop ≤ b.start ∨ b.stop ≤ a.start ∨ Inside a b ∨ Inside b a) ?_ ?_ ?_ ha hb
  · intro x _
    exact Or.inr (Or.inr (Or.inl ⟨le_rfl, le_rfl⟩))
  · refine hprecedes.imp fun hxy => ?_
    rcases hxy with hxy | hxy
    · exact Or.inl hxy
    · exact Or.inr (Or.inr (Or.inr hxy))
  · refine hprecedes.imp fun hxy => ?_
    rcases hxy with hxy | hxy
    · exact Or.inr (Or.inl hxy)
    · exact Or.inr (Or.inr (Or.inl hxy))

/-- The outermost removable spans are chosen, and the text outside of them is kept. -/
theorem exists_chosen
    (h : findAttributeBlocks text 0 text.length = .ok blocks) :
    ∃ chosen, chooseBlocks [] ((blocks.filter AttrBlock.removable).mergeSort spanLe) = .ok chosen ∧
      chosen.Sublist (blocks.filter AttrBlock.removable) ∧
      chosen.Pairwise (fun a b => a.stop ≤ b.start) ∧
      (∀ b ∈ blocks.filter AttrBlock.removable, ∃ c ∈ chosen, Inside b c) ∧
      excise text 0 chosen = .ok (keptText text (blocks.filter AttrBlock.removable)) := by
  have hbounds : ∀ b ∈ blocks.filter AttrBlock.removable,
      b.start < b.stop ∧ b.stop ≤ text.length :=
    fun b hb => bounds_of_findAttributeBlocks h (List.mem_of_mem_filter hb)
  have hprecedes : (blocks.filter AttrBlock.removable).Pairwise Precedes :=
    (precedes_of_findFrom h).sublist List.filter_sublist
  have hsorted : (blocks.filter AttrBlock.removable).Pairwise fun a b => spanLe a b = true :=
    hprecedes.imp_of_mem fun ha hb hab => hab.spanLe (hbounds _ hb).1.le (hbounds _ ha).1
  rw [List.mergeSort_of_pairwise hsorted]
  obtain ⟨chosen, hrun, hsub, hpairs, -, hinside⟩ :=
    @chooseBlocks_precedes _ [] hprecedes (fun b hb => (hbounds b hb).1.le) (by simp)
  have hcover : ∀ b ∈ blocks.filter AttrBlock.removable, ∃ c ∈ chosen, Inside b c := by
    intro b hb
    obtain ⟨c, hc | hc, hin⟩ := hinside b hb
    · cases hc
    · exact ⟨c, hc, hin⟩
  refine ⟨chosen, hrun, hsub, hpairs, hcover, ?_⟩
  have hspans : ∀ b ∈ chosen, b.start ≤ b.stop ∧ b.stop ≤ text.length := by
    intro b hb
    have hb' := hbounds b (hsub.subset hb)
    exact ⟨hb'.1.le, hb'.2⟩
  rw [excise_eq hpairs hspans fun _ _ => Nat.zero_le _, keptFrom_zero,
    keptText_eq_of_chosen (fun b hb => hsub.subset hb) hcover]

/-- So neither of the two checks for spans that overlap fails. -/
theorem not_overlapping_of_rewriteDocumentScheme
    {e : Failure} (h : rewriteDocumentScheme text = .error e) :
    ¬ Overlapping e := by
  unfold rewriteDocumentScheme at h
  rcases Matching.bind_error_iff.mp h with h | ⟨blocks, hblocks, h⟩
  · exact not_overlapping_of_findFrom h
  obtain ⟨chosen, hchosen, -, -, -, hexcise⟩ := exists_chosen hblocks
  simp only [hchosen, hexcise, bind, Except.bind, pure, Except.pure] at h
  split_ifs at h
  cases hleft : findAttributeBlocks (keptText text (blocks.filter AttrBlock.removable)) 0
      (keptText text (blocks.filter AttrBlock.removable)).length with
  | error e' =>
      rw [hleft] at h
      cases h
      exact not_overlapping_of_findFrom hleft
  | ok left =>
      simp only [hleft, throw, throwThe, MonadExceptOf.throw] at h
      split_ifs at h
      cases h
      decide

/-- What the finder returns at the keyword of a block: the block, then the blocks of its
inside, which have their spans in its span. -/
theorem exists_nested
    {brace close : Nat} (hlt : i < limit)
    (hname : slice text i (wordEnd text i limit) = attributesWord)
    (hbrace : blockBrace text (wordEnd text i limit) limit = some brace)
    (hmessage : scanMessage text brace limit = .ok close)
    (h : findFrom text limit i depth = .ok blocks) :
    ∃ outer nested rest, blocks = outer :: (nested ++ rest) ∧
      findAttributeBlocks text (brace + 1) (close - 1) = .ok nested ∧
      findFrom text limit close depth = .ok rest ∧
      ∀ b ∈ nested, Inside b outer := by
  have hc : peek text limit i = some 'a' := by
    have hfirst := congrArg (fun s => s[0]?) hname
    simp only [slice, List.getElem?_drop, Nat.add_zero, List.getElem?_take] at hfirst
    rw [if_pos (lt_wordEnd text i limit)] at hfirst
    unfold peek
    rw [if_pos hlt, hfirst]
    rfl
  rw [findFrom_step hc, skipOpaque_eq_none (by decide) (by decide) (by decide)] at h
  simp only [hname, hbrace, hmessage, if_neg (show 'a' ≠ '{' by decide),
    if_neg (show 'a' ≠ '}' by decide), if_pos (show isWordStart 'a' = true by decide),
    if_true] at h
  obtain ⟨key, -, h⟩ := Matching.bind_ok_iff.mp h
  obtain ⟨nested, hnested, h⟩ := Matching.bind_ok_iff.mp h
  obtain ⟨rest, hrest, h⟩ := Matching.bind_ok_iff.mp h
  exact ⟨_, nested, rest, (Except.ok.inj h).symm, hnested, hrest,
    inside_of_nested hbrace hmessage hnested key⟩

/-- On every text the spans of a scan are nested or apart, so that the outermost removable
ones are cut out in their order, and a scan of the inside of a block meets no brace that
does not match. -/
theorem spans_laminar
    (text : Str) :
    (∀ start limit blocks, findAttributeBlocks text start limit = .ok blocks →
      ∀ a ∈ blocks, ∀ b ∈ blocks,
        a.stop ≤ b.start ∨ b.stop ≤ a.start ∨ Inside a b ∨ Inside b a) ∧
    (∀ i limit depth blocks brace close, i < limit →
      slice text i (wordEnd text i limit) = attributesWord →
      blockBrace text (wordEnd text i limit) limit = some brace →
      scanMessage text brace limit = .ok close →
      findFrom text limit i depth = .ok blocks →
      ∃ outer nested rest, blocks = outer :: (nested ++ rest) ∧
        findAttributeBlocks text (brace + 1) (close - 1) = .ok nested ∧
        findFrom text limit close depth = .ok rest ∧
        ∀ b ∈ nested, Inside b outer) ∧
    (∀ e, rewriteDocumentScheme text = .error e → ¬ Overlapping e) ∧
    (∀ blocks, findAttributeBlocks text 0 text.length = .ok blocks →
      ∃ chosen,
        chooseBlocks [] ((blocks.filter AttrBlock.removable).mergeSort spanLe) = .ok chosen ∧
        chosen.Sublist (blocks.filter AttrBlock.removable) ∧
        chosen.Pairwise (fun a b => a.stop ≤ b.start) ∧
        (∀ b ∈ blocks.filter AttrBlock.removable, ∃ c ∈ chosen, Inside b c) ∧
        excise text 0 chosen = .ok (keptText text (blocks.filter AttrBlock.removable))) ∧
    (∀ brace limit close, scanMessage text brace limit = .ok close →
      ∀ e, findAttributeBlocks text (brace + 1) (close - 1) = .error e → ¬ Unbalanced e) := by
  refine ⟨?_, ?_, ?_, ?_, ?_⟩
  · intro start limit blocks h a ha b hb
    exact apart_or_inside h ha hb
  · intro i limit depth blocks brace close hlt hname hbrace hmessage h
    exact exists_nested hlt hname hbrace hmessage h
  · intro e h
    exact not_overlapping_of_rewriteDocumentScheme h
  · intro blocks h
    exact exists_chosen h
  · intro brace limit close hmessage e h
    exact balanced_of_scanMessageFrom (scanMessageFrom_of_scanMessage hmessage) h

end Laminar

end Backup
end YdbSnippets
