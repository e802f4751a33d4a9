import YdbSnippets.Backup.Finder
import YdbSnippets.Lists.Matching

/-!
# The spans of a scan

On every text the spans that a scan returns are nested or apart, so that the spans
that are cut out can be chosen and cut out in their order.
-/

namespace YdbSnippets
namespace Backup

open Python

section Definitions

/-- The position behind a block and a semicolon that follows it. -/
def contentEnd (text : Str) (limit close : Nat) : Nat :=
  if peek text limit close = some ';' then close + 1 else close

/-- The span of a block lies in that of another one. -/
def Inside (b a : AttrBlock) : Prop :=
  a.start ≤ b.start ∧ b.stop ≤ a.stop

/-- The span of the first block ends before that of the second, or contains it. -/
def Precedes (a b : AttrBlock) : Prop :=
  a.stop ≤ b.start ∨ Inside b a

/-- The characters of a text that are in none of the spans. -/
def keptText (text : Str) (blocks : List AttrBlock) : Str :=
  (text.zipIdx.filter fun p => !blocks.any fun b => b.start ≤ p.2 && p.2 < b.stop).map Prod.fst

/-- A character other than white space stands at the position. -/
def SolidAt (text : Str) (p : Nat) : Prop :=
  ∃ c, text[p]? = some c ∧ isSpace c = false

/-- A word starts at the position. -/
def WordAt (text : Str) (p : Nat) : Prop :=
  ∃ c, text[p]? = some c ∧ isWordStart c = true

/-- The block was found between the positions. -/
def FoundBetween (text : Str) (lo hi : Nat) (b : AttrBlock) : Prop :=
  ∃ k e, lo ≤ k ∧ k < e ∧ e ≤ hi ∧ WordAt text k ∧ SolidAt text (e - 1) ∧
    b.start = (deletionSpan text k e).1 ∧ b.stop = (deletionSpan text k e).2

end Definitions

section Lines

variable {text : Str} {i p : Nat}

theorem WordAt.solidAt
    (h : WordAt text p) :
    SolidAt text p := by
  obtain ⟨c, hc, hword⟩ := h
  exact ⟨c, hc, not_isSpace_of_isWordPart (isWordPart_of_isWordStart hword)⟩

theorem lineStart_le (text : Str) (i : Nat) :
    lineStart text i ≤ i := by
  unfold lineStart
  cases hindex : Text.lastIndex '\n' (text.take i) with
  | none => exact Nat.zero_le _
  | some j =>
      have hj := (Text.lastIndex_eq_some_iff.mp hindex).1
      rw [List.getElem?_take] at hj
      split_ifs at hj with hlt
      exact hlt

/-- The line starts behind every newline before the position. -/
theorem lt_lineStart
    (hp : text[p]? = some '\n') (hlt : p < i) :
    p < lineStart text i := by
  have htake : (text.take i)[p]? = some '\n' := by
    rw [List.getElem?_take, if_pos hlt]
    exact hp
  unfold lineStart
  cases hindex : Text.lastIndex '\n' (text.take i) with
  | none =>
      have hnot := (Text.lastIndex_eq_none_iff '\n' (text.take i)).mp hindex
      exact absurd (List.mem_of_getElem? htake) hnot
  | some j => exact Nat.lt_succ_of_le ((Text.lastIndex_eq_some_iff.mp hindex).2 p htake)

/-- What is skipped ends before a character that does not satisfy the test. -/
theorem skipWhile_le
    {test : Char → Bool} {c : Char} (limit : Nat)
    (hp : text[p]? = some c) (hc : test c = false) (hle : i ≤ p) :
    skipWhile test text limit i ≤ p := by
  fun_induction skipWhile with
  | case1 i d hd htest ih =>
      refine ih ?_
      rcases Nat.lt_or_eq_of_le hle with hlt | rfl
      · exact hlt
      · unfold peek at hd
        split_ifs at hd
        rw [hp] at hd
        cases hd
        rw [hc] at htest
        cases htest
  | case2 => exact hle
  | case3 => exact hle

end Lines

section DeletionSpan

variable {text : Str} {k e p : Nat}

theorem getElem?_of_peek
    {limit : Nat} {c : Char} (h : peek text limit p = some c) :
    text[p]? = some c := by
  unfold peek at h
  split_ifs at h
  exact h

/-- A span starts with its keyword, or with the line if only white space stands before
the keyword. -/
theorem deletionSpan_start (text : Str) (k e : Nat) :
    (deletionSpan text k e).1 = k ∨
      (deletionSpan text k e).1 = lineStart text k ∧
        ∀ c ∈ slice text (lineStart text k) k, isSpace c = true := by
  by_cases hblank : (strip (slice text (lineStart text k) k)).isEmpty = true
  · refine Or.inr ⟨?_, strip_isEmpty_iff.mp hblank⟩
    simp only [deletionSpan, hblank, Bool.not_true, Bool.false_eq_true, if_false]
    split_ifs <;> rfl
  · refine Or.inl ?_
    simp only [deletionSpan, hblank, Bool.not_false, if_true]

/-- A span ends with its block, or behind a line end before which only white space
stands. -/
theorem deletionSpan_stop (text : Str) (k e : Nat) :
    (deletionSpan text k e).2 = e ∨
      ∃ p, (deletionSpan text k e).2 = p + 1 ∧ e ≤ p ∧ text[p]? = some '\n' ∧
        ∀ q, e ≤ q → SolidAt text q → p < q := by
  by_cases hfull : (strip (slice text (lineStart text k) k)).isEmpty = true
  · simp only [deletionSpan, hfull, Bool.not_true, Bool.false_eq_true, if_false]
    have hstart := le_skipWhile isBlank text text.length e
    have hblank : ∀ q, e ≤ q → SolidAt text q →
        skipWhile isBlank text text.length e ≤ q := by
      rintro q hq ⟨c, hc, hspace⟩
      refine skipWhile_le _ hc ?_ hq
      cases htest : isBlank c with
      | false => rfl
      | true =>
          simp only [isBlank, Bool.or_eq_true, beq_iff_eq] at htest
          rcases htest with rfl | rfl <;> cases hspace
    have hne : ∀ q r c, SolidAt text q → peek text text.length r = some c →
        isSpace c = true → q ≠ r := by
      rintro q r c ⟨d, hd, hsolid⟩ hpeek hspace rfl
      rw [getElem?_of_peek hpeek] at hd
      cases hd
      rw [hspace] at hsolid
      cases hsolid
    split_ifs with hreturn hnewline hnewline
    · refine Or.inr ⟨_, rfl, by omega, getElem?_of_peek hnewline, fun q hq hsolid => ?_⟩
      have hle := hblank q hq hsolid
      have h1 := hne q _ _ hsolid hreturn rfl
      have h2 := hne q _ _ hsolid hnewline rfl
      omega
    · exact Or.inl rfl
    · refine Or.inr ⟨_, rfl, hstart, getElem?_of_peek hnewline, fun q hq hsolid => ?_⟩
      have hle := hblank q hq hsolid
      have h1 := hne q _ _ hsolid hnewline rfl
      omega
    · exact Or.inl rfl
  · refine Or.inl ?_
    simp only [deletionSpan, hfull, Bool.not_false, if_true]

theorem start_le_keyword (text : Str) (k e : Nat) :
    (deletionSpan text k e).1 ≤ k := by
  rcases deletionSpan_start text k e with h | ⟨h, -⟩
  · exact h.le
  · exact h.trans_le (lineStart_le text k)

theorem end_le_stop (text : Str) (k e : Nat) :
    e ≤ (deletionSpan text k e).2 := by
  rcases deletionSpan_stop text k e with h | ⟨p, h, hle, -⟩
  · exact h.ge
  · omega

/-- A span starts behind every solid character before its keyword. -/
theorem lt_start
    (hp : SolidAt text p) (hlt : p < k) :
    p < (deletionSpan text k e).1 := by
  rcases deletionSpan_start text k e with h | ⟨h, hspaces⟩
  · exact hlt.trans_eq h.symm
  · rw [h]
    by_contra hle
    obtain ⟨c, hc, hsolid⟩ := hp
    have hmem : c ∈ slice text (lineStart text k) k := by
      refine List.mem_of_getElem? (i := p - lineStart text k) ?_
      rw [slice, List.getElem?_drop, List.getElem?_take,
        Nat.add_sub_cancel' (Nat.le_of_not_lt hle), if_pos hlt]
      exact hc
    rw [hspaces c hmem] at hsolid
    cases hsolid

/-- A span ends before every solid character behind its block. -/
theorem stop_le
    (hp : SolidAt text p) (hle : e ≤ p) :
    (deletionSpan text k e).2 ≤ p := by
  rcases deletionSpan_stop text k e with h | ⟨q, h, -, -, hsolid⟩
  · omega
  · have := hsolid p hle hp
    omega

theorem stop_le_length
    (h : e ≤ text.length) :
    (deletionSpan text k e).2 ≤ text.length := by
  rcases deletionSpan_stop text k e with hstop | ⟨p, hstop, -, hp, -⟩
  · omega
  · have := (List.getElem?_eq_some_iff.mp hp).1
    omega

/-- The spans of two blocks that stand one behind the other are apart. -/
theorem stop_le_start
    {k' e' : Nat} (hke : k < e) (hle : e ≤ k')
    (hend : SolidAt text (e - 1)) (hword : SolidAt text k') :
    (deletionSpan text k e).2 ≤ (deletionSpan text k' e').1 := by
  have hstart : e - 1 < (deletionSpan text k' e').1 := lt_start hend (by omega)
  rcases deletionSpan_start text k' e' with h | ⟨h, -⟩
  · rw [h]
    exact stop_le hword hle
  · rcases deletionSpan_stop text k e with hstop | ⟨p, hstop, -, hnewline, hbefore⟩
    · omega
    · have := lt_lineStart hnewline (hbefore k' hle hword)
      omega

end DeletionSpan

section Scans

variable {text : Str} {limit : Nat}

/-- What a scan that returns has done: it has reached the end, gone on behind its
position, or found a block and scanned it and what follows it. -/
theorem findFrom_cases
    {i depth : Nat} {blocks : List AttrBlock}
    (h : findFrom text limit i depth = .ok blocks) :
    blocks = [] ∨
    (∃ j d, i < j ∧ findFrom text limit j d = .ok blocks) ∨
    ∃ brace close key nested rest, WordAt text i ∧
      blockBrace text (wordEnd text i limit) limit = some brace ∧
      scanMessage text brace limit = .ok close ∧
      findFrom text (close - 1) (brace + 1) 0 = .ok nested ∧
      findFrom text limit close depth = .ok rest ∧
      blocks = ⟨(deletionSpan text i (contentEnd text limit close)).1,
        (deletionSpan text i (contentEnd text limit close)).2, key⟩ :: (nested ++ rest) := by
  cases hpeek : peek text limit i with
  | none =>
      rw [findFrom] at h
      split at h
      · split_ifs at h
        exact Or.inl (Except.ok.inj h).symm
      · next c hc =>
          rw [hpeek] at hc
          cases hc
  | some c =>
      rw [findFrom_step hpeek] at h
      have hstop := lt_wordEnd text i limit
      cases hskip : skipOpaque text i limit c with
      | some result =>
          cases result with
          | error e =>
              rw [hskip] at h
              cases h
          | ok j =>
              rw [hskip] at h
              exact Or.inr (Or.inl ⟨j, depth, (lt_of_skipOpaque hpeek hskip).1, h⟩)
      | none =>
          simp only [hskip] at h
          split_ifs at h with hopen hclose hdepth hword hattributes
          · exact Or.inr (Or.inl ⟨i + 1, _, Nat.lt_succ_self i, h⟩)
          · exact Or.inr (Or.inl ⟨i + 1, _, Nat.lt_succ_self i, h⟩)
          · cases hbrace : blockBrace text (wordEnd text i limit) limit with
            | none =>
                rw [hbrace] at h
                exact Or.inr (Or.inl ⟨_, _, hstop, h⟩)
            | some brace =>
                simp only [hbrace] at h
                cases hmessage : scanMessage text brace limit with
                | error e =>
                    rw [hmessage] at h
                    cases h
                | ok close =>
                    simp only [hmessage] at h
                    obtain ⟨key, -, h⟩ := Matching.bind_ok_iff.mp h
                    obtain ⟨nested, hnested, h⟩ := Matching.bind_ok_iff.mp h
                    obtain ⟨rest, hrest, h⟩ := Matching.bind_ok_iff.mp h
                    exact Or.inr (Or.inr ⟨brace, close, key, nested, rest,
                      ⟨c, getElem?_of_peek hpeek, hword⟩, rfl, hmessage, hnested, hrest,
                      (Except.ok.inj h).symm⟩)
          · exact Or.inr (Or.inl ⟨_, _, hstop, h⟩)
          · exact Or.inr (Or.inl ⟨i + 1, _, Nat.lt_succ_self i, h⟩)

/-- A message that is closed ends with a brace. -/
theorem peek_of_scanMessageFrom
    {i depth close : Nat} (h : scanMessageFrom text limit i depth = .ok close) :
    text[close - 1]? = some '}' := by
  fun_induction scanMessageFrom with
  | case1 => cases h
  | case2 => cases h
  | case3 i depth c hpeek k hopaque ih => exact ih h
  | case4 i depth hpeek _ ih => exact ih h
  | case5 i hpeek _ _ =>
      cases h
      exact getElem?_of_peek hpeek
  | case6 i depth hpeek _ _ _ ih => exact ih h
  | case7 i depth c hpeek _ _ _ ih => exact ih h

theorem peek_of_blockBrace
    {i brace : Nat} (h : blockBrace text i limit = some brace) :
    text[brace]? = some '{' := by
  unfold blockBrace at h
  simp only at h
  split_ifs at h with h1 h2 h2
  · cases h
    exact getElem?_of_peek h2
  · cases h
    exact getElem?_of_peek h2

theorem solidAt_close
    {brace close : Nat} (h : scanMessage text brace limit = .ok close) :
    SolidAt text (close - 1) := by
  unfold scanMessage at h
  split_ifs at h
  exact ⟨'}', peek_of_scanMessageFrom h, rfl⟩

theorem contentEnd_bounds
    {brace close : Nat} (h : scanMessage text brace limit = .ok close) :
    close ≤ contentEnd text limit close ∧ contentEnd text limit close ≤ limit ∧
      SolidAt text (contentEnd text limit close - 1) := by
  have hclose := scanMessage_bounds h
  unfold contentEnd
  split_ifs with hsemicolon
  · have hlt := lt_of_peek hsemicolon
    exact ⟨by omega, hlt, ';', getElem?_of_peek hsemicolon, rfl⟩
  · exact ⟨le_rfl, hclose.2, solidAt_close h⟩

/-- A word does not start at the semicolon behind a block. -/
theorem contentEnd_le_of_wordAt
    {close k : Nat} (hle : close ≤ k) (hword : WordAt text k) :
    contentEnd text limit close ≤ k := by
  unfold contentEnd
  split_ifs with hsemicolon
  · rcases Nat.lt_or_eq_of_le hle with hlt | rfl
    · exact hlt
    · obtain ⟨c, hc, hstart⟩ := hword
      rw [getElem?_of_peek hsemicolon] at hc
      cases hc
      cases hstart
  · exact hle

theorem FoundBetween.mono
    {lo hi lo' hi' : Nat} {b : AttrBlock} (h : FoundBetween text lo hi b)
    (hlo : lo' ≤ lo) (hhi : hi ≤ hi') :
    FoundBetween text lo' hi' b := by
  obtain ⟨k, e, hk, hke, he, hrest⟩ := h
  exact ⟨k, e, hlo.trans hk, hke, he.trans hhi, hrest⟩

/-- A scan finds its blocks between its position and its limit. -/
theorem foundBetween_of_findFrom
    {i depth : Nat} {blocks : List AttrBlock}
    (h : findFrom text limit i depth = .ok blocks) :
    ∀ b ∈ blocks, FoundBetween text i limit b := by
  induction hn : limit - i using Nat.strong_induction_on generalizing limit i depth blocks with
  | _ n ih =>
      subst hn
      rcases Nat.lt_or_ge i limit with hlt | hge
      swap
      · have hnone : peek text limit i = none := by
          unfold peek
          rw [if_neg (Nat.not_lt.mpr hge)]
        rw [findFrom] at h
        split at h
        · split_ifs at h
          rw [← Except.ok.inj h]
          simp
        · next c hc =>
            rw [hnone] at hc
            cases hc
      rcases findFrom_cases h with rfl | ⟨j, d, hj, hfind⟩ |
        ⟨brace, close, key, nested, rest, hword, hbrace, hmessage, hnested, hrest, rfl⟩
      · simp
      · intro b hb
        exact (ih (limit - j) (by omega) hfind rfl b hb).mono hj.le le_rfl
      · have hle := le_of_blockBrace hbrace
        have hstop := lt_wordEnd text i limit
        have hclose := scanMessage_bounds hmessage
        obtain ⟨hend, hendLe, hsolid⟩ := contentEnd_bounds hmessage
        intro b hb
        rcases List.mem_cons.mp hb with rfl | hb
        · exact ⟨i, contentEnd text limit close, le_rfl, by omega, hendLe, hword, hsolid, rfl, rfl⟩
        · rcases List.mem_append.mp hb with hb | hb
          · exact (ih _ (by omega) hnested rfl b hb).mono (by omega) (by omega)
          · exact (ih _ (by omega) hrest rfl b hb).mono (by omega) le_rfl

/-- The blocks inside a block have spans in its span. -/
theorem inside_of_nested
    {i brace close : Nat} {nested : List AttrBlock}
    (hbrace : blockBrace text (wordEnd text i limit) limit = some brace)
    (hmessage : scanMessage text brace limit = .ok close)
    (hnested : findFrom text (close - 1) (brace + 1) 0 = .ok nested)
    (key : Option CodePoints) :
    ∀ b ∈ nested, Inside b ⟨(deletionSpan text i (contentEnd text limit close)).1,
      (deletionSpan text i (contentEnd text limit close)).2, key⟩ := by
  intro b hb
  obtain ⟨k, e, hk, -, he, -, -, hstart, hstop⟩ := foundBetween_of_findFrom hnested b hb
  have hle := le_of_blockBrace hbrace
  have hlt := lt_wordEnd text i limit
  have hclose := scanMessage_bounds hmessage
  have hopen : SolidAt text brace := ⟨'{', peek_of_blockBrace hbrace, rfl⟩
  have hfirst := start_le_keyword text i (contentEnd text limit close)
  have hlast := end_le_stop text i (contentEnd text limit close)
  have hend := (contentEnd_bounds hmessage).1
  have hbehind : brace < b.start := by
    rw [hstart]
    exact lt_start hopen (by omega)
  have hbefore : b.stop ≤ close - 1 := by
    rw [hstop]
    exact stop_le (solidAt_close hmessage) he
  constructor
  · dsimp only
    omega
  · dsimp only
    omega

/-- Blocks that were found one behind the other have spans one behind the other. -/
theorem FoundBetween.apart
    {lo mid mid' hi : Nat} {a b : AttrBlock}
    (ha : FoundBetween text lo mid a) (hb : FoundBetween text mid' hi b) (hle : mid ≤ mid') :
    a.stop ≤ b.start := by
  obtain ⟨k, e, -, hke, he, -, hsolid, -, hstop⟩ := ha
  obtain ⟨k', e', hk', -, -, hword, -, hstart, -⟩ := hb
  rw [hstop, hstart]
  exact stop_le_start hke (by omega) hsolid hword.solidAt

/-- The blocks of a scan, in the order in which they are found: a span ends before the
next ones or contains them. -/
theorem precedes_of_findFrom
    {i depth : Nat} {blocks : List AttrBlock}
    (h : findFrom text limit i depth = .ok blocks) :
    blocks.Pairwise Precedes := by
  induction hn : limit - i using Nat.strong_induction_on generalizing limit i depth blocks with
  | _ n ih =>
      subst hn
      rcases Nat.lt_or_ge i limit with hlt | hge
      swap
      · have hnil : blocks = [] := by
          refine List.eq_nil_iff_forall_not_mem.mpr fun b hb => ?_
          obtain ⟨k, e, hk, hke, he, -⟩ := foundBetween_of_findFrom h b hb
          omega
        rw [hnil]
        exact List.Pairwise.nil
      rcases findFrom_cases h with rfl | ⟨j, d, hj, hfind⟩ |
        ⟨brace, close, key, nested, rest, hword, hbrace, hmessage, hnested, hrest, rfl⟩
      · exact List.Pairwise.nil
      · exact ih (limit - j) (by omega) hfind rfl
      · have hle := le_of_blockBrace hbrace
        have hstop := lt_wordEnd text i limit
        have hclose := scanMessage_bounds hmessage
        obtain ⟨hend, hendLe, hsolid⟩ := contentEnd_bounds hmessage
        have hfound := foundBetween_of_findFrom hnested
        have hfound' := foundBetween_of_findFrom hrest
        refine List.pairwise_cons.mpr ⟨?_, List.pairwise_append.mpr
          ⟨ih _ (by omega) hnested rfl, ih _ (by omega) hrest rfl, ?_⟩⟩
        · intro b hb
          rcases List.mem_append.mp hb with hb | hb
          · exact Or.inr (inside_of_nested hbrace hmessage hnested key b hb)
          · obtain ⟨k, e, hk, hke, he, hwordk, hsolidk, hstartk, hstopk⟩ := hfound' b hb
            have hbehind : contentEnd text limit close ≤ k := contentEnd_le_of_wordAt hk hwordk
            refine Or.inl ?_
            rw [hstartk]
            exact stop_le_start (by omega) hbehind hsolid hwordk.solidAt
        · intro a ha b hb
          exact Or.inl ((hfound a ha).apart (hfound' b hb) (by omega))

end Scans

section Choosing

theorem Precedes.spanLe
    {a b : AttrBlock} (h : Precedes a b) (hb : b.start ≤ b.stop) (ha : a.start < a.stop) :
    Backup.spanLe a b = true := by
  simp only [Backup.spanLe, Bool.or_eq_true, decide_eq_true_eq, Bool.and_eq_true, beq_iff_eq]
  rcases h with h | ⟨h, h'⟩
  · omega
  · omega

/-- Of blocks in this order the outermost ones are chosen. -/
theorem chooseBlocks_precedes
    {bs chosen : List AttrBlock} (hbs : bs.Pairwise Precedes)
    (hspans : ∀ b ∈ bs, b.start ≤ b.stop)
    (hlast : ∀ last ∈ chosen.head?, ∀ b ∈ bs, Precedes last b) :
    ∃ more, chooseBlocks chosen bs = .ok (chosen.reverse ++ more) ∧ more.Sublist bs ∧
      more.Pairwise (fun a b => a.stop ≤ b.start) ∧
      (∀ last ∈ chosen.head?, ∀ b ∈ more, last.stop ≤ b.start) ∧
      ∀ b ∈ bs, ∃ c, (c ∈ chosen.head? ∨ c ∈ more) ∧ Inside b c := by
  induction bs generalizing chosen with
  | nil =>
      refine ⟨[], ?_, List.Sublist.refl _, List.Pairwise.nil, by simp, by simp⟩
      cases chosen with
      | nil => rfl
      | cons last chosen => rw [chooseBlocks, List.append_nil]
  | cons b bs ih =>
      obtain ⟨hb, hrest⟩ := List.pairwise_cons.mp hbs
      have hspan := hspans b List.mem_cons_self
      have hspans' : ∀ c ∈ bs, c.start ≤ c.stop :=
        fun c hc => hspans c (List.mem_cons_of_mem _ hc)
      -- The block is chosen, behind the last chosen one.
      have hchosen : (∀ last ∈ chosen.head?, last.stop ≤ b.start) →
          chooseBlocks chosen (b :: bs) = chooseBlocks (b :: chosen) bs →
          ∃ more, chooseBlocks chosen (b :: bs) = .ok (chosen.reverse ++ more) ∧
            more.Sublist (b :: bs) ∧ more.Pairwise (fun a b => a.stop ≤ b.start) ∧
            (∀ last ∈ chosen.head?, ∀ c ∈ more, last.stop ≤ c.start) ∧
            ∀ d ∈ b :: bs, ∃ c, (c ∈ chosen.head? ∨ c ∈ more) ∧ Inside d c := by
        intro hbehind heq
        obtain ⟨more, hrun, hsub, hpairs, hafter, hinside⟩ := @ih (b :: chosen) hrest
          hspans' (by simpa using hb)
        have hbmore : ∀ c ∈ more, b.stop ≤ c.start := hafter b rfl
        refine ⟨b :: more, ?_, hsub.cons_cons b, List.pairwise_cons.mpr ⟨hbmore, hpairs⟩, ?_, ?_⟩
        · rw [heq, hrun, List.reverse_cons, List.append_assoc, List.singleton_append]
        · intro last hl c hc
          have hfirst := hbehind last hl
          rcases List.mem_cons.mp hc with rfl | hc
          · exact hfirst
          · have := hbmore c hc
            omega
        · intro d hd
          rcases List.mem_cons.mp hd with rfl | hd
          · exact ⟨d, Or.inr List.mem_cons_self, le_rfl, le_rfl⟩
          · obtain ⟨c, hc, hin⟩ := hinside d hd
            refine ⟨c, Or.inr ?_, hin⟩
            rcases hc with hc | hc
            · cases hc
              exact List.mem_cons_self
            · exact List.mem_cons_of_mem _ hc
      cases chosen with
      | nil => exact hchosen (by simp) rfl
      | cons last chosen =>
          have hprec := hlast last rfl b List.mem_cons_self
          by_cases hinside : last.start ≤ b.start ∧ b.stop ≤ last.stop
          · obtain ⟨more, hrun, hsub, hpairs, hafter, hin⟩ := @ih (last :: chosen) hrest
              hspans' (fun l hl c hc => hlast l hl c (List.mem_cons_of_mem _ hc))
            refine ⟨more, ?_, hsub.cons b, hpairs, hafter, ?_⟩
            · rw [chooseBlocks, if_pos hinside, hrun]
            · intro d hd
              rcases List.mem_cons.mp hd with rfl | hd
              · exact ⟨last, Or.inl rfl, hinside⟩
              · exact hin d hd
          · have hbehind : last.stop ≤ b.start := hprec.resolve_right hinside
            refine hchosen (by simpa using hbehind) ?_
            rw [chooseBlocks, if_neg hinside, if_neg (Nat.not_lt.mpr hbehind)]

end Choosing

section Excising

variable {text : Str}

/-- The characters from a position on that are in none of the spans. -/
def keptFrom (text : Str) (cursor : Nat) (blocks : List AttrBlock) : Str :=
  (((text.drop cursor).zipIdx cursor).filter fun p =>
    !blocks.any fun b => b.start ≤ p.2 && p.2 < b.stop).map Prod.fst

theorem keptFrom_zero (text : Str) (blocks : List AttrBlock) :
    keptFrom text 0 blocks = keptText text blocks := rfl

theorem filter_zipIdx_of_kept
    (part : Str) (cursor : Nat) (keep : Char × Nat → Bool)
    (h : ∀ p ∈ part.zipIdx cursor, keep p = true) :
    ((part.zipIdx cursor).filter keep).map Prod.fst = part := by
  rw [List.filter_eq_self.mpr h, List.zipIdx_map_fst]

/-- What stands before the first span is kept, what is in it is not. -/
theorem keptFrom_cons
    {b : AttrBlock} {blocks : List AttrBlock} {cursor : Nat}
    (hcursor : cursor ≤ b.start) (hspan : b.start ≤ b.stop) (hlength : b.stop ≤ text.length)
    (hafter : ∀ c ∈ blocks, b.stop ≤ c.start) :
    keptFrom text cursor (b :: blocks) =
      slice text cursor b.start ++ keptFrom text b.stop blocks := by
  have hbefore : text.drop cursor =
      slice text cursor b.start ++ (slice text b.start b.stop ++ text.drop b.stop) := by
    rw [slice_eq_take, slice_eq_take]
    have hsecond : text.drop b.stop = (text.drop b.start).drop (b.stop - b.start) := by
      rw [List.drop_drop, Nat.add_sub_cancel' hspan]
    have hfirst : text.drop b.start = (text.drop cursor).drop (b.start - cursor) := by
      rw [List.drop_drop, Nat.add_sub_cancel' hcursor]
    rw [hsecond, List.take_append_drop, hfirst, List.take_append_drop]
  have hlen : cursor + (slice text cursor b.start).length = b.start :=
    length_slice hcursor (hspan.trans hlength)
  have hlen' : b.start + (slice text b.start b.stop).length = b.stop :=
    length_slice hspan hlength
  have hposition : ∀ {part : Str} {k : Nat} {p : Char × Nat}, p ∈ part.zipIdx k →
      k ≤ p.2 ∧ p.2 < k + part.length := by
    rintro part k ⟨c, n⟩ hp
    have hmem := List.mem_zipIdx hp
    exact ⟨hmem.1, hmem.2.1⟩
  unfold keptFrom
  rw [hbefore, List.zipIdx_append, List.zipIdx_append, hlen, hlen', List.filter_append,
    List.filter_append, List.map_append, List.map_append]
  congr 1
  · refine filter_zipIdx_of_kept _ _ _ fun p hp => ?_
    obtain ⟨hge, hlt⟩ := hposition hp
    rw [hlen] at hlt
    rw [Bool.not_eq_true', List.any_eq_false]
    intro c hc hin
    simp only [Bool.and_eq_true, decide_eq_true_eq] at hin
    rcases List.mem_cons.mp hc with rfl | hc
    · omega
    · have := hafter c hc
      omega
  · have hnone : ((slice text b.start b.stop).zipIdx b.start).filter (fun p =>
        !(b :: blocks).any fun b => b.start ≤ p.2 && p.2 < b.stop) = [] := by
      refine List.filter_eq_nil_iff.mpr fun p hp => ?_
      obtain ⟨hge, hlt⟩ := hposition hp
      rw [hlen'] at hlt
      rw [Bool.not_eq_true', Bool.not_eq_false]
      refine List.any_eq_true.mpr ⟨b, List.mem_cons_self, ?_⟩
      simp only [Bool.and_eq_true, decide_eq_true_eq]
      exact ⟨hge, hlt⟩
    rw [hnone, List.map_nil, List.nil_append]
    refine congrArg (List.map Prod.fst) (List.filter_congr fun p hp => ?_)
    have hge := (hposition hp).1
    rw [List.any_cons]
    have hnot : (decide (b.start ≤ p.2) && decide (p.2 < b.stop)) = false := by
      simp only [Bool.and_eq_false_iff, decide_eq_false_iff_not]
      omega
    rw [hnot, Bool.false_or]

/-- Spans that stand one behind the other are cut out. -/
theorem excise_eq
    {blocks : List AttrBlock} {cursor : Nat}
    (hpairs : blocks.Pairwise fun a b => a.stop ≤ b.start)
    (hspans : ∀ b ∈ blocks, b.start ≤ b.stop ∧ b.stop ≤ text.length)
    (hcursor : ∀ b ∈ blocks.head?, cursor ≤ b.start) :
    excise text cursor blocks = .ok (keptFrom text cursor blocks) := by
  induction blocks generalizing cursor with
  | nil =>
      have hall := filter_zipIdx_of_kept (text.drop cursor) cursor
        (fun p => !([] : List AttrBlock).any fun b => b.start ≤ p.2 && p.2 < b.stop)
        fun _ _ => rfl
      rw [excise, keptFrom, hall]
  | cons b blocks ih =>
      obtain ⟨hafter, hrest⟩ := List.pairwise_cons.mp hpairs
      obtain ⟨hspan, hlength⟩ := hspans b List.mem_cons_self
      have hle := hcursor b rfl
      have htail := @ih b.stop hrest (fun c hc => hspans c (List.mem_cons_of_mem _ hc))
        (fun c hc => hafter c (List.mem_of_mem_head? hc))
      rw [excise, if_neg (Nat.not_lt.mpr hle), htail,
        keptFrom_cons hle hspan hlength hafter]
      rfl

/-- The chosen spans cover what all of them cover. -/
theorem keptText_eq_of_chosen
    {blocks chosen : List AttrBlock} (hsub : ∀ b ∈ chosen, b ∈ blocks)
    (hinside : ∀ b ∈ blocks, ∃ c ∈ chosen, Inside b c) :
    keptText text chosen = keptText text blocks := by
  unfold keptText
  refine congrArg (List.map Prod.fst) (List.filter_congr fun p _ => ?_)
  refine congrArg not (Bool.eq_iff_iff.mpr ?_)
  simp only [List.any_eq_true, Bool.and_eq_true, decide_eq_true_eq]
  constructor
  · rintro ⟨b, hb, hin⟩
    exact ⟨b, hsub b hb, hin⟩
  · rintro ⟨b, hb, hge, hlt⟩
    obtain ⟨c, hc, hstart, hstop⟩ := hinside b hb
    exact ⟨c, hc, hstart.trans hge, hlt.trans_le hstop⟩

end Excising

end Backup
end YdbSnippets
