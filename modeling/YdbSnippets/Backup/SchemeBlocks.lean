import YdbSnippets.Backup.SchemeKeys

/-!
# The blocks of a scheme of tokens

The block finder sees the `attributes` blocks whose brace it can reach over
blanks.  It raises where a key of one of these cannot be read, and otherwise
the spans that it finds cut the text into segments.
-/

namespace YdbSnippets
namespace Backup

open Python

variable {text : Str} {i limit : Nat}

section Braces

theorem blockBrace_eq_none
    (h : ∀ c, peek text limit (skipWs text i limit) = some c → c ≠ ':' ∧ c ≠ '{') :
    blockBrace text i limit = none := by
  unfold blockBrace
  dsimp only
  have hcolon : peek text limit (skipWs text i limit) ≠ some ':' :=
    fun hc => (h ':' hc).1 rfl
  have hbrace : peek text limit (skipWs text i limit) ≠ some '{' :=
    fun hc => (h '{' hc).2 rfl
  rw [if_neg hcolon, if_neg hbrace]

/-- Behind plain whitespace and a colon the finder looks for the brace once more. -/
theorem blockBrace_colon
    {g : Spacing} {rest : Str}
    (hg : g.Plain)
    (h : slice text i limit = g.text ++ ':' :: rest) :
    blockBrace text i limit =
      if peek text limit (skipWs text (i + g.text.length + 1) limit) = some '{' then
        some (skipWs text (i + g.text.length + 1) limit) else none := by
  have hskip : skipWs text i limit = i + g.text.length := by
    refine (skipWs_spacing g ?_ h).1 hg
    intro c hc
    cases hc
    rfl
  unfold blockBrace
  dsimp only
  rw [hskip, peek_of_cons (slice_after h), if_pos rfl]

theorem hidesBrace_of_not_plain
    {g : Spacing} {rest : Str}
    (hg : ¬ g.Plain)
    (hrest : ∀ c ∈ rest.head?, isWs c = false) :
    HidesBrace (g.text ++ rest) := by
  intro text i limit h
  obtain ⟨c, hc, -, hcolon, hbrace⟩ := (skipWs_spacing g hrest h).2 hg
  refine blockBrace_eq_none fun d hd => ?_
  rw [hc] at hd
  cases hd
  exact ⟨hcolon, hbrace⟩

/-- A comment behind `attributes` hides the brace. -/
theorem Ahead.hidesBrace
    {a : Ahead} (ha : ¬ a.Plain) (rest : Str) :
    HidesBrace (a.render ++ '{' :: rest) := by
  have hbrace : ∀ c ∈ ('{' :: rest).head?, isWs c = false := by
    intro c hc
    cases hc
    rfl
  cases a with
  | spacing between => exact hidesBrace_of_not_plain ha hbrace
  | colon before after =>
      simp only [Ahead.render, List.append_assoc, List.cons_append]
      by_cases hbefore : before.Plain
      · intro text i limit h
        have hafter : ¬ after.Plain := fun hafter => ha ⟨hbefore, hafter⟩
        rw [blockBrace_colon hbefore h, if_neg]
        obtain ⟨c, hc, -, -, hne⟩ :=
          (skipWs_spacing after hbrace (slice_tail (slice_after h))).2 hafter
        rw [hc]
        simpa using hne
      · refine hidesBrace_of_not_plain hbefore ?_
        intro c hc
        cases hc
        rfl

/-- The brace of a block is found over blanks. -/
theorem Ahead.blockBrace_eq
    {a : Ahead} (ha : a.Plain) {rest : Str}
    (h : slice text i limit = a.render ++ '{' :: rest) :
    blockBrace text i limit = some (i + a.render.length) := by
  have hhead : ∀ c ∈ ('{' :: rest).head?, isWs c = false := by
    intro c hc
    cases hc
    rfl
  have hbrace := peek_of_cons (slice_after h)
  cases a with
  | spacing between =>
      have hskip := (skipWs_spacing between hhead h).1 ha
      have hnone : peek text limit (skipWs text i limit) ≠ some ':' := by
        rw [hskip]
        intro hcolon
        cases hbrace.symm.trans hcolon
      unfold blockBrace
      dsimp only
      rw [if_neg hnone, hskip]
      exact if_pos hbrace
  | colon before after =>
      simp only [Ahead.render, List.append_assoc, List.cons_append] at h
      have hskip := (skipWs_spacing after hhead (slice_tail (slice_after h))).1 ha.2
      have hend : i + before.text.length + 1 + after.text.length =
          i + (Ahead.colon before after).render.length := by
        simp only [Ahead.render, List.length_append, List.length_cons]
        omega
      rw [blockBrace_colon ha.1 h, hskip, hend, hbrace, if_pos rfl]

/-- Where no message follows, no brace is found. -/
theorem Scheme.hidesBrace
    {s : Scheme} {rest : Str}
    (hs : ¬ s.OpensMessage)
    (hrest : Ends rest) :
    HidesBrace (s.render ++ rest) := by
  intro text i limit h
  by_cases hcolon : ∃ gap tail, s = .token gap .colon tail ∧ gap.Plain
  · obtain ⟨gap, tail, rfl, hplain⟩ := hcolon
    have htail : ¬ tail.OpensBrace := fun hopens => hs ⟨rfl, hopens⟩
    simp only [Scheme.render, List.append_assoc] at h
    rw [blockBrace_colon hplain h, if_neg]
    intro hc
    rcases tail.peek_skipWs hrest (slice_tail (slice_after h)) hc with
      ⟨-, hhead⟩ | ⟨-, -, hne⟩
    · exact htail ((tail.head_afterGap hrest _ hhead).2.2.2.2 rfl)
    · exact hne rfl
  · refine blockBrace_eq_none fun c hc => ?_
    rcases s.peek_skipWs hrest h hc with ⟨hplain, hhead⟩ | ⟨-, hne⟩
    · obtain ⟨-, -, htoken, -, hbrace⟩ := s.head_afterGap hrest _ hhead
      refine ⟨fun heq => ?_, fun heq => ?_⟩
      · obtain ⟨tail, htail⟩ := htoken heq
        exact hcolon ⟨_, tail, htail, hplain⟩
      · cases s with
        | done gap => exact hbrace heq
        | token gap tok tail => exact hbrace heq
        | message gap opening inner semicolon tail => exact hs (hbrace heq)
    · exact hne

end Braces

section Steps

theorem findFrom_walks (text : Str) (limit depth : Nat) :
    Walks text limit (fun w rest => w = attributesWord → HidesBrace rest)
      (fun i => findFrom text limit i depth) where
  toPasses := findFrom_passes text limit depth
  slash := by
    intro i hc hnext
    simp only [findFrom_step hc, skipOpaque_slash hnext,
      if_neg (show '/' ≠ '{' by decide), if_neg (show '/' ≠ '}' by decide),
      show isWordStart '/' = false by decide, Bool.false_eq_true, if_false]

/-- A token is no block. -/
theorem findFrom_token
    {tok : Token} {tail : Scheme} {rest : Str} (depth : Nat)
    (hname : tok.Names attributesWord → ¬ tail.OpensMessage)
    (htail : tail.Separated tok.wordy)
    (hrest : Ends rest)
    (h : slice text i limit = tok.render ++ (tail.render ++ rest)) :
    findFrom text limit i depth = findFrom text limit (i + tok.render.length) depth := by
  obtain ⟨hends, hslash⟩ := tail.follows htail hrest
  refine (findFrom_walks text limit depth).token (fun w _ _ hne heq => absurd heq hne) tok ?_
    hends hslash h
  rintro n rfl heq
  exact Scheme.hidesBrace (hname heq) hrest

/-- The finder passes into a message that is no block, and out of it. -/
theorem findFrom_opening
    {opening : Opening} (hseen : ¬ opening.Seen) {rest : Str} (depth : Nat)
    (h : slice text i limit = opening.render ++ rest) :
    findFrom text limit i depth =
      findFrom text limit (i + opening.render.length) (depth + 1) := by
  have hname : ∀ ahead, opening = .attributes ahead → attributesWord = attributesWord →
      HidesBrace (ahead.render ++ '{' :: rest) := by
    rintro ahead rfl -
    exact ahead.hidesBrace hseen rest
  obtain ⟨brace, hlength, hpass, hbrace⟩ :=
    (findFrom_walks text limit depth).opening opening hname h
  rw [← hlength]
  exact hpass.trans (findFrom_open (peek_of_cons hbrace) depth)

/-- What follows a message does not start with a semicolon. -/
theorem Scheme.head_ne_semicolon
    {s : Scheme} {rest : Str}
    (hs : ¬ s.StartsSemicolon)
    (hrest : Ends rest) :
    ∀ c ∈ (s.render ++ rest).head?, c ≠ ';' := by
  rw [s.render_eq, List.append_assoc]
  by_cases hempty : s.firstGap.text = []
  · rw [hempty]
    rintro c hc rfl
    obtain ⟨tail, htail⟩ := (s.head_afterGap hrest _ hc).2.2.2.1 rfl
    rw [htail] at hs
    exact hs ⟨hempty, rfl⟩
  · obtain ⟨d, more, heq⟩ := List.exists_cons_of_ne_nil hempty
    intro c hc
    rw [heq] at hc
    cases hc
    rcases s.firstGap.isFiller.head d (by rw [heq]; rfl) with hspacing | rfl
    · exact (isSpacing_spec hspacing).2.2.2.2
    · decide

/-- What the finder does at a block that it sees. -/
theorem findFrom_seen
    {opening : Opening} {inner : Scheme} {rest : Str}
    (semicolon : Bool) (depth brace close stop : Nat)
    (hseen : opening.Seen)
    (hinner : inner.Separated false)
    (hrest : ∀ c ∈ rest.head?, c ≠ ';')
    (h : slice text i limit = opening.render ++ (inner.render ++ (closing semicolon ++ rest)))
    (hbrace : brace + 1 = i + opening.render.length)
    (hclose : close = brace + (inner.render.length + 2))
    (hstop : stop = brace + 1 + inner.render.length + (closing semicolon).length) :
    findFrom text limit i depth =
        ((extractKey text brace close).bind fun key =>
          (findFrom text (close - 1) (brace + 1) 0).bind fun nested =>
            (findFrom text limit stop depth).map fun blocks =>
              ⟨(deletionSpan text i stop).1, (deletionSpan text i stop).2, key⟩ ::
                (nested ++ blocks)) ∧
      slice text brace close = '{' :: (inner.render ++ ['}']) ∧
      slice text (brace + 1) (close - 1) = inner.render := by
  cases opening with
  | brace => exact absurd hseen id
  | attributes ahead =>
      simp only [Opening.render, List.append_assoc, List.singleton_append] at h
      have hat : brace = i + attributesWord.length + ahead.render.length := by
        simp only [Opening.render, List.length_append, List.length_singleton] at hbrace
        omega
      have hahead := slice_after h
      have hfind := ahead.blockBrace_eq hseen hahead
      rw [← hat] at hfind
      have hopen := slice_after hahead
      rw [← hat] at hopen
      have hscan : scanMessage text brace limit = .ok close := by
        cases semicolon <;>
          · rw [scanMessage_scheme hinner hopen, hclose]
      exact findFrom_attributes semicolon depth brace close stop (ahead.endsWord _) hfind hscan
        hrest h hat hclose hstop

end Steps

end Backup
end YdbSnippets
