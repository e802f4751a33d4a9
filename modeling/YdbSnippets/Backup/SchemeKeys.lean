import YdbSnippets.Backup.SchemeWalking

/-!
# The keys of a scheme of tokens

What the brace matcher and the key extractor make of the tokens of a block.
-/

namespace YdbSnippets
namespace Backup

open Python

variable {text : Str} {i limit : Nat}

section Matcher

theorem skipOpaque_slash
    (h : peek text limit (i + 1) ≠ some '/') :
    skipOpaque text i limit '/' = none := by
  unfold skipOpaque
  rw [if_neg (by decide), if_neg (by decide), if_neg]
  simpa using h

theorem scanMessageFrom_depths (text : Str) (limit : Nat) :
    Depths text limit 1 (fun d i => scanMessageFrom text limit i d) where
  walks d hd :=
    { (scanMessageFrom_levels text limit).passes d hd with
      slash := by
        intro i hc hnext
        simp only [scanMessageFrom_step hc, skipOpaque_slash hnext,
          if_neg (show '/' ≠ '{' by decide), if_neg (show '/' ≠ '}' by decide)] }
  opens := (scanMessageFrom_levels text limit).opens
  closes := (scanMessageFrom_levels text limit).closes

/-- The brace matcher finds the end of a message. -/
theorem scanMessage_scheme
    {inner : Scheme} {rest : Str}
    (hinner : inner.Separated false)
    (h : slice text i limit = '{' :: (inner.render ++ '}' :: rest)) :
    scanMessage text i limit = .ok (i + (inner.render.length + 2)) := by
  have hbody := slice_tail h
  have hclose := slice_after hbody
  have hends : Ends ('}' :: rest) := ends_closing false rest
  have hpass :=
    (scanMessageFrom_depths text limit).scheme inner (Nat.le_refl 1) hinner hends hbody
  unfold scanMessage
  rw [if_pos (peek_of_cons h), hpass, scanMessageFrom_step (peek_of_cons hclose)]
  simp only [skipOpaque_eq_none (c := '}') (by decide) (by decide) (by decide),
    if_neg (show '}' ≠ '{' by decide), if_true]
  congr 1
  omega

end Matcher

section Strings

variable {R : Type} {ordinary : Str → Str → Prop} {run : Nat → R}

theorem Passes.skipWs
    (hp : Passes text limit ordinary run) (i : Nat) :
    run i = run (skipWs text i limit) := by
  unfold Backup.skipWs
  fun_induction skipWhile isWs text limit i with
  | case1 i c hc hws ih => exact (hp.quiet i c hc (isQuiet_of_isWs hws)).trans ih
  | case2 => rfl
  | case3 => rfl

theorem Passes.readLiterals
    (hp : Passes text limit ordinary run)
    {parts : List CodePoints} {j : Nat}
    (h : readLiterals text limit i = .ok (parts, j)) :
    run i = run j := by
  fun_induction Backup.readLiterals text limit i generalizing parts j with
  | case1 =>
      cases h
      rfl
  | case2 => cases h
  | case3 i c hpeek hquote stop hstop ih =>
      have hskip : skipOpaque text i limit c = some (.ok stop) := by
        unfold skipOpaque
        rw [if_pos hquote, hstop]
      cases hpart : decodeProtoString (slice text i stop) with
      | error e => simp [hpart, bind, Except.bind] at h
      | ok part =>
          cases hmore : Backup.readLiterals text limit (Backup.skipWs text stop limit) with
          | error e => simp [hpart, hmore, bind, Except.bind] at h
          | ok more =>
              simp only [hpart, hmore, bind, Except.bind, pure, Except.pure,
                Except.ok.injEq, Prod.mk.injEq] at h
              obtain ⟨-, rfl⟩ := h
              exact (hp.skip i c stop hpeek hskip).trans
                ((hp.skipWs stop).trans (@ih more.1 more.2 hmore))
  | case4 =>
      cases h
      rfl

/-- The scanners pass over the strings of a key. -/
theorem Passes.readStrings
    (hp : Passes text limit ordinary run)
    {value : Option CodePoints} {j : Nat}
    (h : readStrings text i limit = .ok (value, j)) :
    run i = run j := by
  have hstart : run i = run (if peek text limit (Backup.skipWs text i limit) = some ':' then
      Backup.skipWs text (Backup.skipWs text i limit + 1) limit
        else Backup.skipWs text i limit) := by
    by_cases hcolon : peek text limit (Backup.skipWs text i limit) = some ':'
    · rw [if_pos hcolon]
      exact (hp.skipWs i).trans ((hp.quiet _ ':' hcolon rfl).trans (hp.skipWs _))
    · rw [if_neg hcolon]
      exact hp.skipWs i
  unfold Backup.readStrings at h
  dsimp only at h
  cases hparts : Backup.readLiterals text limit
      (if peek text limit (Backup.skipWs text i limit) = some ':' then
        Backup.skipWs text (Backup.skipWs text i limit + 1) limit
          else Backup.skipWs text i limit) with
  | error e => simp [hparts, bind, Except.bind] at h
  | ok parts =>
      have hend := @Passes.readLiterals _ _ _ _ _ _ hp parts.1 parts.2 hparts
      simp only [hparts, bind, Except.bind, pure, Except.pure] at h
      split_ifs at h <;>
        · cases h
          exact hstart.trans hend

end Strings

section Values

/-- Behind whitespace the scanner stands at the next token if it is plain, and
otherwise at a character that it does not look for. -/
theorem skipWs_spacing
    (g : Spacing) {rest : Str}
    (hrest : ∀ c ∈ rest.head?, isWs c = false)
    (h : slice text i limit = g.text ++ rest) :
    (g.Plain → skipWs text i limit = i + g.text.length) ∧
      (¬ g.Plain → ∃ c, peek text limit (skipWs text i limit) = some c ∧
        isQuote c = false ∧ c ≠ ':' ∧ c ≠ '{') := by
  constructor
  · intro hplain
    exact skipWhile_eq h hplain hrest
  · intro hnot
    obtain ⟨ws, more, hg, hblank, hmore⟩ := g.isFiller.exists_blanks
    rcases hmore with rfl | ⟨c, hc, hws, hother⟩
    · rw [List.append_nil] at hg
      exact absurd (fun c hc => hblank c (hg ▸ hc)) hnot
    · obtain ⟨tail, rfl⟩ : ∃ tail, more = c :: tail := by
        cases more with
        | nil => cases hc
        | cons d tail =>
            cases hc
            exact ⟨tail, rfl⟩
      rw [hg, List.append_assoc] at h
      have hstop : skipWs text i limit = i + ws.length := by
        refine skipWhile_eq h hblank ?_
        intro d hd
        cases hd
        exact hws
      refine ⟨c, ?_, ?_⟩
      · rw [hstop, peek_of_cons (slice_after h)]
      · rcases hother with hspacing | rfl
        · obtain ⟨hquiet, -, -, hcolon, -⟩ := isSpacing_spec hspacing
          obtain ⟨hquote, -, -, hopen, -, -⟩ := isQuiet_iff.mp hquiet
          exact ⟨hquote, hcolon, hopen⟩
        · decide

theorem not_isWs_of_not_isSpacing
    {c : Char} (hc : isSpacing c = false) :
    isWs c = false := by
  cases hws : isWs c with
  | false => rfl
  | true =>
      rw [isSpacing_of_isWs hws] at hc
      cases hc

namespace Scheme

/-- The gap a scheme starts with. -/
def firstGap : Scheme → Spacing
  | done gap => gap
  | token gap _ _ => gap
  | message gap _ _ _ _ => gap

/-- The text behind the first gap. -/
def afterGap : Scheme → Str
  | done _ => []
  | token _ tok rest => tok.render ++ rest.render
  | message _ opening inner semicolon rest =>
      opening.render ++ (inner.render ++ (closing semicolon ++ rest.render))

theorem render_eq (s : Scheme) :
    s.render = s.firstGap.text ++ s.afterGap := by
  cases s with
  | done gap => exact (List.append_nil _).symm
  | token gap tok rest => rfl
  | message gap opening inner semicolon rest => rfl

/-- The next token of a scheme is a literal, a colon or a brace, if the text
behind the gap starts like one. -/
theorem head_afterGap
    (s : Scheme) {rest : Str} (hrest : Ends rest) :
    ∀ c ∈ (s.afterGap ++ rest).head?, isSpacing c = false ∧
      (isQuote c = true → ∃ l tail, s = token s.firstGap (.literal l) tail) ∧
      (c = ':' → ∃ tail, s = token s.firstGap .colon tail) ∧
      (c = ';' → ∃ tail, s = token s.firstGap .semicolon tail) ∧
      (c = '{' → s.OpensBrace) := by
  intro d hd
  cases s with
  | done gap =>
      have hnot : isSpacing d = false ∧ isQuote d ≠ true ∧ d ≠ ':' ∧ d ≠ ';' ∧ d ≠ '{' := by
        rcases hrest d hd with rfl | rfl <;> decide
      exact ⟨hnot.1, fun h => absurd h hnot.2.1, fun h => absurd h hnot.2.2.1,
        fun h => absurd h hnot.2.2.2.1, fun h => absurd h hnot.2.2.2.2⟩
  | token gap tok tail =>
      obtain ⟨c, more, heq, hstart⟩ := tok.exists_cons
      rw [afterGap, List.append_assoc, heq] at hd
      cases hd
      refine ⟨hstart.notSpacing, fun h => ?_, fun h => ?_, fun h => ?_, fun h => ?_⟩
      · obtain ⟨l, rfl⟩ := hstart.quote h
        exact ⟨l, tail, rfl⟩
      · exact ⟨tail, by rw [hstart.colon h]; rfl⟩
      · exact ⟨tail, by rw [hstart.semicolon h]; rfl⟩
      · exact absurd h hstart.notBrace.1
  | message gap opening inner semicolon tail =>
      cases opening with
      | brace =>
          cases hd
          exact ⟨by decide, fun h => absurd h (by decide), fun h => absurd h (by decide),
            fun h => absurd h (by decide), fun _ => trivial⟩
      | attributes ahead =>
          cases hd
          exact ⟨by decide, fun h => absurd h (by decide), fun h => absurd h (by decide),
            fun h => absurd h (by decide), fun h => absurd h (by decide)⟩

/-- What the scanner looks at behind the blanks: the next token, or something
in a gap that is not plain. -/
theorem peek_skipWs
    (s : Scheme) {rest : Str} (hrest : Ends rest)
    (h : slice text i limit = s.render ++ rest)
    {c : Char} (hc : peek text limit (skipWs text i limit) = some c) :
    (s.firstGap.Plain ∧ c ∈ (s.afterGap ++ rest).head?) ∨
      (isQuote c = false ∧ c ≠ ':' ∧ c ≠ '{') := by
  rw [s.render_eq, List.append_assoc] at h
  obtain ⟨hplain, hother⟩ := skipWs_spacing s.firstGap
    (fun c hc => not_isWs_of_not_isSpacing (s.head_afterGap hrest c hc).1) h
  by_cases hgap : s.firstGap.Plain
  · rw [hplain hgap, peek_eq_head?, slice_after h] at hc
    exact Or.inl ⟨hgap, hc⟩
  · obtain ⟨d, hd, hnot⟩ := hother hgap
    rw [hd] at hc
    cases hc
    exact Or.inr hnot

/-- No literal is read where a scheme starts with none, or with a comment. -/
theorem readLiterals_other
    (s : Scheme) {rest : Str} (hrest : Ends rest)
    (hs : ∀ gap l tail, s = token gap (.literal l) tail → ¬ gap.Plain)
    (h : slice text i limit = s.render ++ rest) :
    readLiterals text limit (skipWs text i limit) = .ok ([], skipWs text i limit) := by
  rw [readLiterals]
  split
  · rfl
  · next c hc =>
      have hquote : isQuote c = false := by
        rcases s.peek_skipWs hrest h hc with ⟨hplain, hhead⟩ | ⟨hquote, -⟩
        · cases hcase : isQuote c with
          | false => rfl
          | true =>
              obtain ⟨l, tail, heq⟩ := (s.head_afterGap hrest c hhead).2.1 hcase
              exact absurd hplain (hs _ l tail heq)
        · exact hquote
      rw [if_neg (by simp [hquote])]

end Scheme

/-- The literal behind plain whitespace is the next part that is read. -/
theorem readLiterals_skipWs_literal
    (g : Spacing) (l : Literal) {rest : Str}
    (hg : g.Plain)
    (h : slice text i limit = g.text ++ (l.render ++ rest)) :
    readLiterals text limit (skipWs text i limit) =
      (decodeProtoString l.render).bind fun part =>
        (readLiterals text limit
          (skipWs text (i + g.text.length + l.render.length) limit)).map
            (fun result => (part :: result.1, result.2)) := by
  obtain ⟨c, tail, heq, hstart⟩ := (Token.literal l).exists_cons
  have hhead : ∀ c ∈ (l.render ++ rest).head?, isWs c = false := by
    intro d hd
    rw [show l.render = c :: tail from heq] at hd
    cases hd
    exact not_isWs_of_not_isSpacing hstart.notSpacing
  rw [(skipWs_spacing g hhead h).1 hg]
  exact readLiterals_step l (slice_after h)

/-- Reading goes on with the literals that follow at once. -/
theorem readLiterals_moreLiterals
    (s : Scheme) {rest : Str}
    (hrest : Ends rest)
    (h : slice text i limit = s.render ++ rest) :
    (readLiterals text limit (skipWs text i limit)).toOption.map
      (fun result => result.1.flatten) = s.moreLiterals := by
  induction s generalizing i with
  | done gap =>
      rw [Scheme.readLiterals_other _ hrest (by rintro _ _ _ ⟨⟩) h]
      rfl
  | message gap opening inner semicolon tail _ _ =>
      rw [Scheme.readLiterals_other _ hrest (by rintro _ _ _ ⟨⟩) h]
      rfl
  | token gap tok tail ih =>
      by_cases hread : ∃ l, tok = .literal l ∧ gap.Plain
      · obtain ⟨l, rfl, hplain⟩ := hread
        simp only [Scheme.render, List.append_assoc] at h
        rw [Scheme.moreLiterals, if_pos hplain, readLiterals_skipWs_literal gap l hplain h,
          ← ih (slice_after (slice_after h))]
        cases decodeProtoString l.render with
        | error e => rfl
        | ok part =>
            simp only [Token.render]
            cases readLiterals text limit
                (skipWs text (i + gap.text.length + l.render.length) limit) with
            | error e => rfl
            | ok result => rfl
      · rw [Scheme.readLiterals_other _ hrest ?_ h]
        · cases tok with
          | literal l =>
              rw [Scheme.moreLiterals, if_neg fun hplain => hread ⟨l, rfl, hplain⟩]
              rfl
          | word n => rfl
          | number n => rfl
          | symbol c hc => rfl
        · rintro _ l _ ⟨⟩ hplain
          exact hread ⟨l, rfl, hplain⟩

/-- Where a key is read, it is that of the literals that follow at once. -/
theorem readLiterals_literals
    (s : Scheme) {rest : Str}
    (hrest : Ends rest)
    (h : slice text i limit = s.render ++ rest) :
    (readLiterals text limit (skipWs text i limit)).toOption.bind
      (fun result => if result.1.isEmpty then none else some result.1.flatten) = s.literals := by
  by_cases hread : ∃ gap l tail, s = .token gap (.literal l) tail ∧ gap.Plain
  · obtain ⟨gap, l, tail, rfl, hplain⟩ := hread
    simp only [Scheme.render, List.append_assoc] at h
    rw [Scheme.literals, if_pos hplain, readLiterals_skipWs_literal gap l hplain h,
      ← readLiterals_moreLiterals tail hrest (slice_after (slice_after h))]
    cases decodeProtoString l.render with
    | error e => rfl
    | ok part =>
        simp only [Token.render]
        cases readLiterals text limit
            (skipWs text (i + gap.text.length + l.render.length) limit) with
        | error e => rfl
        | ok result => rfl
  · rw [s.readLiterals_other hrest ?_ h]
    · cases s with
      | done gap => rfl
      | message gap opening inner semicolon tail => rfl
      | token gap tok tail =>
          cases tok with
          | literal l =>
              rw [Scheme.literals, if_neg fun hplain => hread ⟨gap, l, tail, rfl, hplain⟩]
              rfl
          | word n => rfl
          | number n => rfl
          | symbol c hc => rfl
    · rintro gap l tail rfl hplain
      exact hread ⟨gap, l, tail, rfl, hplain⟩

/-- What is read behind the word `key`. -/
theorem readStrings_readValue
    (s : Scheme) {rest : Str}
    (hrest : Ends rest)
    (h : slice text i limit = s.render ++ rest) :
    (readStrings text i limit).toOption.bind Prod.fst = s.readValue := by
  have hbody : ∀ start, (if peek text limit (skipWs text i limit) = some ':' then
        skipWs text (skipWs text i limit + 1) limit else skipWs text i limit) = start →
      (readStrings text i limit).toOption.bind Prod.fst =
        (readLiterals text limit start).toOption.bind
          (fun result => if result.1.isEmpty then none else some result.1.flatten) := by
    rintro start rfl
    unfold readStrings
    dsimp only
    cases readLiterals text limit
        (if peek text limit (skipWs text i limit) = some ':' then
          skipWs text (skipWs text i limit + 1) limit else skipWs text i limit) with
    | error e => rfl
    | ok result =>
        obtain ⟨parts, j⟩ := result
        cases parts with
        | nil => rfl
        | cons part parts => rfl
  by_cases hcolon : ∃ gap tail, s = .token gap .colon tail ∧ gap.Plain
  · obtain ⟨gap, tail, rfl, hplain⟩ := hcolon
    simp only [Scheme.render, List.append_assoc] at h
    have hat := slice_after h
    have hskip : skipWs text i limit = i + gap.text.length := by
      refine (skipWs_spacing gap ?_ h).1 hplain
      intro c hc
      cases hc
      rfl
    rw [hbody (skipWs text (i + gap.text.length + 1) limit) (by
      rw [hskip, peek_of_cons hat, if_pos rfl])]
    rw [readLiterals_literals tail hrest (slice_tail hat), Token.colon, Scheme.readValue,
      if_pos ⟨rfl, hplain⟩]
  · have hpeek : peek text limit (skipWs text i limit) ≠ some ':' := by
      intro hc
      rcases s.peek_skipWs hrest h hc with ⟨hplain, hhead⟩ | ⟨-, hne, -⟩
      · obtain ⟨tail, heq⟩ := (s.head_afterGap hrest _ hhead).2.2.1 rfl
        exact hcolon ⟨_, tail, heq, hplain⟩
      · exact hne rfl
    rw [hbody (skipWs text i limit) (if_neg hpeek), readLiterals_literals s hrest h]
    cases s with
    | done gap => rfl
    | message gap opening inner semicolon tail => rfl
    | token gap tok tail =>
        cases tok with
        | literal l => rfl
        | word n => rfl
        | number n => rfl
        | symbol c hc =>
            rw [Scheme.readValue, if_neg]
            rintro ⟨rfl, hplain⟩
            exact hcolon ⟨gap, tail, rfl, hplain⟩

end Values

section Extractor

theorem extractKeyFrom_walks
    (text : Str) (limit : Nat) (depth : Int) (key : Option CodePoints) :
    Walks text limit (fun w _ => depth = 1 → w ≠ keyWord)
      (fun i => extractKeyFrom text limit i depth key) where
  toPasses := extractKeyFrom_passes text limit depth key
  slash := by
    intro i hc hnext
    simp only [extractKeyFrom_step hc, skipOpaque_slash hnext,
      if_neg (show '/' ≠ '{' by decide), if_neg (show '/' ≠ '}' by decide),
      show isWordStart '/' = false by decide, Bool.false_eq_true, if_false]

/-- Below the fields of the block nothing is a key. -/
theorem extractKeyFrom_depths
    (text : Str) (limit : Nat) (key : Option CodePoints) :
    Depths text limit 2 (fun d i => extractKeyFrom text limit i (d : Int) key) where
  walks d hd :=
    { (extractKeyFrom_levels text limit key).passes d hd with
      slash := (extractKeyFrom_walks text limit d key).slash }
  opens := (extractKeyFrom_levels text limit key).opens
  closes := (extractKeyFrom_levels text limit key).closes

/-- What the extractor does at the word `key`. -/
theorem extractKeyFrom_word
    {rest : Str} {key : Option CodePoints} {n : Name}
    (hname : n.text = keyWord)
    (hends : EndsWord rest)
    (h : slice text i limit = n.text ++ rest) :
    extractKeyFrom text limit i 1 key =
      match readStrings text (i + n.text.length) limit with
      | .error e => .error e
      | .ok (none, _) => .error (.schemeError "у атрибута нет строкового поля key")
      | .ok (some value, j) =>
          if key.isSome then
            .error (.schemeError "в блоке attributes несколько полей key")
          else extractKeyFrom text limit j 1 (some value) := by
  obtain ⟨c, hc, hstart⟩ := peek_of_word n.isWord h
  have hpart := isWordPart_of_isWordStart hstart
  obtain ⟨-, -, -, hopen, hclose⟩ := ne_of_isWordPart hpart
  have hkey := slice_before h
  rw [hname] at hkey
  have hstep := extractKeyFrom_step hc 1 key
  simp only [skipOpaque_of_isWordPart hpart, if_neg hopen, if_neg hclose, hstart, if_true,
    wordEnd_eq n.isWord hends h, hname, hkey, true_and] at hstep
  rw [hname]
  refine hstep.trans ?_
  cases readStrings text (i + keyWord.length) limit with
  | error e => rfl
  | ok result =>
      obtain ⟨value, j⟩ := result
      cases value <;> rfl

/-- A message that is no field of interest is passed. -/
theorem extractKeyFrom_opening
    {rest : Str} {key : Option CodePoints}
    (opening : Opening) (inner : Scheme) (semicolon : Bool)
    (hinner : inner.Separated false)
    (h : slice text i limit =
      opening.render ++ (inner.render ++ (closing semicolon ++ rest))) :
    extractKeyFrom text limit i 1 key =
      extractKeyFrom text limit
        (i + (opening.render.length + (inner.render.length + (closing semicolon).length)))
        1 key := by
  have hp := extractKeyFrom_passes text limit 1 key
  obtain ⟨brace, hlength, hpass, hbrace⟩ := hp.opening opening (fun _ _ _ => by decide) h
  have hbody := slice_tail hbrace
  have hclosing := slice_after hbody
  have hdepths := (extractKeyFrom_depths text limit key).scheme inner (Nat.le_refl 2) hinner
    (ends_closing semicolon rest) hbody
  have hend : extractKeyFrom text limit (brace + 1 + inner.render.length) (2 : Nat) key =
      extractKeyFrom text limit
        (brace + 1 + inner.render.length + (closing semicolon).length) 1 key := by
    cases semicolon with
    | false => exact extractKeyFrom_close (peek_of_cons hclosing) _ _
    | true =>
        rw [extractKeyFrom_close (peek_of_cons hclosing)]
        exact hp.quiet _ ';' (peek_of_cons (slice_tail hclosing)) rfl
  refine hpass.trans ((extractKeyFrom_open (peek_of_cons hbrace) 1 key).trans ?_)
  refine Eq.trans hdepths ?_
  rw [hend, hlength]
  congr 1
  omega

theorem Scheme.keepKey_none (key : Option CodePoints) (values : List (Option CodePoints)) :
    keepKey key (none :: values) = none := by
  cases key <;> rfl

/-- The extractor keeps the key of the direct fields. -/
theorem extractKeyFrom_scheme
    (s : Scheme) {touching : Bool} {rest : Str} (key : Option CodePoints)
    (hs : s.Separated touching)
    (hrest : Ends rest)
    (h : slice text i limit = s.render ++ rest) :
    (∀ kept, Scheme.keepKey key s.keyValues = some kept →
      extractKeyFrom text limit i 1 key =
        extractKeyFrom text limit (i + s.render.length) 1 kept) ∧
      (Scheme.keepKey key s.keyValues = none →
        ∃ e, extractKeyFrom text limit i 1 key = .error e) := by
  induction s generalizing i key touching with
  | done gap =>
      have hgap := (extractKeyFrom_passes text limit 1 key).spacing gap.isFiller h
      constructor
      · intro kept hkept
        cases hkept
        exact hgap
      · intro hnone
        cases hnone
  | token gap tok tail ih =>
      obtain ⟨-, -, -, htail⟩ := hs
      simp only [Scheme.render, List.append_assoc] at h
      have hw := extractKeyFrom_walks text limit 1
      have htok := slice_after h
      have hafter := slice_after htok
      have hgap := (hw key).spacing gap.isFiller h
      obtain ⟨hends, hslash⟩ := tail.follows htail hrest
      have hlength : i + gap.text.length + tok.render.length + tail.render.length =
          i + (Scheme.token gap tok tail).render.length := by
        simp only [Scheme.render, List.length_append]
        omega
      rw [hgap, ← hlength]
      by_cases hname : tok.Names keyWord
      · obtain ⟨n, rfl, hn⟩ : ∃ n, tok = .word n ∧ n.text = keyWord := by
          cases tok with
          | word n => exact ⟨n, rfl, hname⟩
          | literal l => exact absurd hname id
          | number n => exact absurd hname id
          | symbol c hc => exact absurd hname id
        have hvalue := readStrings_readValue tail hrest hafter
        rw [Scheme.keyValues, if_pos hname, extractKeyFrom_word hn (hends rfl) htok]
        simp only [Token.render] at hvalue hafter ⊢
        cases hstrings : readStrings text (i + gap.text.length + n.text.length) limit with
        | error e =>
            rw [hstrings] at hvalue
            rw [← show none = tail.readValue from hvalue]
            refine ⟨fun kept hkept => ?_, fun _ => ⟨e, rfl⟩⟩
            rw [Scheme.keepKey_none] at hkept
            cases hkept
        | ok result =>
            obtain ⟨value, j⟩ := result
            rw [hstrings] at hvalue
            rw [← show value = tail.readValue from hvalue]
            cases value with
            | none =>
                refine ⟨fun kept hkept => ?_, fun _ => ⟨_, rfl⟩⟩
                rw [Scheme.keepKey_none] at hkept
                cases hkept
            | some value =>
                cases key with
                | some key =>
                    refine ⟨fun kept hkept => ?_, fun _ => ⟨_, rfl⟩⟩
                    cases hkept
                | none =>
                    -- the scan goes on behind the strings, which hold no key
                    have hstrings' := (hw (some value)).toPasses.readStrings hstrings
                    simp only [Option.isSome_none, Bool.false_eq_true, if_false, ← hstrings']
                    exact ih (some value) htail hafter
      · rw [Scheme.keyValues, if_neg hname]
        rw [(hw key).token (fun w _ hw _ _ => hw) tok ?_ hends hslash htok]
        · exact ih key htail hafter
        · rintro n rfl - heq
          exact hname heq
  | message gap opening inner semicolon tail _ ih =>
      obtain ⟨-, -, -, hinner, htail⟩ := hs
      simp only [Scheme.render, List.append_assoc] at h
      have hopening := slice_after h
      have hgap := (extractKeyFrom_passes text limit 1 key).spacing gap.isFiller h
      have hafter : slice text (i + gap.text.length + (opening.render.length +
          (inner.render.length + (closing semicolon).length))) limit = tail.render ++ rest := by
        have := slice_after (slice_after (slice_after hopening))
        simpa only [Nat.add_assoc] using this
      have hlength : i + gap.text.length + (opening.render.length +
          (inner.render.length + (closing semicolon).length)) + tail.render.length =
          i + (Scheme.message gap opening inner semicolon tail).render.length := by
        simp only [Scheme.render, List.length_append]
        omega
      rw [hgap, extractKeyFrom_opening opening inner semicolon hinner hopening, ← hlength]
      exact ih key htail hafter

/-- The key of a block, from its opening brace to its closing one. -/
theorem extractKey_scheme
    {inner : Scheme} {close : Nat}
    (hinner : inner.Separated false)
    (h : slice text i close = '{' :: (inner.render ++ ['}'])) :
    (∀ key, inner.foundKey = some key → extractKey text i close = .ok key) ∧
      (inner.foundKey = none → ∃ e, extractKey text i close = .error e) := by
  have hbody := slice_tail h
  have hclose := slice_after hbody
  obtain ⟨hfound, hraises⟩ :=
    extractKeyFrom_scheme inner none hinner (ends_closing false []) hbody
  have hopen := extractKeyFrom_open (peek_of_cons h) 0 none
  constructor
  · intro key hkey
    have hend := extractKeyFrom_close (peek_of_cons hclose) 1 key
    have hnil : extractKeyFrom text close (i + 1 + inner.render.length + 1) 0 key = .ok key := by
      rw [extractKeyFrom]
      split
      · rfl
      · next c hc =>
          rw [peek_of_nil (slice_tail hclose)] at hc
          cases hc
    exact hopen.trans ((hfound key hkey).trans (hend.trans hnil))
  · intro hnone
    obtain ⟨e, he⟩ := hraises hnone
    exact ⟨e, hopen.trans he⟩

end Extractor

end Backup
end YdbSnippets
