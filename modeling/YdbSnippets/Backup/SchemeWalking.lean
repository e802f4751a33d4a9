import YdbSnippets.Backup.Schemes
import YdbSnippets.Backup.Finder

/-!
# Walking over tokens

What the scanners pass over, said for schemes of tokens: whitespace, comments
and all tokens but the braces and some words.
-/

namespace YdbSnippets
namespace Backup

open Python

section Spacings

/-- The six characters of whitespace. -/
theorem isSpacing_cases
    {c : Char}
    (h : isSpacing c = true) :
    c = ' ' ∨ c = '\t' ∨ c = '\r' ∨ c = '\n' ∨ c = Char.ofNat 11 ∨ c = Char.ofNat 12 := by
  simp only [isSpacing, isWs, Bool.or_eq_true, beq_iff_eq] at h
  rcases h with (((((h | h) | h) | h) | h) | h)
  · exact Or.inl h
  · exact Or.inr (Or.inl h)
  · exact Or.inr (Or.inr (Or.inl h))
  · exact Or.inr (Or.inr (Or.inr (Or.inl h)))
  · exact Or.inr (Or.inr (Or.inr (Or.inr (Or.inl (by rw [← h, Char.ofNat_toNat])))))
  · exact Or.inr (Or.inr (Or.inr (Or.inr (Or.inr (by rw [← h, Char.ofNat_toNat])))))

theorem isSpacing_of_isWs
    {c : Char}
    (h : isWs c = true) :
    isSpacing c = true := by
  simp [isSpacing, h]

/-- No scanner looks for a character of whitespace, and the line of a block may
start with any of them. -/
theorem isSpacing_spec
    {c : Char}
    (h : isSpacing c = true) :
    isQuiet c = true ∧ isWordPart c = false ∧ isSpace c = true ∧ c ≠ ':' ∧ c ≠ ';' := by
  rcases isSpacing_cases h with rfl | rfl | rfl | rfl | rfl | rfl <;> decide

variable {g rest : Str}

/-- Whitespace starts with a character of whitespace or a comment. -/
theorem IsFiller.head
    (hg : IsFiller isSpacing g) :
    ∀ c ∈ g.head?, isSpacing c = true ∨ c = '#' := by
  cases hg with
  | nil =>
      intro c hc
      cases hc
  | char hc _ =>
      intro d hd
      cases hd
      exact Or.inl hc
  | comment _ _ =>
      intro d hd
      cases hd
      exact Or.inr rfl

/-- The blanks whitespace starts with, and what stops skipping them. -/
theorem IsFiller.exists_blanks
    (hg : IsFiller isSpacing g) :
    ∃ ws more, g = ws ++ more ∧ (∀ c ∈ ws, isWs c = true) ∧
      (more = [] ∨ ∃ c ∈ more.head?, isWs c = false ∧ (isSpacing c = true ∨ c = '#')) := by
  induction hg with
  | nil => exact ⟨[], [], rfl, by simp, Or.inl rfl⟩
  | @char c rest hc hrest ih =>
      by_cases hws : isWs c = true
      · obtain ⟨ws, more, rfl, hblank, hmore⟩ := ih
        refine ⟨c :: ws, more, rfl, ?_, hmore⟩
        intro d hd
        rcases List.mem_cons.mp hd with rfl | hd
        · exact hws
        · exact hblank d hd
      · refine ⟨[], c :: rest, rfl, by simp, Or.inr ⟨c, rfl, by simpa using hws, Or.inl hc⟩⟩
  | @comment line rest hline hrest ih =>
      exact ⟨[], _, rfl, by simp, Or.inr ⟨'#', rfl, rfl, Or.inr rfl⟩⟩

end Spacings

section Tokens

/-- What comes after a scheme: its closing brace, a last comment or nothing. -/
def Ends (rest : Str) : Prop :=
  ∀ c ∈ rest.head?, c = '}' ∨ c = '#'

theorem Ends.endsWord
    {rest : Str} (h : Ends rest) :
    EndsWord rest := by
  intro c hc
  rcases h c hc with rfl | rfl <;> rfl

theorem ends_nil : Ends [] := by
  intro c hc
  cases hc

theorem ends_closing (semicolon : Bool) (rest : Str) :
    Ends (closing semicolon ++ rest) := by
  intro c hc
  cases semicolon <;>
    · cases hc
      exact Or.inl rfl

/-- How a token starts. -/
structure StartsToken (t : Token) (c : Char) : Prop where
  notSpacing : isSpacing c = false
  notSpace : isSpace c = false
  notHash : c ≠ '#'
  notBrace : c ≠ '{' ∧ c ≠ '}'
  wordy : t.wordy = false → isWordPart c = false
  slash : c = '/' → t.render = ['/']
  colon : c = ':' → t = .colon
  semicolon : c = ';' → t = .semicolon
  quote : isQuote c = true → ∃ l, t = .literal l

theorem not_isSpacing_of_isWordPart
    {c : Char}
    (h : isWordPart c = true) :
    isSpacing c = false := by
  cases hspacing : isSpacing c with
  | false => rfl
  | true =>
      rw [(isSpacing_spec hspacing).2.1] at h
      cases h

theorem startsToken_of_isWordStart
    {n : Name} {c : Char}
    (h : isWordStart c = true) :
    StartsToken (.word n) c := by
  have hpart := isWordPart_of_isWordStart h
  obtain ⟨hquote, hhash, hslash, hopen, hclose⟩ := ne_of_isWordPart hpart
  exact {
    notSpacing := not_isSpacing_of_isWordPart hpart
    notSpace := not_isSpace_of_isWordPart hpart
    notHash := hhash
    notBrace := ⟨hopen, hclose⟩
    wordy := fun h => by cases h
    slash := fun h => absurd h hslash
    colon := by
      rintro rfl
      cases hpart
    semicolon := by
      rintro rfl
      cases hpart
    quote := fun h => by
      rw [hquote] at h
      cases h }

theorem startsToken_quote (l : Literal) :
    StartsToken (.literal l) l.quote := by
  have hquote := l.isQuote
  simp only [isQuote, Bool.or_eq_true, beq_iff_eq] at hquote
  rcases hquote with h | h <;>
    · rw [h]
      exact {
        notSpacing := by decide
        notSpace := by decide
        notHash := by decide
        notBrace := by decide
        wordy := fun _ => by decide
        slash := fun h => absurd h (by decide)
        colon := fun h => absurd h (by decide)
        semicolon := fun h => absurd h (by decide)
        quote := fun _ => ⟨l, rfl⟩ }

theorem startsToken_first (n : Number) :
    StartsToken (.number n) n.first := by
  have hne : ∀ d : Char, isNumberPart d = false → n.first ≠ d := by
    rintro d hd rfl
    rw [n.isNumberPart_first] at hd
    cases hd
  have hspace := not_isSpace_of_isNumberPart n.isNumberPart_first
  exact {
    notSpacing := by
      cases hspacing : isSpacing n.first with
      | false => rfl
      | true =>
          rw [(isSpacing_spec hspacing).2.2.1] at hspace
          cases hspace
    notSpace := hspace
    notHash := hne _ (by decide)
    notBrace := ⟨hne _ (by decide), hne _ (by decide)⟩
    wordy := fun h => by cases h
    slash := fun h => absurd h (hne _ (by decide))
    colon := fun h => absurd h (hne _ (by decide))
    semicolon := fun h => absurd h (hne _ (by decide))
    quote := fun h => by
      simp only [isQuote, Bool.or_eq_true, beq_iff_eq] at h
      rcases h with h | h
      · exact absurd h (hne _ (by decide))
      · exact absurd h (hne _ (by decide)) }

theorem startsToken_symbol
    {c : Char} (hc : isSymbol c = true) :
    StartsToken (.symbol c hc) c := by
  have hmem : c = ':' ∨ c = ';' ∨ c = ',' ∨ c = '.' ∨ c = '<' ∨ c = '>' ∨ c = '[' ∨
      c = ']' ∨ c = '-' ∨ c = '/' := by
    simpa [isSymbol] using hc
  rcases hmem with rfl | rfl | rfl | rfl | rfl | rfl | rfl | rfl | rfl | rfl <;>
    exact {
      notSpacing := by decide
      notSpace := by decide
      notHash := by decide
      notBrace := by decide
      wordy := fun _ => by decide
      slash := fun h => by first | rfl | exact absurd h (by decide)
      colon := fun h => by first | rfl | exact absurd h (by decide)
      semicolon := fun h => by first | rfl | exact absurd h (by decide)
      quote := fun h => absurd h (by decide) }

theorem Token.exists_cons (t : Token) :
    ∃ c tail, t.render = c :: tail ∧ StartsToken t c := by
  cases t with
  | word n =>
      obtain ⟨c, tail, hn, hstart, -⟩ := n.isWord
      exact ⟨c, tail, hn, startsToken_of_isWordStart hstart⟩
  | literal l => exact ⟨l.quote, l.body ++ [l.quote], rfl, startsToken_quote l⟩
  | number n => exact ⟨n.first, n.more, rfl, startsToken_first n⟩
  | symbol c hc => exact ⟨c, [], rfl, startsToken_symbol hc⟩

/-- A token ends in no space. -/
theorem Token.endsSolid (t : Token) :
    EndsSolid t.render := by
  cases t with
  | word n =>
      exact endsSolid_of_forall n.isWord.ne_nil
        (fun c hc => not_isSpace_of_isWordPart (n.isWord.isWordPart c hc))
  | literal l => exact l.endsSolid
  | number n =>
      refine endsSolid_of_forall (List.cons_ne_nil _ _) ?_
      intro c hc
      apply not_isSpace_of_isNumberPart
      rcases List.mem_cons.mp hc with rfl | hc
      · exact n.isNumberPart_first
      · exact n.isPart c hc
  | symbol c hc =>
      obtain ⟨d, tail, heq, hstart⟩ := (Token.symbol c hc).exists_cons
      cases heq
      exact ⟨[], c, rfl, hstart.notSpace⟩

theorem Opening.endsSolid (o : Opening) :
    EndsSolid o.render := by
  cases o with
  | brace => exact ⟨[], '{', rfl, rfl⟩
  | attributes ahead =>
      exact ⟨attributesWord ++ ahead.render, '{', by simp [Opening.render], rfl⟩

end Tokens

section Walks

variable {R : Type} {text : Str} {i limit : Nat}
variable {ordinary : Str → Str → Prop} {run : Nat → R}

/-- A loop that passes over what all scanners pass over, and over a slash that
starts no comment. -/
structure Walks {R : Type} (text : Str) (limit : Nat)
    (ordinary : Str → Str → Prop) (run : Nat → R) : Prop extends
    Passes text limit ordinary run where
  slash : ∀ i, peek text limit i = some '/' → peek text limit (i + 1) ≠ some '/' →
    run i = run (i + 1)

theorem Passes.spacing
    (hp : Passes text limit ordinary run)
    {g rest : Str} (hg : IsFiller isSpacing g)
    (h : slice text i limit = g ++ rest) :
    run i = run (i + g.length) := by
  induction hg generalizing i with
  | nil => rfl
  | char hc _ ih =>
      rw [hp.quiet i _ (peek_of_cons h) (isSpacing_spec hc).1, ih (slice_tail h),
        List.length_cons]
      congr 1
      omega
  | @comment line more hline _ ih =>
      have h' : slice text i limit = ('#' :: line) ++ '\n' :: (more ++ rest) := by
        rw [h]
        simp
      have hskip : skipOpaque text i limit '#' =
          some (.ok (i + ('#' :: line).length)) := by
        unfold skipOpaque
        rw [if_neg (by decide), if_pos rfl]
        rw [skipLine_eq (by simpa using hline) h']
      have hafter := slice_after h'
      rw [hp.skip i '#' _ (peek_of_cons h') hskip,
        hp.quiet _ '\n' (peek_of_cons hafter) rfl, ih (slice_tail hafter)]
      congr 1
      simp only [List.length_cons, List.length_append]
      omega

theorem Passes.ahead
    (hp : Passes text limit ordinary run)
    (a : Ahead) {rest : Str}
    (h : slice text i limit = a.render ++ rest) :
    run i = run (i + a.render.length) := by
  cases a with
  | spacing between => exact hp.spacing between.isFiller h
  | colon before after =>
      simp only [Ahead.render, List.append_assoc, List.cons_append] at h
      have hcolon := slice_after h
      rw [hp.spacing before.isFiller h, hp.quiet _ ':' (peek_of_cons hcolon) rfl,
        hp.spacing after.isFiller (slice_tail hcolon)]
      congr 1
      simp only [Ahead.render, List.length_append, List.length_cons]
      omega

theorem Ahead.endsWord
    (a : Ahead) (rest : Str) :
    EndsWord (a.render ++ '{' :: rest) := by
  have hspacing : ∀ (g : Spacing) (d : Char) (more : Str), isWordPart d = false →
      EndsWord (g.text ++ d :: more) := by
    intro g d more hd c hc
    by_cases hempty : g.text = []
    · rw [hempty] at hc
      cases hc
      exact hd
    · obtain ⟨e, tail, heq⟩ := List.exists_cons_of_ne_nil hempty
      rw [heq] at hc
      cases hc
      rcases g.isFiller.head _ (by rw [heq]; rfl) with h | rfl
      · exact (isSpacing_spec h).2.1
      · rfl
  cases a with
  | spacing between => exact hspacing between '{' rest rfl
  | colon before after =>
      simp only [Ahead.render, List.append_assoc, List.cons_append]
      exact hspacing before ':' _ rfl

/-- The start of a message is passed up to its brace. -/
theorem Passes.opening
    (hp : Passes text limit ordinary run)
    (o : Opening) {rest : Str}
    (hname : ∀ ahead, o = .attributes ahead →
      ordinary attributesWord (ahead.render ++ '{' :: rest))
    (h : slice text i limit = o.render ++ rest) :
    ∃ brace, brace + 1 = i + o.render.length ∧ run i = run brace ∧
      slice text brace limit = '{' :: rest := by
  cases o with
  | brace => exact ⟨i, rfl, rfl, h⟩
  | attributes ahead =>
      simp only [Opening.render, List.append_assoc, List.singleton_append] at h
      have hahead := slice_after h
      refine ⟨i + attributesWord.length + ahead.render.length, ?_, ?_, slice_after hahead⟩
      · simp only [Opening.render, List.length_append, List.length_singleton]
        omega
      · rw [hp.word i _ _ h isWord_attributes (ahead.endsWord rest) (hname ahead rfl),
          hp.ahead ahead hahead]

/-- A token is passed if it is no word that matters. -/
theorem Walks.token
    (hw : Walks text limit ordinary run)
    (hordinary : ∀ w rest, w ≠ keyWord → w ≠ attributesWord → ordinary w rest)
    (t : Token) {rest : Str}
    (hname : ∀ n, t = .word n → ordinary n.text rest)
    (hends : t.wordy = true → EndsWord rest)
    (hslash : t.wordy = false → ∀ c ∈ rest.head?, c ≠ '/')
    (h : slice text i limit = t.render ++ rest) :
    run i = run (i + t.render.length) := by
  cases t with
  | word n => exact hw.word i _ _ h n.isWord (hends rfl) (hname n rfl)
  | literal l => exact hw.literal l h
  | number n =>
      refine hw.numberParts hordinary ?_ (fun _ => hends rfl) h
      intro c hc
      rcases List.mem_cons.mp hc with rfl | hc
      · exact n.isNumberPart_first
      · exact n.isPart c hc
  | symbol c hc =>
      obtain ⟨d, tail, heq, hstart⟩ := (Token.symbol c hc).exists_cons
      cases heq
      have hat : slice text i limit = c :: rest := h
      by_cases hcase : c = '/'
      · subst hcase
        refine hw.slash i (peek_of_cons hat) ?_
        rw [peek_eq_head?, slice_tail hat]
        intro hhead
        exact hslash rfl '/' hhead rfl
      · refine hw.quiet i c (peek_of_cons hat) (isQuiet_iff.mpr ?_)
        have hpart := hstart.wordy rfl
        refine ⟨?_, hstart.notHash, hcase, hstart.notBrace.1, hstart.notBrace.2, ?_⟩
        · cases hquote : isQuote c with
          | false => rfl
          | true =>
              obtain ⟨l, hl⟩ := hstart.quote hquote
              cases hl
        · cases hword : isWordStart c with
          | false => rfl
          | true =>
              rw [isWordPart_of_isWordStart hword] at hpart
              cases hpart

/-- What the text of a scheme starts with suits the token before. -/
theorem Scheme.follows
    (s : Scheme) {touching : Bool} {rest : Str}
    (hs : s.Separated touching) (hrest : Ends rest) :
    (touching = true → EndsWord (s.render ++ rest)) ∧
      (touching = false → ∀ c ∈ (s.render ++ rest).head?, c ≠ '/') := by
  -- the first gap, if there is one, decides
  have hgap : ∀ (g : Spacing) (more : Str),
      (g.text = [] → (touching = true → EndsWord more) ∧
        (touching = false → ∀ c ∈ more.head?, c ≠ '/')) →
      (touching = true → EndsWord (g.text ++ more)) ∧
        (touching = false → ∀ c ∈ (g.text ++ more).head?, c ≠ '/') := by
    intro g more hmore
    by_cases hempty : g.text = []
    · rw [hempty]
      exact hmore hempty
    · obtain ⟨d, tail, heq⟩ := List.exists_cons_of_ne_nil hempty
      have hhead := g.isFiller.head d (by rw [heq]; rfl)
      rw [heq]
      constructor
      · intro _ c hc
        cases hc
        rcases hhead with h | rfl
        · exact (isSpacing_spec h).2.1
        · rfl
      · intro _ c hc
        cases hc
        rcases hhead with h | rfl
        · rintro rfl
          cases h
        · decide
  cases s with
  | done gap =>
      refine hgap gap rest fun _ => ⟨fun _ => hrest.endsWord, fun _ c hc => ?_⟩
      rcases hrest c hc with rfl | rfl <;> decide
  | token gap tok more =>
      obtain ⟨hne, hslash, -, -⟩ := hs
      rw [Scheme.render, List.append_assoc]
      obtain ⟨c, tail, heq, hstart⟩ := tok.exists_cons
      refine hgap gap _ fun hempty => ⟨fun htouching d hd => ?_, fun htouching d hd => ?_⟩
      · rw [heq] at hd
        cases hd
        refine hstart.wordy ?_
        cases hwordy : tok.wordy with
        | false => rfl
        | true => exact absurd hempty (hne htouching hwordy)
      · rw [heq] at hd
        cases hd
        intro hcase
        rw [hslash (hstart.slash hcase)] at htouching
        cases htouching
  | message gap opening inner semicolon more =>
      obtain ⟨hne, -⟩ := hs
      rw [Scheme.render, List.append_assoc]
      refine hgap gap _ fun hempty => ⟨fun htouching d hd => ?_, fun _ d hd => ?_⟩
      · cases opening with
        | brace =>
            cases hd
            rfl
        | attributes ahead => exact absurd hempty (hne htouching (by simp))
      · cases opening with
        | brace =>
            cases hd
            decide
        | attributes ahead =>
            cases hd
            decide

/-- A loop with a depth that from the depth `lo` on only counts braces. -/
structure Depths {R : Type} (text : Str) (limit lo : Nat) (run : Nat → Nat → R) : Prop where
  walks : ∀ d, lo ≤ d → Walks text limit (fun _ _ => True) (run d)
  opens : ∀ d i, lo ≤ d → peek text limit i = some '{' → run d i = run (d + 1) (i + 1)
  closes : ∀ d i, lo ≤ d → peek text limit i = some '}' → run (d + 1) i = run d (i + 1)

theorem Depths.levels
    {lo : Nat} {run : Nat → Nat → R}
    (hd : Depths text limit lo run) :
    Levels text limit lo run :=
  ⟨fun d h => (hd.walks d h).toPasses, hd.opens, hd.closes⟩

/-- A whole scheme is passed without a change of depth. -/
theorem Depths.scheme
    {lo : Nat} {run : Nat → Nat → R}
    (hl : Depths text limit lo run)
    (s : Scheme) {touching : Bool} {d i : Nat} (hd : lo ≤ d) {rest : Str}
    (hs : s.Separated touching)
    (hrest : Ends rest)
    (h : slice text i limit = s.render ++ rest) :
    run d i = run d (i + s.render.length) := by
  induction s generalizing d i rest touching with
  | done gap => exact (hl.walks d hd).spacing gap.isFiller h
  | token gap tok tail ih =>
      obtain ⟨-, -, -, htail⟩ := hs
      simp only [Scheme.render, List.append_assoc] at h
      have htok := slice_after h
      obtain ⟨hends, hslash⟩ := tail.follows htail hrest
      rw [(hl.walks d hd).spacing gap.isFiller h,
        (hl.walks d hd).token (fun _ _ _ _ => trivial) tok (fun _ _ => trivial) hends hslash htok,
        ih hd htail hrest (slice_after htok)]
      congr 1
      simp only [Scheme.render, List.length_append]
      omega
  | message gap opening inner semicolon tail ihInner ihTail =>
      obtain ⟨-, -, -, hinnerSep, htail⟩ := hs
      simp only [Scheme.render, List.append_assoc] at h
      have hopening := slice_after h
      obtain ⟨brace, hlength, hpass, hbrace⟩ :=
        (hl.walks d hd).opening opening (fun _ _ => trivial) hopening
      have hinner := slice_tail hbrace
      have hclosing := slice_after hinner
      rw [(hl.walks d hd).spacing gap.isFiller h, hpass, hl.opens d _ hd (peek_of_cons hbrace),
        ihInner (Nat.le_succ_of_le hd) hinnerSep (ends_closing semicolon _) hinner,
        hl.levels.closing hd semicolon hclosing,
        ihTail hd htail hrest (slice_after hclosing)]
      congr 1
      simp only [Scheme.render, List.length_append]
      omega

end Walks

end Backup
end YdbSnippets
