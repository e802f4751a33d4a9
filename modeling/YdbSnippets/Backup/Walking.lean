import YdbSnippets.Backup.Layout

/-!
# Walking over a scheme

The three scanners differ in what they do at braces and at some words.  All
the rest they pass over in the same way; this is said once, for any scanner
that does.
-/

namespace YdbSnippets
namespace Backup

open Python

section Characters

/-- A character that no scanner looks at twice. -/
def isQuiet (c : Char) : Bool :=
  !isQuote c && c != '#' && c != '/' && c != '{' && c != '}' && !isWordStart c

theorem isQuiet_of_isWs
    {c : Char}
    (h : isWs c = true) :
    isQuiet c = true := by
  simp only [isWs, Bool.or_eq_true, beq_iff_eq] at h
  rcases h with ((rfl | rfl) | rfl) | rfl <;> rfl

theorem not_isWordPart_of_isWs
    {c : Char}
    (h : isWs c = true) :
    isWordPart c = false := by
  simp only [isWs, Bool.or_eq_true, beq_iff_eq] at h
  rcases h with ((rfl | rfl) | rfl) | rfl <;> rfl

theorem isWordPart_of_isWordStart
    {c : Char}
    (h : isWordStart c = true) :
    isWordPart c = true := by
  simp only [isWordStart, isWordPart, Bool.or_eq_true, beq_iff_eq, Char.isAlphanum] at h ⊢
  rcases h with h | h
  · exact Or.inl (Or.inl h)
  · exact Or.inr h

/-- No character of a word has a meaning of its own. -/
theorem ne_of_isWordPart
    {c : Char}
    (h : isWordPart c = true) :
    isQuote c = false ∧ c ≠ '#' ∧ c ≠ '/' ∧ c ≠ '{' ∧ c ≠ '}' := by
  have hne : ∀ d : Char, isWordPart d = false → c ≠ d := by
    rintro d hd rfl
    rw [h] at hd
    cases hd
  refine ⟨?_, hne _ (by decide), hne _ (by decide), hne _ (by decide), hne _ (by decide)⟩
  simp only [isQuote, Bool.or_eq_false_iff, beq_eq_false_iff_ne]
  exact ⟨hne _ (by decide), hne _ (by decide)⟩

theorem skipOpaque_eq_none
    {text : Str} {i limit : Nat} {c : Char}
    (hquote : isQuote c = false) (hhash : c ≠ '#') (hslash : c ≠ '/') :
    skipOpaque text i limit c = none := by
  unfold skipOpaque
  rw [if_neg (by simp [hquote]), if_neg hhash, if_neg (by simp [hslash])]

/-- A text that starts a word: the word, and what follows it. -/
theorem exists_word
    {c : Char} {s : Str}
    (hstart : isWordStart c = true) :
    ∃ w tail, c :: s = w ++ tail ∧ IsWord w ∧ EndsWord tail := by
  have hsplit := List.takeWhile_append_dropWhile (p := isWordPart) (l := s)
  refine ⟨c :: s.takeWhile isWordPart, s.dropWhile isWordPart, ?_, ?_, ?_⟩
  · rw [List.cons_append, hsplit]
  · exact ⟨c, _, rfl, hstart, fun d hd => List.mem_takeWhile_imp hd⟩
  · intro d hd
    have hnot := List.head?_dropWhile_not isWordPart s
    rw [Option.mem_def.mp hd] at hnot
    simpa using hnot

theorem IsWord.isWordPart
    {w : Str} (hw : IsWord w) :
    ∀ c ∈ w, isWordPart c = true := by
  obtain ⟨c, tail, rfl, hstart, htail⟩ := hw
  intro d hd
  rcases List.mem_cons.mp hd with rfl | hd
  · exact isWordPart_of_isWordStart hstart
  · exact htail d hd

theorem IsWord.ne_nil
    {w : Str} (hw : IsWord w) :
    w ≠ [] := by
  obtain ⟨c, tail, rfl, -, -⟩ := hw
  exact List.cons_ne_nil c tail

/-- A word ends in a word character. -/
theorem IsWord.getLast?_any
    {w : Str} (hw : IsWord w) :
    w.getLast?.any Backup.isWordPart = true := by
  rw [List.getLast?_eq_some_getLast hw.ne_nil]
  exact hw.isWordPart _ (List.getLast_mem _)

theorem EndsWord.append
    {a : Str} (h : EndsWord a) (hne : a ≠ []) (b : Str) :
    EndsWord (a ++ b) := by
  obtain ⟨c, tail, rfl⟩ := List.exists_cons_of_ne_nil hne
  exact h

theorem Value.render_ne_nil (v : Value) :
    v.render ≠ [] := by
  cases v with
  | strings first more => exact List.cons_ne_nil _ _
  | number n => exact List.cons_ne_nil _ _
  | identifier n => exact n.isWord.ne_nil

theorem Separator.endsWord (s : Separator) :
    EndsWord s.render := by
  intro c hc
  cases s with
  | blank between => exact not_isWordPart_of_isWs (between.isWs c (List.mem_of_mem_head? hc))
  | colon before after =>
      simp only [Separator.render] at hc
      cases hbefore : before.text with
      | nil =>
          rw [hbefore] at hc
          cases hc
          rfl
      | cons d tail =>
          refine not_isWordPart_of_isWs (before.isWs c ?_)
          rw [hbefore] at hc ⊢
          cases hc
          exact List.mem_cons_self

/-- What follows the name of a field ends the name. -/
theorem Scalar.endsWord (f : Scalar) (rest : Str) :
    EndsWord (f.separator.render ++ (f.value.render ++ rest)) := by
  by_cases hne : f.separator.render = []
  · rw [hne, List.nil_append]
    exact (f.apart hne).append f.value.render_ne_nil rest
  · exact f.separator.endsWord.append hne _

end Characters

/-- A loop that passes over strings, comments, quiet characters and those words
that are ordinary to it where they stand. -/
structure Passes {R : Type} (text : Str) (limit : Nat)
    (ordinary : Str → Str → Prop) (run : Nat → R) : Prop where
  skip : ∀ i c j, peek text limit i = some c →
    skipOpaque text i limit c = some (.ok j) → run i = run j
  quiet : ∀ i c, peek text limit i = some c → isQuiet c = true → run i = run (i + 1)
  word : ∀ i w rest, slice text i limit = w ++ rest → IsWord w → EndsWord rest →
    ordinary w rest → run i = run (i + w.length)

namespace Passes

variable {R : Type} {text : Str} {i limit : Nat}
variable {ordinary : Str → Str → Prop} {run : Nat → R}

theorem quiets
    (hp : Passes text limit ordinary run)
    {s rest : Str}
    (hs : ∀ c ∈ s, isQuiet c = true)
    (h : slice text i limit = s ++ rest) :
    run i = run (i + s.length) := by
  induction s generalizing i with
  | nil => rfl
  | cons c s ih =>
      rw [hp.quiet i c (peek_of_cons h) (hs c List.mem_cons_self),
        ih (fun d hd => hs d (List.mem_cons_of_mem _ hd)) (slice_tail h), List.length_cons]
      congr 1
      omega

theorem blank
    (hp : Passes text limit ordinary run)
    (b : Blank) {rest : Str}
    (h : slice text i limit = b.text ++ rest) :
    run i = run (i + b.text.length) :=
  hp.quiets (fun c hc => isQuiet_of_isWs (b.isWs c hc)) h

theorem literal
    (hp : Passes text limit ordinary run)
    (l : Literal) {rest : Str}
    (h : slice text i limit = l.render ++ rest) :
    run i = run (i + l.render.length) := by
  have h' : slice text i limit = l.quote :: (l.body ++ l.quote :: rest) := by
    rw [h]
    simp [Literal.render]
  have hlength : l.render.length = l.body.length + 2 := by
    simp [Literal.render]
  have hskip : skipOpaque text i limit l.quote = some (.ok (i + (l.body.length + 2))) := by
    unfold skipOpaque
    rw [if_pos l.isQuote, skipString_eq l.isQuote l.closed h']
  rw [hp.skip i _ _ (peek_of_cons h') hskip, hlength]

theorem gap
    (hp : Passes text limit ordinary run)
    {g rest : Str} (hg : IsGap g)
    (h : slice text i limit = g ++ rest) :
    run i = run (i + g.length) := by
  induction hg generalizing i with
  | nil => rfl
  | ws hc _ ih =>
      rw [hp.quiet i _ (peek_of_cons h) (isQuiet_of_isWs hc), ih (slice_tail h),
        List.length_cons]
      congr 1
      omega
  | @comment line more hline _ ih =>
      have h' : slice text i limit = ('#' :: line) ++ '\n' :: (more ++ rest) := by
        rw [h]
        simp
      have hskip : skipOpaque text i limit '#' =
          some (.ok (i + ('#' :: line).length)) := by
        unfold skipOpaque
        rw [if_neg (by decide), if_pos rfl]
        rw [skipLine_eq (by simpa using hline) h']
      have hafter := slice_after h'
      rw [hp.skip i '#' _ (peek_of_cons h') hskip,
        hp.quiet _ '\n' (peek_of_cons hafter) rfl, ih (slice_tail hafter)]
      congr 1
      simp only [List.length_cons, List.length_append]
      omega

theorem separator
    (hp : Passes text limit ordinary run)
    (s : Separator) {rest : Str}
    (h : slice text i limit = s.render ++ rest) :
    run i = run (i + s.render.length) := by
  cases s with
  | blank between => exact hp.blank between h
  | colon before after =>
      refine hp.quiets ?_ h
      intro c hc
      rcases List.mem_append.mp hc with hc | hc
      · exact isQuiet_of_isWs (before.isWs c hc)
      · rcases List.mem_cons.mp hc with rfl | hc
        · rfl
        · exact isQuiet_of_isWs (after.isWs c hc)

theorem more
    (hp : Passes text limit ordinary run)
    (literals : List (Blank × Literal)) {rest : Str}
    (h : slice text i limit = renderMore literals ++ rest) :
    run i = run (i + (renderMore literals).length) := by
  induction literals generalizing i with
  | nil => rfl
  | cons head literals ih =>
      obtain ⟨between, l⟩ := head
      simp only [renderMore, List.append_assoc] at h
      have hafter := slice_after h
      rw [hp.blank between h, hp.literal l hafter, ih (slice_after hafter)]
      congr 1
      simp only [renderMore, List.length_append]
      omega

/-- A part of a number that starts a word is no keyword. -/
theorem numberWord_ne
    {w : Str}
    (hw : ∀ c ∈ w, isNumberPart c = true) :
    w ≠ keyWord ∧ w ≠ attributesWord := by
  constructor
  · rintro rfl
    exact absurd (hw 'k' (by decide)) (by decide)
  · rintro rfl
    exact absurd (hw 't' (by decide)) (by decide)

theorem isQuiet_of_isNumberPart
    {c : Char}
    (hc : isNumberPart c = true) (hstart : isWordStart c = false) :
    isQuiet c = true := by
  have hne : ∀ d : Char, isNumberPart d = false → c ≠ d := by
    rintro d hd rfl
    rw [hc] at hd
    cases hd
  have hquote : isQuote c = false := by
    simp only [isQuote, Bool.or_eq_false_iff, beq_eq_false_iff_ne]
    exact ⟨hne _ (by decide), hne _ (by decide)⟩
  simp only [isQuiet, hquote, hstart, Bool.not_false, Bool.true_and, Bool.and_true,
    Bool.and_eq_true, bne_iff_ne]
  exact ⟨⟨⟨hne _ (by decide), hne _ (by decide)⟩, hne _ (by decide)⟩, hne _ (by decide)⟩

/-- The words inside of a number are ordinary to every scanner that only minds
`key` and `attributes`. -/
theorem numberParts
    (hp : Passes text limit ordinary run)
    (hordinary : ∀ w rest, w ≠ keyWord → w ≠ attributesWord → ordinary w rest)
    {s rest : Str}
    (hs : ∀ c ∈ s, isNumberPart c = true)
    (hrest : s.getLast?.any isWordPart = true → EndsWord rest)
    (h : slice text i limit = s ++ rest) :
    run i = run (i + s.length) := by
  induction hn : s.length using Nat.strong_induction_on generalizing s i with
  | _ n ih =>
      cases s with
      | nil =>
          subst hn
          rfl
      | cons c s =>
          cases hstart : isWordStart c with
          | false =>
              have hc := isQuiet_of_isNumberPart (hs c List.mem_cons_self) hstart
              have hlast : s.getLast?.any isWordPart = true → EndsWord rest := by
                intro hany
                refine hrest ?_
                cases s with
                | nil => cases hany
                | cons d s => rwa [List.getLast?_cons_cons]
              rw [hp.quiet i c (peek_of_cons h) hc,
                ih s.length (by simp at hn; omega) (fun d hd => hs d (List.mem_cons_of_mem _ hd))
                  hlast (slice_tail h) rfl]
              congr 1
              simp only [List.length_cons] at hn
              omega
          | true =>
              -- the word runs to the first character that is no part of one
              obtain ⟨w, tail, hsplit, hword, htail⟩ := exists_word (s := s) hstart
              rw [hsplit] at h hs hrest hn
              rw [List.append_assoc] at h
              have hlast : tail.getLast?.any isWordPart = true → EndsWord rest := by
                intro hany
                refine hrest ?_
                cases tail with
                | nil => cases hany
                | cons d tail => rwa [List.getLast?_append_cons]
              have hends : EndsWord (tail ++ rest) := by
                cases tail with
                | nil =>
                    rw [List.append_nil] at hrest
                    exact hrest hword.getLast?_any
                | cons d tail => exact htail
              obtain ⟨hkey, hattributes⟩ :=
                numberWord_ne (fun d hd => hs d (List.mem_append_left _ hd))
              have hpos := List.length_pos_iff.mpr hword.ne_nil
              rw [List.length_append] at hn
              rw [hp.word i w _ h hword hends (hordinary _ _ hkey hattributes),
                ih tail.length (by omega) (fun d hd => hs d (List.mem_append_right _ hd))
                  hlast (slice_after h) rfl]
              congr 1
              omega

theorem value
    (hp : Passes text limit ordinary run)
    (hordinary : ∀ w rest, w ≠ keyWord → w ≠ attributesWord → ordinary w rest)
    (v : Value) {rest : Str}
    (hv : ∀ n, v = .identifier n → n.text ≠ keyWord ∧ n.text ≠ attributesWord)
    (hrest : v.render.getLast?.any isWordPart = true → EndsWord rest)
    (h : slice text i limit = v.render ++ rest) :
    run i = run (i + v.render.length) := by
  cases v with
  | strings first more =>
      simp only [Value.render, List.append_assoc] at h
      rw [hp.literal first h, hp.more more (slice_after h)]
      congr 1
      simp only [Value.render, List.length_append]
      omega
  | number n =>
      refine hp.numberParts hordinary ?_ hrest h
      intro c hc
      rcases List.mem_cons.mp hc with rfl | hc
      · exact n.isNumberPart_first
      · exact n.isPart c hc
  | identifier n =>
      obtain ⟨hkey, hattributes⟩ := hv n rfl
      exact hp.word i _ _ h n.isWord (hrest n.isWord.getLast?_any)
        (hordinary _ _ hkey hattributes)

/-- A field is passed if its name is ordinary. -/
theorem scalar
    (hp : Passes text limit ordinary run)
    (hordinary : ∀ w rest, w ≠ keyWord → w ≠ attributesWord → ordinary w rest)
    (f : Scalar) {rest : Str}
    (hname : ordinary f.name.text (f.separator.render ++ (f.value.render ++ rest)))
    (hrest : f.endsInWord = true → EndsWord rest)
    (h : slice text i limit = f.render ++ rest) :
    run i = run (i + f.render.length) := by
  simp only [Scalar.render, List.append_assoc] at h
  have hseparator := slice_after h
  have hvalue := slice_after hseparator
  rw [hp.word i _ _ h f.name.isWord (f.endsWord rest) hname, hp.separator _ hseparator,
    hp.value hordinary f.value f.notKeyword hrest hvalue]
  congr 1
  simp only [Scalar.render, List.length_append]
  omega

/-- The start of a message is passed up to its brace if its name is ordinary. -/
theorem header
    (hp : Passes text limit ordinary run)
    (header : Header) {rest : Str}
    (hname : ordinary header.name.text (header.separator.render ++ '{' :: rest))
    (h : slice text i limit = header.render ++ rest) :
    run i = run (i + header.name.text.length + header.separator.render.length) ∧
      slice text (i + header.name.text.length + header.separator.render.length) limit =
        '{' :: rest := by
  simp only [Header.render, List.append_assoc, List.cons_append, List.nil_append] at h
  have hends : EndsWord (header.separator.render ++ '{' :: rest) := by
    by_cases hne : header.separator.render = []
    · rw [hne]
      intro c hc
      cases hc
      rfl
    · exact header.separator.endsWord.append hne _
  have hseparator := slice_after h
  refine ⟨?_, slice_after hseparator⟩
  rw [hp.word i _ _ h header.name.isWord hends hname, hp.separator _ hseparator]

end Passes

section Bodies

theorem IsGap.endsWord
    {g : Str} (hg : IsGap g) :
    EndsWord g := by
  cases hg with
  | nil => simp [EndsWord]
  | ws hc _ =>
      intro d hd
      cases hd
      exact not_isWordPart_of_isWs hc
  | comment _ _ =>
      intro d hd
      cases hd
      rfl

/-- A word before a body ends where the body starts. -/
theorem Body.endsWord
    {body : Body} {rest : Str}
    (hbody : body.Separated true)
    (hrest : EndsWord rest) :
    EndsWord (body.render ++ rest) := by
  cases body with
  | done gap =>
      by_cases hne : gap.text = []
      · rw [Body.render, hne]
        exact hrest
      · exact gap.isGap.endsWord.append hne rest
  | scalar gap field tail =>
      rw [Body.render, List.append_assoc]
      exact gap.isGap.endsWord.append (hbody.1 rfl) _
  | message gap header inner semicolon tail =>
      rw [Body.render, List.append_assoc]
      exact gap.isGap.endsWord.append (hbody.1 rfl) _

theorem endsWord_closing (semicolon : Bool) (rest : Str) :
    EndsWord (closing semicolon ++ rest) := by
  intro c hc
  cases semicolon <;>
    · cases hc
      rfl

/-- What follows a field ends the word it may end in. -/
theorem Scalar.endsWord_rest
    {field : Scalar} {body : Body} {rest : Str}
    (hbody : body.Separated field.endsInWord)
    (hrest : EndsWord rest)
    (h : field.endsInWord = true) :
    EndsWord (body.render ++ rest) := by
  rw [h] at hbody
  exact Body.endsWord hbody hrest

end Bodies

/-- A loop with a depth that from the depth `lo` on passes over every word and
only counts braces. -/
structure Levels {R : Type} (text : Str) (limit lo : Nat) (run : Nat → Nat → R) : Prop where
  passes : ∀ d, lo ≤ d → Passes text limit (fun _ _ => True) (run d)
  opens : ∀ d i, lo ≤ d → peek text limit i = some '{' → run d i = run (d + 1) (i + 1)
  closes : ∀ d i, lo ≤ d → peek text limit i = some '}' → run (d + 1) i = run d (i + 1)

namespace Levels

variable {R : Type} {text : Str} {limit lo : Nat} {run : Nat → Nat → R}

theorem closing
    (hl : Levels text limit lo run)
    {d i : Nat} (hd : lo ≤ d) (semicolon : Bool) {rest : Str}
    (h : slice text i limit = closing semicolon ++ rest) :
    run (d + 1) i = run d (i + (Backup.closing semicolon).length) := by
  cases semicolon with
  | false => exact hl.closes d i hd (peek_of_cons h)
  | true =>
      rw [hl.closes d i hd (peek_of_cons h),
        (hl.passes d hd).quiet _ ';' (peek_of_cons (slice_tail h)) rfl]
      rfl

/-- A whole body is passed without a change of depth. -/
theorem body
    (hl : Levels text limit lo run)
    (b : Body) {touching : Bool} {d i : Nat} (hd : lo ≤ d) {rest : Str}
    (hb : b.Separated touching)
    (hrest : EndsWord rest)
    (h : slice text i limit = b.render ++ rest) :
    run d i = run d (i + b.render.length) := by
  induction b generalizing d i rest touching with
  | done gap => exact (hl.passes d hd).gap gap.isGap h
  | scalar gap field tail ih =>
      simp only [Body.render, List.append_assoc] at h
      have hfield := slice_after h
      rw [(hl.passes d hd).gap gap.isGap h,
        (hl.passes d hd).scalar (fun _ _ _ _ => trivial) field trivial
          (Scalar.endsWord_rest hb.2 hrest) hfield,
        ih hd hb.2 hrest (slice_after hfield)]
      congr 1
      simp only [Body.render, List.length_append]
      omega
  | message gap header inner semicolon tail ihInner ihTail =>
      simp only [Body.render, List.append_assoc] at h
      have hheader := slice_after h
      obtain ⟨hpass, hbrace⟩ := (hl.passes d hd).header header trivial hheader
      have hinner := slice_tail hbrace
      have hclosing := slice_after hinner
      rw [(hl.passes d hd).gap gap.isGap h, hpass, hl.opens d _ hd (peek_of_cons hbrace),
        ihInner (Nat.le_succ_of_le hd) hb.2.1 (endsWord_closing semicolon _) hinner,
        hl.closing hd semicolon hclosing,
        ihTail hd hb.2.2 hrest (slice_after hclosing)]
      congr 1
      simp only [Body.render, Header.render, List.length_append, List.length_cons,
        List.length_nil]
      omega

end Levels

end Backup
end YdbSnippets
