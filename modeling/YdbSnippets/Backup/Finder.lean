import YdbSnippets.Backup.Keys
import YdbSnippets.Backup.Lines
import YdbSnippets.Backup.Segments

/-!
# Finding the blocks of a scheme text

Every `attributes` block of a rendered tree is found, with its key and the
span that goes with it; the spans cut the text into segments.
-/

namespace YdbSnippets
namespace Backup

open Python

section Segmentation

namespace Body

/-- The gap a body starts with. -/
def firstGap : Body → Gap
  | done gap => gap
  | scalar gap _ _ => gap
  | message gap _ _ _ _ => gap

/-- The segments of a body.  `line` says that the text before is empty, and the
first `skip` characters of the first gap belong to the block before. -/
def segments (line : Bool) (skip : Nat) : Body → Segments
  | done gap => .plain (gap.text.drop skip) .done
  | scalar gap field rest =>
      .plain (gap.text.drop skip) (.plain field.render (rest.segments false 0))
  | message gap header inner semicolon rest =>
      if header.name.text = attributesWord then
        let key := inner.fields.decodedKey.getD []
        if line = true ∨ '\n' ∈ gap.text then
          -- the block is the first thing on its line
          let cut := lastLine gap.text
          let more := lineEnd rest.firstGap.text
          .plain ((gap.text.take cut).drop skip)
            (.block key
              (.plain (gap.text.drop cut) (.plain header.render
                ((inner.segments false 0).append
                  (.plain (closing semicolon) (.plain (rest.firstGap.text.take more) .done)))))
              (rest.segments false more))
        else
          .plain (gap.text.drop skip)
            (.block key
              (.plain header.render
                ((inner.segments false 0).append (.plain (closing semicolon) .done)))
              (rest.segments false 0))
      else
        .plain (gap.text.drop skip) (.plain header.render
          ((inner.segments false 0).append
            (.plain (closing semicolon) (rest.segments false 0))))

/-- What a block before may have taken of the first gap. -/
def Skips (line : Bool) (skip : Nat) (b : Body) : Prop :=
  skip = 0 ∨ (line = false ∧ skip = lineEnd b.firstGap.text)

theorem Skips.le_lastLine
    {line : Bool} {skip : Nat} {b : Body}
    (h : b.Skips line skip) :
    skip ≤ lastLine b.firstGap.text := by
  rcases h with rfl | ⟨-, rfl⟩
  · exact Nat.zero_le _
  · exact lineEnd_le_lastLine _

theorem Skips.le_length
    {line : Bool} {skip : Nat} {b : Body}
    (h : b.Skips line skip) :
    skip ≤ b.firstGap.text.length :=
  h.le_lastLine.trans (lastLine_le _)

theorem render_eq_firstGap (b : Body) :
    ∃ rest, b.render = b.firstGap.text ++ rest ∧
      (rest = [] ∨ ∃ c ∈ rest.head?, isWordStart c = true) := by
  cases b with
  | done gap => exact ⟨[], by simp [render, firstGap], Or.inl rfl⟩
  | scalar gap field rest =>
      refine ⟨_, rfl, Or.inr ?_⟩
      obtain ⟨c, tail, hword, hstart, -⟩ := field.name.isWord
      exact ⟨c, by simp [Scalar.render, hword], hstart⟩
  | message gap header inner semicolon rest =>
      refine ⟨_, rfl, Or.inr ?_⟩
      obtain ⟨c, tail, hword, hstart, -⟩ := header.name.isWord
      exact ⟨c, by simp [Header.render, hword], hstart⟩

/-- The segments of a body are its text. -/
theorem text_segments
    (b : Body) {line : Bool} {skip : Nat}
    (hskip : b.Skips line skip) :
    (b.segments line skip).text = b.render.drop skip := by
  have hfalse : ∀ b : Body, b.Skips false 0 := fun _ => Or.inl rfl
  induction b generalizing line skip with
  | done gap => simp [segments, Segments.text, render]
  | scalar gap field rest ih =>
      have hgap : skip ≤ gap.text.length := hskip.le_length
      simp only [segments, Segments.text, render, ih (hfalse rest), List.drop_zero]
      rw [List.drop_append_of_le_length hgap]
  | message gap header inner semicolon rest ihInner ihRest =>
      have hgap : skip ≤ gap.text.length := hskip.le_length
      unfold segments
      split_ifs with hname hline
      · have hfirst := take_lastLine_append (show skip ≤ lastLine gap.text from hskip.le_lastLine)
        have hrest := @ihRest false (lineEnd rest.firstGap.text) (Or.inr ⟨rfl, rfl⟩)
        obtain ⟨tail, htail, -⟩ := rest.render_eq_firstGap
        have hmore : rest.firstGap.text.take (lineEnd rest.firstGap.text) ++
            rest.render.drop (lineEnd rest.firstGap.text) = rest.render := by
          rw [htail, List.drop_append_of_le_length
            ((lineEnd_le_lastLine _).trans (lastLine_le _)), ← List.append_assoc,
            List.take_append_drop]
        simp only [Segments.text, Segments.text_append, ihInner (hfalse inner), hrest,
          List.drop_zero, render, List.append_nil]
        rw [List.drop_append_of_le_length hgap, ← hfirst]
        simp only [List.append_assoc, hmore]
      · simp only [Segments.text, Segments.text_append, ihInner (hfalse inner),
          ihRest (hfalse rest), List.drop_zero, render, List.append_nil]
        rw [List.drop_append_of_le_length hgap]
        simp only [List.append_assoc]
      · simp only [Segments.text, Segments.text_append, ihInner (hfalse inner),
          ihRest (hfalse rest), List.drop_zero, render]
        rw [List.drop_append_of_le_length hgap]

/-- The header of a message is not empty, so no block is. -/
theorem solid_segments
    (b : Body) (line : Bool) (skip : Nat) :
    (b.segments line skip).Solid := by
  have hheader : ∀ h : Header, h.render ≠ [] := by
    intro h
    simp [Header.render]
  induction b generalizing line skip with
  | done gap => trivial
  | scalar gap field rest ih => exact ih false 0
  | message gap header inner semicolon rest ihInner ihRest =>
      unfold segments
      split_ifs with hname hline
      · refine ⟨?_, ?_, ihRest _ _⟩
        · simp [Segments.text, hheader]
        · simp only [Segments.Solid, Segments.solid_append]
          exact ⟨ihInner _ _, trivial⟩
      · refine ⟨?_, ?_, ihRest _ _⟩
        · simp [Segments.text, hheader]
        · simp only [Segments.Solid, Segments.solid_append]
          exact ⟨ihInner _ _, trivial⟩
      · simp only [Segments.Solid, Segments.solid_append]
        exact ⟨ihInner _ _, ihRest _ _⟩

end Body

end Segmentation

section Steps

variable {text : Str} {i limit : Nat}

/-- One step of the block finder. -/
theorem findFrom_step
    {c : Char}
    (hc : peek text limit i = some c) (depth : Nat) :
    findFrom text limit i depth =
      match skipOpaque text i limit c with
      | some (.error e) => .error e
      | some (.ok j) => findFrom text limit j depth
      | none =>
          if c = '{' then findFrom text limit (i + 1) (depth + 1)
          else if c = '}' then
            if depth = 0 then .error (.schemeError "лишняя '\x7d' в scheme.pb")
            else findFrom text limit (i + 1) (depth - 1)
          else if isWordStart c then
            if slice text i (wordEnd text i limit) = attributesWord then
              match blockBrace text (wordEnd text i limit) limit with
              | none => findFrom text limit (wordEnd text i limit) depth
              | some brace =>
                  match scanMessage text brace limit with
                  | .error e => .error e
                  | .ok close => do
                      let contentEnd :=
                        if peek text limit close = some ';' then close + 1 else close
                      let key ← extractKey text brace close
                      let span := deletionSpan text i contentEnd
                      let nested ← findFrom text (close - 1) (brace + 1) 0
                      let rest ← findFrom text limit close depth
                      return ⟨span.1, span.2, key⟩ :: (nested ++ rest)
            else findFrom text limit (wordEnd text i limit) depth
          else findFrom text limit (i + 1) depth := by
  rw [findFrom]
  split
  · next hnone =>
      rw [hc] at hnone
      cases hnone
  · next d hd =>
      rw [hc] at hd
      cases hd
      split
      · next e he => simp only [he]
      · next j hj => simp only [hj]
      · next hskip =>
          simp only [hskip]
          split_ifs
          all_goals try rfl
          split
          · next hnone => simp only [hnone]
          · next brace hbrace =>
              simp only [hbrace]
              split
              · next e he => simp only [he]
              · next close hclose => simp only [hclose]

/-- What follows a name is a value, not a message. -/
def StartsValue (rest : Str) : Prop :=
  ∃ (s : Separator) (c : Char) (tail : Str),
    rest = s.render ++ c :: tail ∧ isWs c = false ∧ c ≠ ':' ∧ c ≠ '{'

/-- The brace of a block is looked for behind the separator. -/
theorem blockBrace_eq
    (s : Separator) {c : Char} {rest : Str}
    (hws : isWs c = false) (hcolon : c ≠ ':')
    (h : slice text i limit = s.render ++ c :: rest) :
    blockBrace text i limit = if c = '{' then some (i + s.render.length) else none := by
  unfold blockBrace
  dsimp only
  rw [skipSeparator_eq s hws hcolon h, peek_of_cons (slice_after h)]
  by_cases hc : c = '{'
  · subst hc
    rfl
  · rw [if_neg hc, if_neg (by simpa using hc)]

/-- The finder finds no brace in front of the text. -/
def HidesBrace (rest : Str) : Prop :=
  ∀ (text : Str) (i limit : Nat), slice text i limit = rest → blockBrace text i limit = none

theorem StartsValue.hidesBrace
    {rest : Str} (h : StartsValue rest) :
    HidesBrace rest := by
  intro text i limit hslice
  obtain ⟨s, c, tail, rfl, hws, hcolon, hbrace⟩ := h
  rw [blockBrace_eq s hws hcolon hslice, if_neg hbrace]

/-- Between blocks the finder passes over everything. -/
theorem findFrom_passes (text : Str) (limit depth : Nat) :
    Passes text limit (fun w rest => w = attributesWord → HidesBrace rest)
      (fun i => findFrom text limit i depth) where
  skip := by
    intro i c j hc hskip
    simp only [findFrom_step hc, hskip]
  quiet := by
    intro i c hc hquiet
    obtain ⟨hquote, hhash, hslash, hopen, hclose, hword⟩ := isQuiet_iff.mp hquiet
    simp only [findFrom_step hc, skipOpaque_eq_none hquote hhash hslash, if_neg hopen,
      if_neg hclose, hword, Bool.false_eq_true, if_false]
  word := by
    intro i w rest h hw hrest hordinary
    obtain ⟨c, hc, hstart⟩ := peek_of_word hw h
    have hpart := isWordPart_of_isWordStart hstart
    obtain ⟨-, -, -, hopen, hclose⟩ := ne_of_isWordPart hpart
    simp only [findFrom_step hc, skipOpaque_of_isWordPart hpart, if_neg hopen,
      if_neg hclose, hstart, if_true, wordEnd_eq hw hrest h, slice_before h]
    by_cases hname : w = attributesWord
    · rw [if_pos hname, hordinary hname text _ limit (slice_after h)]
    · rw [if_neg hname]

theorem findFrom_open
    (hc : peek text limit i = some '{') (depth : Nat) :
    findFrom text limit i depth = findFrom text limit (i + 1) (depth + 1) := by
  simp only [findFrom_step hc, skipOpaque_eq_none (c := '{') (by decide) (by decide)
    (by decide), if_true]

theorem findFrom_close
    (hc : peek text limit i = some '}') (depth : Nat) :
    findFrom text limit i (depth + 1) = findFrom text limit (i + 1) depth := by
  simp only [findFrom_step hc, skipOpaque_eq_none (c := '}') (by decide) (by decide)
    (by decide), if_neg (show '}' ≠ '{' by decide), if_true,
    if_neg (Nat.succ_ne_zero depth), Nat.add_sub_cancel]

/-- At the end of its slice the finder is done. -/
theorem findFrom_nil
    (h : slice text i limit = []) :
    findFrom text limit i 0 = .ok [] := by
  rw [findFrom]
  split
  · rfl
  · next c hc =>
      rw [peek_of_nil h] at hc
      cases hc

variable {rest : Str}

theorem findFrom_closing
    (semicolon : Bool) (depth : Nat)
    (h : slice text i limit = closing semicolon ++ rest) :
    findFrom text limit i (depth + 1) =
      findFrom text limit (i + (closing semicolon).length) depth := by
  cases semicolon with
  | false => exact findFrom_close (peek_of_cons h) depth
  | true =>
      rw [findFrom_close (peek_of_cons h)]
      exact (findFrom_passes text limit depth).quiet _ ';' (peek_of_cons (slice_tail h)) rfl

/-- A value starts with no blank, colon or brace. -/
theorem Scalar.startsValue (field : Scalar) (rest : Str) :
    StartsValue (field.separator.render ++ (field.value.render ++ rest)) := by
  obtain ⟨c, tail, hc⟩ := List.exists_cons_of_ne_nil field.value.render_ne_nil
  refine ⟨field.separator, c, tail ++ rest, by rw [hc]; rfl, ?_⟩
  cases hvalue : field.value with
  | strings first more =>
      rw [hvalue] at hc
      have hquote := first.isQuote
      rw [show first.quote = c from (List.cons.inj hc).1] at hquote
      simp only [isQuote, Bool.or_eq_true, beq_iff_eq] at hquote
      rcases hquote with rfl | rfl <;> decide
  | number n =>
      rw [hvalue] at hc
      have hfirst := n.isFirst
      rw [show n.first = c from (List.cons.inj hc).1] at hfirst
      have hne : ∀ d : Char, (d.isDigit || "+-.".toList.contains d) = false → c ≠ d := by
        rintro d hd rfl
        rw [hfirst] at hd
        cases hd
      refine ⟨?_, hne _ (by decide), hne _ (by decide)⟩
      simp only [isWs, Bool.or_eq_false_iff, beq_eq_false_iff_ne]
      exact ⟨⟨⟨hne _ (by decide), hne _ (by decide)⟩, hne _ (by decide)⟩, hne _ (by decide)⟩
  | identifier n =>
      rw [hvalue] at hc
      have hpart := n.isWord.isWordPart c (by
        rw [show n.text = c :: tail from hc]
        exact List.mem_cons_self)
      have hne : ∀ d : Char, isWordPart d = false → c ≠ d := by
        rintro d hd rfl
        rw [hpart] at hd
        cases hd
      refine ⟨?_, hne _ (by decide), hne _ (by decide)⟩
      cases hws : isWs c with
      | false => rfl
      | true =>
          rw [not_isWordPart_of_isWs hws] at hpart
          cases hpart

/-- A semicolon behind the closing brace belongs to the block. -/
theorem findFrom_semicolon
    {semicolon : Bool} {more : Str} {close stop : Nat} (depth : Nat)
    (hmore : closing semicolon = '}' :: more)
    (hrest : ∀ c ∈ rest.head?, c ≠ ';')
    (hafter : slice text close limit = more ++ rest)
    (hstop : stop = close + more.length) :
    (if peek text limit close = some ';' then close + 1 else close) = stop ∧
      findFrom text limit close depth = findFrom text limit stop depth := by
  cases semicolon with
  | false =>
      cases hmore
      have hpeek : peek text limit close ≠ some ';' := by
        rw [peek_eq_head?, hafter]
        exact fun heq => hrest ';' heq rfl
      rw [if_neg hpeek, hstop]
      exact ⟨rfl, rfl⟩
  | true =>
      cases hmore
      have hpeek : peek text limit close = some ';' := peek_of_cons hafter
      have heq : close + 1 = stop := hstop.symm
      rw [if_pos hpeek, heq]
      refine ⟨rfl, ?_⟩
      rw [← heq]
      exact (findFrom_passes text limit depth).quiet _ ';' hpeek rfl

/-- What the finder does at an `attributes` whose brace it finds. -/
theorem findFrom_attributes
    {separator inner : Str} (semicolon : Bool) (depth brace close stop : Nat)
    (hends : EndsWord (separator ++ '{' :: (inner ++ (closing semicolon ++ rest))))
    (hfind : blockBrace text (i + attributesWord.length) limit = some brace)
    (hscan : scanMessage text brace limit = .ok close)
    (hrest : ∀ c ∈ rest.head?, c ≠ ';')
    (h : slice text i limit =
      attributesWord ++ (separator ++ '{' :: (inner ++ (closing semicolon ++ rest))))
    (hbrace : brace = i + attributesWord.length + separator.length)
    (hclose : close = brace + (inner.length + 2))
    (hstop : stop = brace + 1 + inner.length + (closing semicolon).length) :
    findFrom text limit i depth =
        ((extractKey text brace close).bind fun key =>
          (findFrom text (close - 1) (brace + 1) 0).bind fun nested =>
            (findFrom text limit stop depth).map fun blocks =>
              ⟨(deletionSpan text i stop).1, (deletionSpan text i stop).2, key⟩ ::
                (nested ++ blocks)) ∧
      slice text brace close = '{' :: (inner ++ ['}']) ∧
      slice text (brace + 1) (close - 1) = inner := by
  have hword := isWord_attributes
  obtain ⟨more, hmore⟩ : ∃ more, closing semicolon = '}' :: more := by
    cases semicolon with
    | false => exact ⟨_, rfl⟩
    | true => exact ⟨_, rfl⟩
  have hat : slice text brace limit = '{' :: (inner ++ '}' :: (more ++ rest)) := by
    rw [hbrace, slice_after (slice_after h), hmore]
    rfl
  have hsplit : slice text brace limit = ('{' :: (inner ++ ['}'])) ++ (more ++ rest) := by
    rw [hat]
    simp
  have hend : brace + ('{' :: (inner ++ ['}'])).length = close := by
    rw [hclose]
    simp [Nat.add_assoc]
  have hblock : slice text brace close = '{' :: (inner ++ ['}']) := by
    have hbefore := slice_before hsplit
    rw [hend] at hbefore
    exact hbefore
  have hbody : slice text (brace + 1) (close - 1) = inner := by
    have hbefore := slice_before (slice_tail hat)
    have heq : brace + 1 + inner.length = close - 1 := by omega
    rw [heq] at hbefore
    exact hbefore
  refine ⟨?_, hblock, hbody⟩
  obtain ⟨c, hc, hstart⟩ := peek_of_word hword h
  have hpart := isWordPart_of_isWordStart hstart
  obtain ⟨-, -, -, hopen, hcloseBrace⟩ := ne_of_isWordPart hpart
  have hafter : slice text close limit = more ++ rest := by
    rw [← hend]
    exact slice_after hsplit
  have hstop' : stop = close + more.length := by
    rw [hstop, hclose, hmore, List.length_cons]
    omega
  have hsemicolon := findFrom_semicolon depth hmore hrest hafter hstop'
  simp only [findFrom_step hc, skipOpaque_of_isWordPart hpart, if_neg hopen,
    if_neg hcloseBrace, hstart, if_true, wordEnd_eq hword hends h, slice_before h, hfind,
    hscan, hsemicolon.1, hsemicolon.2]
  cases extractKey text brace close with
  | error e => rfl
  | ok key =>
      cases findFrom text (close - 1) (brace + 1) 0 with
      | error e => rfl
      | ok nested =>
          cases findFrom text limit stop depth <;> rfl

/-- What the finder does at an `attributes` block of a tree. -/
theorem findFrom_block
    (header : Header) (inner : Body) (semicolon : Bool) (depth brace close stop : Nat)
    (hname : header.name.text = attributesWord)
    (hinner : inner.Separated false)
    (hrest : ∀ c ∈ rest.head?, c ≠ ';')
    (h : slice text i limit = header.render ++ (inner.render ++ (closing semicolon ++ rest)))
    (hbrace : brace + 1 = i + header.render.length)
    (hclose : close = brace + (inner.render.length + 2))
    (hstop : stop = brace + 1 + inner.render.length + (closing semicolon).length) :
    findFrom text limit i depth =
        ((extractKey text brace close).bind fun key =>
          (findFrom text (close - 1) (brace + 1) 0).bind fun nested =>
            (findFrom text limit stop depth).map fun blocks =>
              ⟨(deletionSpan text i stop).1, (deletionSpan text i stop).2, key⟩ ::
                (nested ++ blocks)) ∧
      slice text brace close = '{' :: (inner.render ++ ['}']) ∧
      slice text (brace + 1) (close - 1) = inner.render := by
  have h' : slice text i limit = attributesWord ++ (header.separator.render ++
      '{' :: (inner.render ++ (closing semicolon ++ rest))) := by
    rw [h, ← hname]
    simp [Header.render]
  have hends : EndsWord (header.separator.render ++
      '{' :: (inner.render ++ (closing semicolon ++ rest))) := by
    by_cases hne : header.separator.render = []
    · rw [hne]
      intro c hc
      cases hc
      rfl
    · exact header.separator.endsWord.append hne _
  have hat : brace = i + attributesWord.length + header.separator.render.length := by
    simp only [Header.render, hname, List.length_append, List.length_singleton] at hbrace
    omega
  have hseparator := slice_after h'
  have hfind : blockBrace text (i + attributesWord.length) limit = some brace := by
    rw [blockBrace_eq header.separator (by decide) (by decide) hseparator, if_pos rfl, hat]
  have hscan : scanMessage text brace limit = .ok close := by
    have hopen := slice_after hseparator
    rw [← hat] at hopen
    cases semicolon <;>
      · rw [scanMessage_eq hinner hopen, hclose]
  exact findFrom_attributes semicolon depth brace close stop hends hfind hscan hrest h' hat
    hclose hstop

end Steps

section Positions

variable {text : Str} {i : Nat}

/-- The text before the position ends in a character that is no space. -/
def Inline (text : Str) (i : Nat) : Prop :=
  ∃ before c, text.take i = before ++ [c] ∧ isSpace c = false

/-- The part ends in a character that is no space. -/
def EndsSolid (w : Str) : Prop :=
  ∃ before c, w = before ++ [c] ∧ isSpace c = false

/-- The position is at the start of the text, or behind something. -/
def StartsAt (text : Str) (line : Bool) (i : Nat) : Prop :=
  i ≤ text.length ∧ ((line = true ∧ i = 0) ∨ (line = false ∧ Inline text i))

theorem take_of_slice
    {w rest : Str}
    (h : slice text i text.length = w ++ rest) :
    text.take (i + w.length) = text.take i ++ w := by
  unfold slice at h
  rw [List.take_length] at h
  rw [List.take_add, h, List.take_left]

theorem le_of_slice
    {w rest : Str}
    (hi : i ≤ text.length)
    (h : slice text i text.length = w ++ rest) :
    i + w.length ≤ text.length := by
  have hlength := length_slice hi (Nat.le_refl text.length)
  rw [h, List.length_append] at hlength
  omega

theorem startsAt_after
    {w rest : Str}
    (hw : EndsSolid w)
    (hi : i ≤ text.length)
    (h : slice text i text.length = w ++ rest) :
    StartsAt text false (i + w.length) := by
  refine ⟨le_of_slice hi h, Or.inr ⟨rfl, ?_⟩⟩
  obtain ⟨before, c, rfl, hc⟩ := hw
  exact ⟨text.take i ++ before, c, by rw [take_of_slice h, List.append_assoc], hc⟩

/-- The span of a block that is the first thing on its line. -/
theorem StartsAt.deletionSpan_line
    {line : Bool} {gap rest after : Str} {stop : Nat} (hstarts : StartsAt text line i)
    (hgap : ∀ c ∈ gap.drop (lastLine gap), isSpace c = true)
    (h : slice text i text.length = gap ++ rest)
    (hline : line = true ∨ '\n' ∈ gap)
    (hafter : slice text stop text.length = after) :
    deletionSpan text (i + gap.length) stop = (i + lastLine gap, stop + lineEnd after) := by
  have hlength : (text.take i).length = i := by
    rw [List.length_take, Nat.min_eq_left hstarts.1]
  have hfirst : text.take i = [] ∨ '\n' ∈ gap := by
    rcases hline with hline | hmem
    · rcases hstarts.2 with ⟨-, rfl⟩ | ⟨hnot, -⟩
      · exact Or.inl rfl
      · rw [hline] at hnot
        cases hnot
    · exact Or.inr hmem
  rw [Backup.deletionSpan_line hgap (take_of_slice h) hfirst hafter, hlength]

/-- The span of a block that stands behind something on its line. -/
theorem StartsAt.deletionSpan_inline
    {line : Bool} {gap rest : Str} (stop : Nat) (hstarts : StartsAt text line i)
    (h : slice text i text.length = gap ++ rest)
    (hline : ¬ (line = true ∨ '\n' ∈ gap)) :
    deletionSpan text (i + gap.length) stop = (i + gap.length, stop) := by
  obtain ⟨hnotLine, hnotMem⟩ := not_or.mp hline
  obtain ⟨before, c, hbefore, hc⟩ : Inline text i := by
    rcases hstarts.2 with ⟨hyes, -⟩ | ⟨-, hinline⟩
    · exact absurd hyes hnotLine
    · exact hinline
  have htake := take_of_slice h
  rw [hbefore, List.append_assoc, List.singleton_append] at htake
  exact Backup.deletionSpan_inline stop htake hc hnotMem

theorem not_isSpace_of_isWordPart
    {c : Char}
    (h : isWordPart c = true) :
    isSpace c = false := by
  cases hspace : isSpace c with
  | false => rfl
  | true =>
      simp only [isSpace, Bool.or_eq_true, Bool.and_eq_true, decide_eq_true_eq, beq_iff_eq]
        at hspace
      change (((decide (65 ≤ c.toNat ∧ c.toNat ≤ 90) || (97 ≤ c.toNat && c.toNat ≤ 122)) ||
        (48 ≤ c.toNat && c.toNat ≤ 57)) || c == '_') = true at h
      simp only [Bool.or_eq_true, Bool.and_eq_true, decide_eq_true_eq, beq_iff_eq] at h
      have hbounds : (65 ≤ c.toNat ∧ c.toNat ≤ 90) ∨ (97 ≤ c.toNat ∧ c.toNat ≤ 122) ∨
          (48 ≤ c.toNat ∧ c.toNat ≤ 57) ∨ c.toNat = 95 := by
        rcases h with ((h | h) | h) | rfl
        · exact Or.inl h
        · exact Or.inr (Or.inl h)
        · exact Or.inr (Or.inr (Or.inl h))
        · exact Or.inr (Or.inr (Or.inr rfl))
      omega

theorem not_isSpace_of_isNumberPart
    {c : Char}
    (h : isNumberPart c = true) :
    isSpace c = false := by
  simp only [isNumberPart, Bool.or_eq_true, List.contains_eq_mem, decide_eq_true_eq] at h
  rcases h with h | h
  · refine not_isSpace_of_isWordPart ?_
    simp [isWordPart, Char.isAlphanum, h]
  · have hall : ∀ d ∈ "+-.abcdefxinABCDEFXIN".toList, isSpace d = false := by
      simp [isSpace]
    exact hall c h

theorem endsSolid_append
    {w : Str} (hw : EndsSolid w) (front : Str) :
    EndsSolid (front ++ w) := by
  obtain ⟨before, c, rfl, hc⟩ := hw
  exact ⟨front ++ before, c, by simp, hc⟩

theorem endsSolid_of_forall
    {w : Str} (hne : w ≠ [])
    (h : ∀ c ∈ w, isSpace c = false) :
    EndsSolid w := by
  refine ⟨w.dropLast, w.getLast hne, (List.dropLast_append_getLast hne).symm, ?_⟩
  exact h _ (List.getLast_mem hne)

theorem Literal.endsSolid (l : Literal) :
    EndsSolid l.render := by
  refine ⟨l.quote :: l.body, l.quote, rfl, ?_⟩
  have hquote := l.isQuote
  simp only [Backup.isQuote, Bool.or_eq_true, beq_iff_eq] at hquote
  rcases hquote with hq | hq <;> rw [hq] <;> decide

theorem renderMore_endsSolid
    (first : Literal) (more : List (Blank × Literal)) :
    EndsSolid (first.render ++ renderMore more) := by
  induction more generalizing first with
  | nil =>
      rw [renderMore, List.append_nil]
      exact first.endsSolid
  | cons head more ih =>
      obtain ⟨between, l⟩ := head
      have h := endsSolid_append (ih l) (first.render ++ between.text)
      simpa [renderMore] using h

/-- A field ends in no space. -/
theorem Scalar.endsSolid (field : Scalar) :
    EndsSolid field.render := by
  unfold Scalar.render
  refine endsSolid_append (endsSolid_append ?_ _) _
  cases field.value with
  | strings first more => exact renderMore_endsSolid first more
  | number n =>
      refine endsSolid_of_forall (List.cons_ne_nil _ _) ?_
      intro c hc
      apply not_isSpace_of_isNumberPart
      rcases List.mem_cons.mp hc with rfl | hc
      · exact n.isNumberPart_first
      · exact n.isPart c hc
  | identifier n =>
      exact endsSolid_of_forall n.isWord.ne_nil
        (fun c hc => not_isSpace_of_isWordPart (n.isWord.isWordPart c hc))

theorem Header.endsSolid (header : Header) :
    EndsSolid header.render :=
  ⟨header.name.text ++ header.separator.render, '{', by simp [Header.render], rfl⟩

theorem endsSolid_closing (semicolon : Bool) :
    EndsSolid (closing semicolon) := by
  cases semicolon with
  | false => exact ⟨[], '}', rfl, rfl⟩
  | true => exact ⟨['}'], ';', rfl, rfl⟩

end Positions

section Bodies

variable {text : Str}

/-- The body ends where its message is closed, or with the text. -/
def Closes (rest : Str) : Prop :=
  ∀ c ∈ rest.head?, c = '}'

theorem Closes.endsWord
    {rest : Str} (h : Closes rest) :
    EndsWord rest := by
  intro c hc
  rw [h c hc]
  rfl

/-- A body does not start with a semicolon. -/
theorem Body.head_ne_semicolon
    (b : Body) {rest : Str} (hrest : Closes rest) :
    ∀ c ∈ (b.render ++ rest).head?, c ≠ ';' := by
  obtain ⟨tail, hsplit, htail⟩ := b.render_eq_firstGap
  rw [hsplit, List.append_assoc]
  have hrestHead : ∀ c ∈ (tail ++ rest).head?, c ≠ ';' := by
    intro c hc
    rcases htail with rfl | ⟨d, hd, hstart⟩
    · rw [hrest c hc]
      decide
    · cases tail with
      | nil => cases hd
      | cons e tail =>
          cases hd
          cases hc
          rintro rfl
          exact absurd hstart (by decide)
  have hgap := b.firstGap.isGap
  generalize b.firstGap.text = g at hgap
  cases hgap with
  | nil => exact hrestHead
  | ws hws _ =>
      intro c hc
      cases hc
      rintro rfl
      exact absurd hws (by decide)
  | comment _ _ =>
      intro c hc
      cases hc
      decide

/-- The line end behind a block is in the gap that follows. -/
theorem Body.lineEnd_render
    (b : Body) {rest : Str} (hrest : Closes rest) :
    lineEnd (b.render ++ rest) = lineEnd b.firstGap.text := by
  obtain ⟨tail, hsplit, htail⟩ := b.render_eq_firstGap
  rw [hsplit, List.append_assoc]
  apply lineEnd_append
  intro c hc
  rcases htail with rfl | ⟨d, hd, hstart⟩
  · rw [hrest c hc]
    rfl
  · cases tail with
    | nil => cases hd
    | cons e tail =>
        cases hd
        cases hc
        cases hws : isWs c with
        | false => rfl
        | true =>
            have hpart := isWordPart_of_isWordStart hstart
            rw [not_isWordPart_of_isWs hws] at hpart
            cases hpart

theorem closes_closing (semicolon : Bool) (rest : Str) :
    Closes (closing semicolon ++ rest) := by
  intro c hc
  cases semicolon with
  | false =>
      cases hc
      rfl
  | true =>
      cases hc
      rfl

theorem map_found_append (x : Except Failure (List AttrBlock)) (a b : List AttrBlock) :
    (x.map (b ++ ·)).map (a ++ ·) = x.map ((a ++ b) ++ ·) := by
  cases x <;> simp [Except.map]

theorem map_found_nil (x : Except Failure (List AttrBlock)) :
    x.map ([] ++ ·) = x := by
  cases x <;> rfl

namespace Body

variable {gap : Gap} {header : Header} {inner tail : Body} {semicolon : Bool}
variable {line : Bool} {skip : Nat}

/-- Where the fields of a message start that stands behind the position. -/
def bodyAt (i : Nat) (gap : Gap) (header : Header) : Nat :=
  i + gap.text.length + header.render.length

/-- Where such a message ends. -/
def stopAt (i : Nat) (gap : Gap) (header : Header) (inner : Body) (semicolon : Bool) : Nat :=
  bodyAt i gap header + inner.render.length + (closing semicolon).length

theorem stopAt_add (i : Nat) (gap : Gap) (header : Header) (inner : Body) (semicolon : Bool)
    (tail : Body) :
    stopAt i gap header inner semicolon + tail.render.length =
      i + (message gap header inner semicolon tail).render.length := by
  simp only [stopAt, bodyAt, render, List.length_append]
  omega

theorem text_segments_zero (b : Body) (line : Bool) :
    (b.segments line 0).text = b.render := by
  rw [b.text_segments (Or.inl rfl), List.drop_zero]

/-- The blocks of a message of another name are those in it and behind it. -/
theorem blocks_other
    (hname : header.name.text ≠ attributesWord)
    (hskip : (message gap header inner semicolon tail).Skips line skip) (i : Nat) :
    ((message gap header inner semicolon tail).segments line skip).blocks (i + skip) =
      (inner.segments false 0).blocks (bodyAt i gap header) ++
        (tail.segments false 0).blocks (stopAt i gap header inner semicolon) := by
  have hle : skip ≤ gap.text.length := hskip.le_length
  have hstart : i + skip + (gap.text.drop skip).length + header.render.length =
      bodyAt i gap header := by
    rw [List.length_drop, bodyAt]
    omega
  rw [segments, if_neg hname, Segments.blocks, Segments.blocks, Segments.blocks_append,
    Segments.blocks, inner.text_segments_zero, hstart]
  rfl

/-- A block that is the first thing on its line goes with the line. -/
theorem blocks_line
    (hname : header.name.text = attributesWord)
    (hskip : (message gap header inner semicolon tail).Skips line skip)
    (hline : line = true ∨ '\n' ∈ gap.text) (i : Nat) :
    ((message gap header inner semicolon tail).segments line skip).blocks (i + skip) =
      ⟨i + lastLine gap.text,
        stopAt i gap header inner semicolon + lineEnd tail.firstGap.text,
        some (inner.fields.decodedKey.getD [])⟩ ::
        ((inner.segments false 0).blocks (bodyAt i gap header) ++
          (tail.segments false (lineEnd tail.firstGap.text)).blocks
            (stopAt i gap header inner semicolon + lineEnd tail.firstGap.text)) := by
  have hcut : skip ≤ lastLine gap.text := hskip.le_lastLine
  have hlast := lastLine_le gap.text
  have hmore : lineEnd tail.firstGap.text ≤ tail.firstGap.text.length :=
    (lineEnd_le_lastLine _).trans (lastLine_le _)
  have hstart : i + skip + ((gap.text.take (lastLine gap.text)).drop skip).length =
      i + lastLine gap.text := by
    rw [List.length_drop, List.length_take, Nat.min_eq_left hlast]
    omega
  have hbody : i + lastLine gap.text + (gap.text.drop (lastLine gap.text)).length +
      header.render.length = bodyAt i gap header := by
    rw [List.length_drop, bodyAt]
    omega
  rw [segments, if_pos hname]
  dsimp only
  rw [if_pos hline]
  simp only [Segments.blocks, Segments.blocks_append, Segments.text, Segments.text_append,
    inner.text_segments_zero, List.append_nil, List.length_append, List.length_take,
    Nat.min_eq_left hmore, ← Nat.add_assoc, hstart, hbody, stopAt]

/-- A block behind something goes alone. -/
theorem blocks_inline
    (hname : header.name.text = attributesWord)
    (hskip : (message gap header inner semicolon tail).Skips line skip)
    (hline : ¬ (line = true ∨ '\n' ∈ gap.text)) (i : Nat) :
    ((message gap header inner semicolon tail).segments line skip).blocks (i + skip) =
      ⟨i + gap.text.length, stopAt i gap header inner semicolon,
        some (inner.fields.decodedKey.getD [])⟩ ::
        ((inner.segments false 0).blocks (bodyAt i gap header) ++
          (tail.segments false 0).blocks (stopAt i gap header inner semicolon)) := by
  have hle : skip ≤ gap.text.length := hskip.le_length
  have hstart : i + skip + (gap.text.drop skip).length = i + gap.text.length := by
    rw [List.length_drop]
    omega
  rw [segments, if_pos hname]
  dsimp only
  rw [if_neg hline]
  simp only [Segments.blocks, Segments.blocks_append, Segments.text, Segments.text_append,
    inner.text_segments_zero, List.append_nil, List.length_append, ← Nat.add_assoc, hstart,
    stopAt, bodyAt]

/-- What the finder does on a body that starts at the position: it finds every block, or it
raises if the literals of a key are not readable. -/
structure Scanned (text : Str) (limit depth i : Nat) (line : Bool) (skip : Nat) (b : Body) :
    Prop where
  found : (∀ l ∈ b.fields.keyLiterals, l.Readable) →
    findFrom text limit i depth =
      (findFrom text limit (i + b.render.length) depth).map
        ((b.segments line skip).blocks (i + skip) ++ ·)
  raises : (∃ l ∈ b.fields.keyLiterals, ¬ l.Readable) →
    ∃ e, findFrom text limit i depth = .error e

variable {limit depth i : Nat}

theorem Scanned.done
    (h : findFrom text limit i depth = findFrom text limit (i + gap.text.length) depth) :
    (done gap).Scanned text limit depth i line skip where
  found := by
    intro _
    exact h.trans (map_found_nil _).symm
  raises := by
    rintro ⟨l, hl, -⟩
    cases hl

theorem Scanned.scalar
    {field : Scalar}
    (hskip : (scalar gap field tail).Skips line skip)
    (h : findFrom text limit i depth =
      findFrom text limit (i + gap.text.length + field.render.length) depth)
    (htail : tail.Scanned text limit depth (i + gap.text.length + field.render.length) false 0) :
    (scalar gap field tail).Scanned text limit depth i line skip where
  found := by
    intro hread
    have hle : skip ≤ gap.text.length := hskip.le_length
    have hstart : i + skip + (gap.text.drop skip).length + field.render.length =
        i + gap.text.length + field.render.length + 0 := by
      rw [List.length_drop]
      omega
    have hend : i + gap.text.length + field.render.length + tail.render.length =
        i + (Body.scalar gap field tail).render.length := by
      simp only [render, List.length_append]
      omega
    rw [h, htail.found hread, hend, segments, Segments.blocks, Segments.blocks, hstart]
  raises := by
    intro hbad
    obtain ⟨e, he⟩ := htail.raises hbad
    exact ⟨e, h.trans he⟩

/-- The finder goes through a message of another name. -/
theorem Scanned.other
    (hname : header.name.text ≠ attributesWord)
    (hskip : (message gap header inner semicolon tail).Skips line skip)
    (hopen : findFrom text limit i depth =
      findFrom text limit (bodyAt i gap header) (depth + 1))
    (hclose : findFrom text limit (bodyAt i gap header + inner.render.length) (depth + 1) =
      findFrom text limit (stopAt i gap header inner semicolon) depth)
    (hinner : inner.Scanned text limit (depth + 1) (bodyAt i gap header) false 0)
    (htail : tail.Scanned text limit depth (stopAt i gap header inner semicolon) false 0) :
    (message gap header inner semicolon tail).Scanned text limit depth i line skip where
  found := by
    intro hread
    rw [fields, Fields.keyLiterals, if_neg hname] at hread
    obtain ⟨hreadInner, hreadTail⟩ := List.forall_mem_append.mp hread
    rw [hopen, hinner.found hreadInner, hclose, htail.found hreadTail, map_found_append,
      stopAt_add, blocks_other hname hskip]
    rfl
  raises := by
    rintro ⟨l, hl, hnot⟩
    rw [fields, Fields.keyLiterals, if_neg hname] at hl
    by_cases hreadInner : ∀ l ∈ inner.fields.keyLiterals, l.Readable
    · have hltail := (List.mem_append.mp hl).resolve_left fun hmem => hnot (hreadInner l hmem)
      obtain ⟨e, he⟩ := htail.raises ⟨l, hltail, hnot⟩
      exact ⟨e, by rw [hopen, hinner.found hreadInner, hclose, he]; rfl⟩
    · push Not at hreadInner
      obtain ⟨e, he⟩ := hinner.raises hreadInner
      exact ⟨e, hopen.trans he⟩

/-- The finder reads the key of a block, scans the block, and goes on behind it; the first
of the three that raises decides. -/
theorem Scanned.attributes
    (line : Bool) (skip more : Nat) {brace close : Nat} {span : Nat × Nat}
    {literals : List Literal}
    (hname : header.name.text = attributesWord)
    (hkeys : inner.fields.keyFields = [some literals])
    (hrun : findFrom text limit i depth =
      (extractKey text brace close).bind fun key =>
        (findFrom text (close - 1) (bodyAt i gap header) 0).bind fun nested =>
          (findFrom text limit (stopAt i gap header inner semicolon) depth).map fun blocks =>
            ⟨span.1, span.2, key⟩ :: (nested ++ blocks))
    (hinnerSep : inner.Separated false)
    (hblock : slice text brace close = '{' :: (inner.render ++ ['}']))
    (hend : findFrom text (close - 1) (bodyAt i gap header + inner.render.length) 0 = .ok [])
    (hinner : inner.Scanned text (close - 1) 0 (bodyAt i gap header) false 0)
    (htail : tail.Scanned text limit depth (stopAt i gap header inner semicolon) false more)
    (hblocks : ((message gap header inner semicolon tail).segments line skip).blocks (i + skip) =
      ⟨span.1, span.2, some (inner.fields.decodedKey.getD [])⟩ ::
        ((inner.segments false 0).blocks (bodyAt i gap header) ++
          (tail.segments false more).blocks (stopAt i gap header inner semicolon + more))) :
    (message gap header inner semicolon tail).Scanned text limit depth i line skip where
  found := by
    intro hread
    rw [fields, Fields.keyLiterals, if_pos hname, hkeys, List.flatMap_singleton,
      Option.getD_some] at hread
    obtain ⟨hreadKey, hread⟩ := List.forall_mem_append.mp hread
    obtain ⟨hreadInner, hreadTail⟩ := List.forall_mem_append.mp hread
    obtain ⟨hkey, hsome⟩ := extractKey_eq hinnerSep hkeys hreadKey hblock
    obtain ⟨key, hdecoded⟩ := Option.isSome_iff_exists.mp hsome
    rw [hrun, hkey, hinner.found hreadInner, hend, htail.found hreadTail, stopAt_add, hblocks,
      hdecoded]
    cases findFrom text limit (i + (message gap header inner semicolon tail).render.length)
      depth <;> simp [Except.bind, Except.map]
  raises := by
    rintro ⟨l, hl, hnot⟩
    rw [fields, Fields.keyLiterals, if_pos hname, hkeys, List.flatMap_singleton,
      Option.getD_some, List.mem_append, List.mem_append] at hl
    rw [hrun]
    by_cases hreadKey : ∀ l ∈ literals, l.Readable
    · rw [(extractKey_eq hinnerSep hkeys hreadKey hblock).1]
      by_cases hreadInner : ∀ l ∈ inner.fields.keyLiterals, l.Readable
      · have hltail := (hl.resolve_left fun h => hnot (hreadKey l h)).resolve_left fun h =>
          hnot (hreadInner l h)
        obtain ⟨e, he⟩ := htail.raises ⟨l, hltail, hnot⟩
        exact ⟨e, by rw [hinner.found hreadInner, hend, he]; rfl⟩
      · push Not at hreadInner
        obtain ⟨e, he⟩ := hinner.raises hreadInner
        exact ⟨e, by rw [he]; rfl⟩
    · push Not at hreadKey
      obtain ⟨e, he⟩ := extractKey_error hinnerSep hkeys hreadKey hblock
      exact ⟨e, by rw [he]; rfl⟩

end Body

open Body in
/-- The finder scans a whole body. -/
theorem findFrom_body
    (b : Body) (line : Bool) (skip depth : Nat)
    {touching : Bool} {i limit : Nat} {rest post : Str}
    (hb : b.Separated touching)
    (hkeyed : b.fields.Keyed)
    (hskip : b.Skips line skip)
    (hstarts : StartsAt text line i)
    (hrest : Closes rest) (hpost : Closes post)
    (h : slice text i limit = b.render ++ rest)
    (hwhole : slice text i text.length = b.render ++ post) :
    b.Scanned text limit depth i line skip := by
  induction b generalizing i limit depth skip line touching rest post with
  | done gap => exact .done ((findFrom_passes text limit depth).gap gap.isGap h)
  | scalar gap field tail ih =>
      simp only [Body.render, List.append_assoc] at h hwhole
      have hp := findFrom_passes text limit depth
      have hfield := slice_after h
      have hfieldWhole := slice_after hwhole
      have hi := le_of_slice hstarts.1 hwhole
      have hscalar := hp.scalar (fun w _ _ hw heq => absurd heq hw) field
        (fun _ => (field.startsValue _).hidesBrace)
        (Scalar.endsWord_rest hb.2 hrest.endsWord) hfield
      refine .scalar hskip ((hp.gap gap.isGap h).trans hscalar) ?_
      exact ih false 0 depth hb.2 hkeyed (Or.inl rfl)
        (startsAt_after field.endsSolid hi hfieldWhole) hrest hpost (slice_after hfield)
        (slice_after hfieldWhole)
  | message gap header inner semicolon tail ihInner ihTail =>
      obtain ⟨hkeys, hkeyedInner, hkeyedTail⟩ := hkeyed
      simp only [Body.render, List.append_assoc] at h hwhole
      have hp := findFrom_passes text limit depth
      have hgap := hp.gap gap.isGap h
      have hheader := slice_after h
      have hheaderWhole := slice_after hwhole
      have hinner := slice_after hheader
      have hinnerWhole := slice_after hheaderWhole
      have hclosing := slice_after hinner
      have hclosingWhole := slice_after hinnerWhole
      have hiHeader := le_of_slice hstarts.1 hwhole
      have hiInner := le_of_slice hiHeader hheaderWhole
      have hiClosing := le_of_slice hiInner hinnerWhole
      have hinnerStarts := startsAt_after header.endsSolid hiHeader hheaderWhole
      have htailStarts := startsAt_after (endsSolid_closing semicolon) hiClosing hclosingWhole
      have hafter : slice text (stopAt i gap header inner semicolon) text.length =
          tail.render ++ post := slice_after hclosingWhole
      -- what stands behind the message is scanned from there, whatever was taken of its gap
      have htail : ∀ more, tail.Skips false more →
          tail.Scanned text limit depth (stopAt i gap header inner semicolon) false more :=
        fun more hmore => ihTail false more depth hb.2.2 hkeyedTail hmore htailStarts hrest hpost
          (slice_after hclosing) hafter
      by_cases hname : header.name.text = attributesWord
      · obtain ⟨literals, hliterals⟩ := hkeys hname
        obtain ⟨brace, hbrace⟩ : ∃ brace, brace + 1 = bodyAt i gap header := by
          obtain ⟨before, c, heq, -⟩ := header.endsSolid
          exact ⟨i + gap.text.length + before.length, by simp [bodyAt, heq, Nat.add_assoc]⟩
        obtain ⟨hrun, hblock, hbody⟩ := findFrom_block header inner semicolon depth brace
          (brace + (inner.render.length + 2)) (stopAt i gap header inner semicolon) hname hb.2.1
          (tail.head_ne_semicolon hrest) hheader hbrace rfl (by rw [hbrace]; rfl)
        rw [hbrace] at hrun hbody
        have hbody' := hbody.trans (List.append_nil _).symm
        -- the block's own fields, up to its closing brace
        have hnested := ihInner false 0 0 hb.2.1 hkeyedInner (Or.inl rfl) hinnerStarts
          (fun _ h => by cases h) (closes_closing semicolon _) hbody' hinnerWhole
        have hscanned := fun more htailMore => Scanned.attributes line skip more hname hliterals
          (hgap.trans hrun) hb.2.1 hblock (findFrom_nil (slice_after hbody')) hnested
          (htail more htailMore)
        by_cases hline : line = true ∨ '\n' ∈ gap.text
        · rw [hstarts.deletionSpan_line gap.isSpace_lastLine hwhole hline hafter,
            tail.lineEnd_render hpost] at hscanned
          exact hscanned _ (Or.inr ⟨rfl, rfl⟩) (blocks_line hname hskip hline i)
        · rw [hstarts.deletionSpan_inline _ hwhole hline] at hscanned
          exact hscanned 0 (Or.inl rfl) (blocks_inline hname hskip hline i)
      · -- a message of another name is scanned like what stands around it
        obtain ⟨hpass, hopening⟩ := hp.header header (fun heq => absurd heq hname) hheader
        have hopen := findFrom_open (peek_of_cons hopening) depth
        have hlength : i + gap.text.length + header.name.text.length +
            header.separator.render.length + 1 = bodyAt i gap header := by
          simp only [bodyAt, Header.render, List.length_append, List.length_singleton]
          omega
        rw [hlength] at hopen
        have hnested := ihInner false 0 (depth + 1) hb.2.1 hkeyedInner (Or.inl rfl) hinnerStarts
          (closes_closing semicolon _) (closes_closing semicolon _) hinner hinnerWhole
        exact .other hname hskip (hgap.trans (hpass.trans hopen))
          (findFrom_closing semicolon depth hclosing) hnested (htail 0 (Or.inl rfl))

end Bodies

end Backup
end YdbSnippets
