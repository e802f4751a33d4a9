import YdbSnippets.Backup.Braces
import YdbSnippets.Backup.Escapes

/-!
# The key of a block

The key extractor walks over a block and reads the strings of its one direct
field `key`; it raises exactly if one of them is not readable.
-/

namespace YdbSnippets
namespace Backup

open Python

section Separators

variable {text : Str} {i limit : Nat}

/-- Where the scanners look for what follows a name: after the blanks, and
after a colon and the blanks behind it. -/
theorem skipSeparator_eq
    (s : Separator) {c : Char} {rest : Str}
    (hws : isWs c = false) (hcolon : c ≠ ':')
    (h : slice text i limit = s.render ++ c :: rest) :
    (if peek text limit (skipWs text i limit) = some ':' then
      skipWs text (skipWs text i limit + 1) limit else skipWs text i limit) =
        i + s.render.length := by
  unfold skipWs
  cases s with
  | blank between =>
      change slice text i limit = between.text ++ c :: rest at h
      have hstop : skipWhile isWs text limit i = i + between.text.length := by
        refine skipWhile_eq h between.isWs ?_
        intro d hd
        cases hd
        exact hws
      rw [hstop, peek_of_cons (slice_after h), if_neg (by simpa using hcolon)]
      rfl
  | colon before after =>
      simp only [Separator.render, List.append_assoc, List.cons_append] at h
      have hstop : skipWhile isWs text limit i = i + before.text.length := by
        refine skipWhile_eq h before.isWs ?_
        intro d hd
        cases hd
        rfl
      have hcolonAt := slice_after h
      have hafter : skipWhile isWs text limit (i + before.text.length + 1) =
          i + before.text.length + 1 + after.text.length := by
        refine skipWhile_eq (slice_tail hcolonAt) after.isWs ?_
        intro d hd
        cases hd
        exact hws
      rw [hstop, peek_of_cons hcolonAt, if_pos rfl, hafter]
      simp only [Separator.render, List.length_append, List.length_cons]
      omega

end Separators

section Strings

variable {text : Str} {i limit : Nat}

/-- The text goes on with something that is neither blank nor a literal. -/
def StopsStrings (rest : Str) : Prop :=
  ∀ c ∈ rest.head?, isWs c = false ∧ isQuote c = false

/-- One step of reading adjacent literals. -/
theorem readLiterals_step
    (l : Literal) {rest : Str}
    (h : slice text i limit = l.render ++ rest) :
    readLiterals text limit i =
      (decodeProtoString l.render).bind fun part =>
        (readLiterals text limit (skipWs text (i + l.render.length) limit)).map
          (fun result => (part :: result.1, result.2)) := by
  have h' : slice text i limit = l.quote :: (l.body ++ l.quote :: rest) := by
    rw [h]
    simp [Literal.render]
  have hlength : l.render.length = l.body.length + 2 := by
    simp [Literal.render]
  have hskip := skipString_eq l.isQuote l.closed h'
  have hpart : slice text i (i + (l.body.length + 2)) = l.render := by
    rw [← hlength]
    exact slice_before h
  rw [readLiterals]
  split
  · next hnone =>
      rw [peek_of_cons h'] at hnone
      cases hnone
  · next d hd =>
      rw [peek_of_cons h'] at hd
      cases hd
      rw [if_pos l.isQuote]
      split
      · next e he =>
          rw [hskip] at he
          cases he
      · next stop hstop =>
          rw [hskip] at hstop
          cases hstop
          rw [hpart, hlength]
          rfl

/-- Reading stops where no literal follows. -/
theorem readLiterals_stop
    {rest : Str}
    (hrest : StopsStrings rest)
    (h : slice text i limit = rest) :
    readLiterals text limit i = .ok ([], i) := by
  rw [readLiterals]
  split
  · rfl
  · next c hc =>
      rw [peek_eq_head?, h] at hc
      rw [if_neg (by simp [(hrest c hc).2])]

/-- Blanks are skipped up to the next literal. -/
theorem skipWs_literal
    (between : Blank) (l : Literal) {rest : Str}
    (h : slice text i limit = between.text ++ (l.render ++ rest)) :
    skipWs text i limit = i + between.text.length := by
  refine skipWhile_eq h between.isWs ?_
  intro c hc
  have hquote : isQuote c = true := by
    simp only [Literal.render, List.cons_append, List.head?_cons, Option.mem_def,
      Option.some.injEq] at hc
    exact hc ▸ l.isQuote
  cases hw : isWs c with
  | false => rfl
  | true =>
      have hquiet := isQuiet_iff.mp (isQuiet_of_isWs hw)
      rw [hquote] at hquiet
      cases hquiet.1

/-- Readable literals are read one after another, with the blanks behind them. -/
theorem readLiterals_eq
    (first : Literal) (more : List (Blank × Literal))
    {ws rest : Str}
    (hws : ∀ c ∈ ws, isWs c = true) (hrest : StopsStrings rest)
    (h : slice text i limit = first.render ++ (renderMore more ++ (ws ++ rest)))
    (hread : ∀ l ∈ first :: more.map Prod.snd, l.Readable) :
    ∃ parts, (first :: more.map Prod.snd).mapM (fun l => protoDecode l.body) = some parts ∧
      readLiterals text limit i =
        .ok (parts, i + (first.render.length + (renderMore more).length + ws.length)) := by
  obtain ⟨part, hpart, hdecode⟩ := decodeProtoString_of_readable (hread first List.mem_cons_self)
  have hafter := slice_after h
  induction more generalizing first part i with
  | nil =>
      have hstop : skipWs text (i + first.render.length) limit =
          i + first.render.length + ws.length :=
        skipWhile_eq hafter hws (fun c hc => (hrest c hc).1)
      refine ⟨[part], by simp [hpart], ?_⟩
      rw [readLiterals_step first h, hdecode, hstop,
        readLiterals_stop hrest (slice_after (a := ws) hafter)]
      simp only [Except.bind, Except.map, renderMore, List.length_nil, Nat.add_zero,
        Nat.add_assoc]
  | cons head more ih =>
      obtain ⟨between, l⟩ := head
      simp only [renderMore, List.append_assoc] at h hafter
      have hstop := skipWs_literal between l hafter
      have hnext := slice_after hafter
      obtain ⟨part', hpart', hdecode'⟩ := decodeProtoString_of_readable
        (hread l (by simp))
      obtain ⟨parts, hparts, hreads⟩ := ih l hnext
        (fun l' hl' => hread l' (List.mem_cons_of_mem _ hl')) part' hpart' hdecode'
        (slice_after hnext)
      refine ⟨part :: parts, ?_, ?_⟩
      · rw [List.map_cons, List.mapM_cons, hpart, hparts]
        rfl
      · have hstep := readLiterals_step first h
        rw [hstep, hdecode, hstop, hreads]
        simp only [Except.bind, Except.map, renderMore, List.length_append]
        congr 2
        omega

/-- A literal that is not readable raises, wherever it stands. -/
theorem readLiterals_error
    (first : Literal) (more : List (Blank × Literal)) {rest : Str}
    (h : slice text i limit = first.render ++ (renderMore more ++ rest))
    (hbad : ∃ l ∈ first :: more.map Prod.snd, ¬ l.Readable) :
    ∃ e, readLiterals text limit i = .error e := by
  have hafter := slice_after h
  induction more generalizing first i with
  | nil =>
      obtain ⟨l, hl, hnot⟩ := hbad
      simp only [List.map_nil, List.mem_singleton] at hl
      subst hl
      obtain ⟨e, he⟩ := decodeProtoString_of_not_readable hnot
      exact ⟨e, by rw [readLiterals_step l h, he]; rfl⟩
  | cons head more ih =>
      obtain ⟨between, l⟩ := head
      simp only [renderMore, List.append_assoc] at h hafter
      by_cases hfirst : first.Readable
      · obtain ⟨part, -, hdecode⟩ := decodeProtoString_of_readable hfirst
        have hnext := slice_after hafter
        have hrest : ∃ l' ∈ l :: more.map Prod.snd, ¬ l'.Readable := by
          obtain ⟨l', hl', hnot⟩ := hbad
          rcases List.mem_cons.mp hl' with rfl | hl'
          · exact absurd hfirst hnot
          · exact ⟨l', hl', hnot⟩
        obtain ⟨e, he⟩ := ih l hnext hrest (slice_after hnext)
        refine ⟨e, ?_⟩
        rw [readLiterals_step first h, hdecode, skipWs_literal between l hafter, he]
        rfl
      · obtain ⟨e, he⟩ := decodeProtoString_of_not_readable hfirst
        exact ⟨e, by rw [readLiterals_step first h, he]; rfl⟩

theorem readStrings_eq_bind
    (s : Separator) (first : Literal) {rest : Str}
    (h : slice text i limit = s.render ++ (first.render ++ rest)) :
    readStrings text i limit =
      (readLiterals text limit (i + s.render.length)).bind fun result =>
        if result.1.isEmpty then .ok (none, result.2)
        else .ok (some result.1.flatten, result.2) := by
  have hne : isWs first.quote = false ∧ first.quote ≠ ':' := by
    have hq := first.isQuote
    simp only [isQuote, Bool.or_eq_true, beq_iff_eq] at hq
    rcases hq with hq | hq <;> rw [hq] <;> decide
  have hstart := skipSeparator_eq s hne.1 hne.2 h
  unfold readStrings
  dsimp only
  rw [hstart]
  rfl

end Strings

section KeyExtractor

variable {text : Str} {i limit : Nat}

/-- One step of the key extractor. -/
theorem extractKeyFrom_step
    {c : Char}
    (hc : peek text limit i = some c) (depth : Int) (key : Option CodePoints) :
    extractKeyFrom text limit i depth key =
      match skipOpaque text i limit c with
      | some (.error e) => .error e
      | some (.ok j) => extractKeyFrom text limit j depth key
      | none =>
          if c = '{' then extractKeyFrom text limit (i + 1) (depth + 1) key
          else if c = '}' then extractKeyFrom text limit (i + 1) (depth - 1) key
          else if isWordStart c then
            if depth = 1 ∧ slice text i (wordEnd text i limit) = keyWord then
              match readStrings text (wordEnd text i limit) limit with
              | .error e => .error e
              | .ok (none, _) => .error (.schemeError "у атрибута нет строкового поля key")
              | .ok (some value, j) =>
                  if key.isSome then
                    .error (.schemeError "в блоке attributes несколько полей key")
                  else extractKeyFrom text limit j depth (some value)
            else extractKeyFrom text limit (wordEnd text i limit) depth key
          else extractKeyFrom text limit (i + 1) depth key := by
  rw [extractKeyFrom]
  split
  · next hnone =>
      rw [hc] at hnone
      cases hnone
  · next d hd =>
      rw [hc] at hd
      cases hd
      split
      · next e he => simp only [he]
      · next j hj => simp only [hj]
      · next hskip =>
          simp only [hskip]
          cases hread : readStrings text (wordEnd text i limit) limit with
          | error e => split_ifs <;> rfl
          | ok result =>
              obtain ⟨value, j⟩ := result
              cases value <;> split_ifs <;> rfl

/-- Outside of the depth 1 every word is passed, and there every word but
`key`. -/
theorem extractKeyFrom_passes
    (text : Str) (limit : Nat) (depth : Int) (key : Option CodePoints) :
    Passes text limit (fun w _ => depth = 1 → w ≠ keyWord)
      (fun i => extractKeyFrom text limit i depth key) where
  skip := by
    intro i c j hc hskip
    simp only [extractKeyFrom_step hc, hskip]
  quiet := by
    intro i c hc hquiet
    obtain ⟨hquote, hhash, hslash, hopen, hclose, hword⟩ := isQuiet_iff.mp hquiet
    simp only [extractKeyFrom_step hc, skipOpaque_eq_none hquote hhash hslash, if_neg hopen,
      if_neg hclose, hword, Bool.false_eq_true, if_false]
  word := by
    intro i w rest h hw hrest hordinary
    obtain ⟨c, hc, hstart⟩ := peek_of_word hw h
    have hpart := isWordPart_of_isWordStart hstart
    obtain ⟨-, -, -, hopen, hclose⟩ := ne_of_isWordPart hpart
    have hnot : ¬ (depth = 1 ∧ w = keyWord) := fun ⟨hd, heq⟩ => hordinary hd heq
    simp only [extractKeyFrom_step hc, skipOpaque_of_isWordPart hpart, if_neg hopen,
      if_neg hclose, hstart, if_true, wordEnd_eq hw hrest h, slice_before h, if_neg hnot]

theorem extractKeyFrom_open
    (hc : peek text limit i = some '{') (depth : Int) (key : Option CodePoints) :
    extractKeyFrom text limit i depth key =
      extractKeyFrom text limit (i + 1) (depth + 1) key := by
  simp only [extractKeyFrom_step hc, skipOpaque_eq_none (c := '{') (by decide) (by decide)
    (by decide), if_true]

theorem extractKeyFrom_close
    (hc : peek text limit i = some '}') (depth : Int) (key : Option CodePoints) :
    extractKeyFrom text limit i depth key =
      extractKeyFrom text limit (i + 1) (depth - 1) key := by
  simp only [extractKeyFrom_step hc, skipOpaque_eq_none (c := '}') (by decide) (by decide)
    (by decide), if_neg (show '}' ≠ '{' by decide), if_true]

/-- Below the fields of the block nothing is a key. -/
theorem extractKeyFrom_levels
    (text : Str) (limit : Nat) (key : Option CodePoints) :
    Levels text limit 2 (fun d i => extractKeyFrom text limit i (d : Int) key) where
  passes d hd :=
    { skip := (extractKeyFrom_passes text limit d key).skip
      quiet := (extractKeyFrom_passes text limit d key).quiet
      word := by
        intro i w rest h hw hrest _
        have hne : (d : Int) ≠ 1 := by omega
        exact (extractKeyFrom_passes text limit d key).word i w rest h hw hrest
          (fun h1 => absurd h1 hne) }
  opens := by
    intro d i _ hc
    simp only [extractKeyFrom_open hc]
    rfl
  closes := by
    intro d i _ hc
    have hcast : ((d + 1 : Nat) : Int) - 1 = d := by omega
    simp only [extractKeyFrom_close hc, hcast]

variable {key : Option CodePoints} {rest : Str}

/-- A message that is a direct field of the block is passed. -/
theorem extractKeyFrom_message
    (header : Header) (inner : Body) (semicolon : Bool)
    (hname : header.name.text ≠ keyWord)
    (hinner : inner.Separated false)
    (h : slice text i limit =
      header.render ++ (inner.render ++ (closing semicolon ++ rest))) :
    extractKeyFrom text limit i 1 key =
      extractKeyFrom text limit
        (i + (header.render.length + (inner.render.length + (closing semicolon).length)))
        1 key := by
  have hp := extractKeyFrom_passes text limit 1 key
  obtain ⟨hpass, hbrace⟩ := hp.header header (fun _ => hname) h
  have hbody := slice_tail hbrace
  have hclosing := slice_after hbody
  have hlevels := (extractKeyFrom_levels text limit key).body inner (Nat.le_refl 2) hinner
    (endsWord_closing semicolon rest) hbody
  rw [hpass, extractKeyFrom_open (peek_of_cons hbrace)]
  refine Eq.trans hlevels ?_
  have hheader : header.render.length =
      header.name.text.length + header.separator.render.length + 1 := by
    simp [Header.render, Nat.add_assoc]
  have hend : extractKeyFrom text limit
      (i + header.name.text.length + header.separator.render.length + 1 + inner.render.length)
        (2 : Nat) key =
      extractKeyFrom text limit
        (i + header.name.text.length + header.separator.render.length + 1 +
          inner.render.length + (closing semicolon).length) 1 key := by
    cases semicolon with
    | false => exact extractKeyFrom_close (peek_of_cons hclosing) _ _
    | true =>
        rw [extractKeyFrom_close (peek_of_cons hclosing)]
        exact hp.quiet _ ';' (peek_of_cons (slice_tail hclosing)) rfl
  rw [hend, hheader]
  congr 1
  omega

/-- Fields without a `key` leave the key as it is. -/
theorem extractKeyFrom_body
    (b : Body) {touching : Bool}
    (hb : b.Separated touching)
    (hkeys : b.fields.keyFields = [])
    (hrest : EndsWord rest)
    (h : slice text i limit = b.render ++ rest) :
    extractKeyFrom text limit i 1 key =
      extractKeyFrom text limit (i + b.render.length) 1 key := by
  have hp := extractKeyFrom_passes text limit 1 key
  induction b generalizing i touching with
  | done gap => exact hp.gap gap.isGap h
  | scalar gap field tail ih =>
      simp only [Body.render, List.append_assoc] at h
      simp only [Body.fields, Fields.keyFields] at hkeys
      have hname : field.name.text ≠ keyWord := by
        intro heq
        simp [heq] at hkeys
      rw [if_neg hname] at hkeys
      have hfield := slice_after h
      have hgap := hp.gap gap.isGap h
      have hscalar := hp.scalar (fun w _ hw _ _ => hw) field (fun _ => hname)
        (Scalar.endsWord_rest hb.2 hrest) hfield
      rw [hgap, hscalar, ih hb.2 hkeys (slice_after hfield)]
      congr 1
      simp only [Body.render, List.length_append]
      omega
  | message gap header inner semicolon tail _ ih =>
      simp only [Body.render, List.append_assoc] at h
      simp only [Body.fields, Fields.keyFields] at hkeys
      have hname : header.name.text ≠ keyWord := by
        intro heq
        simp [heq] at hkeys
      rw [if_neg hname] at hkeys
      have hmessage := slice_after h
      have hgap := hp.gap gap.isGap h
      have htail : slice text (i + gap.text.length + (header.render.length +
          (inner.render.length + (closing semicolon).length))) limit = tail.render ++ rest := by
        have := slice_after (slice_after (slice_after hmessage))
        simpa only [Nat.add_assoc] using this
      rw [hgap, extractKeyFrom_message header inner semicolon hname hb.2.1 hmessage,
        ih hb.2.2 hkeys htail]
      congr 1
      simp only [Body.render, List.length_append]
      omega

/-- At the name of a key field the strings behind it are read. -/
theorem extractKeyFrom_keyWord
    (field : Scalar)
    (hname : field.name.text = keyWord)
    (h : slice text i limit = field.render ++ rest) :
    extractKeyFrom text limit i 1 none =
      match readStrings text (i + field.name.text.length) limit with
      | .error e => .error e
      | .ok (none, _) => .error (.schemeError "у атрибута нет строкового поля key")
      | .ok (some value, j) => extractKeyFrom text limit j 1 (some value) := by
  simp only [Scalar.render, List.append_assoc] at h
  have hw := field.name.isWord
  obtain ⟨c, hc, hstart⟩ := peek_of_word hw h
  have hpart := isWordPart_of_isWordStart hstart
  obtain ⟨-, -, -, hopen, hclose⟩ := ne_of_isWordPart hpart
  have hword := slice_before h
  rw [hname] at hword
  simp only [extractKeyFrom_step hc, skipOpaque_of_isWordPart hpart, if_neg hopen,
    if_neg hclose, hstart, if_true, wordEnd_eq hw (field.endsWord rest) h, hname, hword,
    and_self, Option.isSome_none, Bool.false_eq_true, if_false]

/-- A readable key becomes the key of the block. -/
theorem extractKeyFrom_key
    (field : Scalar) {first : Literal} {more : List (Blank × Literal)} {ws : Str}
    (hname : field.name.text = keyWord)
    (hvalue : field.value = .strings first more)
    (hws : ∀ c ∈ ws, isWs c = true) (hrest : StopsStrings rest)
    (h : slice text i limit = field.render ++ (ws ++ rest))
    (hread : ∀ l ∈ first :: more.map Prod.snd, l.Readable) :
    ∃ value, decodeLiterals (first :: more.map Prod.snd) = some value ∧
      extractKeyFrom text limit i 1 none =
        extractKeyFrom text limit (i + field.render.length) 1 (some value) := by
  have h' : slice text i limit = field.name.text ++ (field.separator.render ++
      (first.render ++ (renderMore more ++ (ws ++ rest)))) := by
    rw [h]
    simp [Scalar.render, hvalue, Value.render]
  have hseparator := slice_after h'
  have hfirst := slice_after hseparator
  obtain ⟨parts, hparts, hreads⟩ := readLiterals_eq first more hws hrest hfirst hread
  have hnonempty : parts.isEmpty = false := by
    cases parts with
    | nil =>
        have hlength := congrArg (Option.map List.length) hparts
        rw [List.mapM_cons] at hlength
        cases hone : protoDecode first.body <;>
          cases hmore : (more.map Prod.snd).mapM (fun l => protoDecode l.body) <;>
            simp [hone, hmore] at hlength
    | cons => rfl
  refine ⟨parts.flatten, by rw [decodeLiterals, hparts]; rfl, ?_⟩
  rw [extractKeyFrom_keyWord field hname h,
    readStrings_eq_bind field.separator first hseparator, hreads]
  simp only [Except.bind, hnonempty, Bool.false_eq_true, if_false]
  have hpass := (extractKeyFrom_passes text limit 1 (some parts.flatten)).quiets
    (fun c hc => isQuiet_of_isWs (hws c hc)) (slice_after h)
  refine Eq.trans ?_ hpass.symm
  congr 1
  simp only [Scalar.render, hvalue, Value.render, List.length_append]
  omega

/-- A key that is not readable raises. -/
theorem extractKeyFrom_key_error
    (field : Scalar) {first : Literal} {more : List (Blank × Literal)}
    (hname : field.name.text = keyWord)
    (hvalue : field.value = .strings first more)
    (h : slice text i limit = field.render ++ rest)
    (hbad : ∃ l ∈ first :: more.map Prod.snd, ¬ l.Readable) :
    ∃ e, extractKeyFrom text limit i 1 none = .error e := by
  have h' : slice text i limit = field.name.text ++ (field.separator.render ++
      (first.render ++ (renderMore more ++ rest))) := by
    rw [h]
    simp [Scalar.render, hvalue, Value.render]
  have hseparator := slice_after h'
  obtain ⟨e, he⟩ := readLiterals_error first more (slice_after hseparator) hbad
  refine ⟨e, ?_⟩
  rw [extractKeyFrom_keyWord field hname h,
    readStrings_eq_bind field.separator first hseparator, he]
  rfl

end KeyExtractor

section Blocks

variable {text : Str} {i limit : Nat} {rest : Str}

/-- After the blanks a gap starts with, no literal follows. -/
theorem IsGap.exists_blanks
    {g : Str} (hg : IsGap g)
    (hrest : StopsStrings rest) :
    ∃ ws tail, g ++ rest = ws ++ tail ∧ (∀ c ∈ ws, isWs c = true) ∧ StopsStrings tail := by
  induction hg with
  | nil => exact ⟨[], rest, rfl, by simp, hrest⟩
  | @ws c more hc _ ih =>
      obtain ⟨ws, tail, hsplit, hws, htail⟩ := ih
      refine ⟨c :: ws, tail, by rw [List.cons_append, hsplit]; rfl, ?_, htail⟩
      intro d hd
      rcases List.mem_cons.mp hd with rfl | hd
      · exact hc
      · exact hws d hd
  | comment hline _ _ =>
      refine ⟨[], _, rfl, by simp, ?_⟩
      intro d hd
      cases hd
      exact ⟨rfl, rfl⟩

theorem IsWord.stopsStrings
    {w : Str} (hw : IsWord w) (rest : Str) :
    StopsStrings (w ++ rest) := by
  obtain ⟨c, tail, rfl, hstart, -⟩ := hw
  intro d hd
  cases hd
  have hpart := isWordPart_of_isWordStart hstart
  refine ⟨?_, (ne_of_isWordPart hpart).1⟩
  cases hws : isWs c with
  | false => rfl
  | true =>
      rw [not_isWordPart_of_isWs hws] at hpart
      cases hpart

theorem Body.exists_blanks
    (b : Body)
    (hrest : StopsStrings rest) :
    ∃ ws tail, b.render ++ rest = ws ++ tail ∧ (∀ c ∈ ws, isWs c = true) ∧
      StopsStrings tail := by
  cases b with
  | done gap => exact gap.isGap.exists_blanks hrest
  | scalar gap field more =>
      have hfield : StopsStrings (field.render ++ (more.render ++ rest)) := by
        rw [Scalar.render, List.append_assoc]
        exact field.name.isWord.stopsStrings _
      simpa only [Body.render, List.append_assoc] using gap.isGap.exists_blanks hfield
  | message gap header inner semicolon more =>
      have hheader : StopsStrings (header.render ++
          (inner.render ++ (closing semicolon ++ (more.render ++ rest)))) := by
        rw [Header.render, List.append_assoc]
        exact header.name.isWord.stopsStrings _
      simpa only [Body.render, List.append_assoc] using gap.isGap.exists_blanks hheader

/-- The fields of a block with one readable key. -/
theorem extractKeyFrom_fields
    (b : Body) {touching : Bool} {literals : List Literal}
    (hb : b.Separated touching)
    (hkeys : b.fields.keyFields = [some literals])
    (hread : ∀ l ∈ literals, l.Readable)
    (hrest : EndsWord rest) (hstops : StopsStrings rest)
    (h : slice text i limit = b.render ++ rest) :
    ∃ value, decodeLiterals literals = some value ∧
      extractKeyFrom text limit i 1 none =
        extractKeyFrom text limit (i + b.render.length) 1 (some value) := by
  have hp := extractKeyFrom_passes text limit 1 none
  induction b generalizing i touching with
  | done gap => simp [Body.fields, Fields.keyFields] at hkeys
  | scalar gap field tail ih =>
      simp only [Body.render, List.append_assoc] at h
      simp only [Body.fields, Fields.keyFields] at hkeys
      have hfield := slice_after h
      have hgap := hp.gap gap.isGap h
      have htail := slice_after hfield
      have hlength : i + gap.text.length + field.render.length + tail.render.length =
          i + (Body.scalar gap field tail).render.length := by
        simp only [Body.render, List.length_append]
        omega
      rw [hgap, ← hlength]
      by_cases hname : field.name.text = keyWord
      · rw [if_pos hname, List.cons.injEq] at hkeys
        obtain ⟨hliterals, hnone⟩ := hkeys
        cases hvalue : field.value with
        | strings first more =>
            rw [hvalue] at hliterals
            cases hliterals
            obtain ⟨ws, more', hsplit, hws, hmore⟩ := tail.exists_blanks hstops
            rw [hsplit] at hfield
            obtain ⟨value, hdecode, hread'⟩ :=
              extractKeyFrom_key field hname hvalue hws hmore hfield hread
            exact ⟨value, hdecode, by
              rw [hread', extractKeyFrom_body tail hb.2 hnone hrest htail]⟩
        | number n =>
            rw [hvalue] at hliterals
            cases hliterals
        | identifier n =>
            rw [hvalue] at hliterals
            cases hliterals
      · rw [if_neg hname] at hkeys
        have hscalar := hp.scalar (fun w _ hw _ _ => hw) field (fun _ => hname)
          (Scalar.endsWord_rest hb.2 hrest) hfield
        obtain ⟨value, hdecode, hvalue⟩ := ih hb.2 hkeys htail
        exact ⟨value, hdecode, by rw [hscalar, hvalue]⟩
  | message gap header inner semicolon tail _ ih =>
      simp only [Body.render, List.append_assoc] at h
      simp only [Body.fields, Fields.keyFields] at hkeys
      have hname : header.name.text ≠ keyWord := by
        intro heq
        simp [heq] at hkeys
      rw [if_neg hname] at hkeys
      have hmessage := slice_after h
      have hgap := hp.gap gap.isGap h
      have htail : slice text (i + gap.text.length + (header.render.length +
          (inner.render.length + (closing semicolon).length))) limit = tail.render ++ rest := by
        have := slice_after (slice_after (slice_after hmessage))
        simpa only [Nat.add_assoc] using this
      obtain ⟨value, hdecode, hvalue⟩ := ih hb.2.2 hkeys htail
      refine ⟨value, hdecode, ?_⟩
      rw [hgap, extractKeyFrom_message header inner semicolon hname hb.2.1 hmessage, hvalue]
      congr 1
      simp only [Body.render, List.length_append]
      omega

/-- The fields of a block with one key that is not readable. -/
theorem extractKeyFrom_fields_error
    (b : Body) {touching : Bool} {literals : List Literal}
    (hb : b.Separated touching)
    (hkeys : b.fields.keyFields = [some literals])
    (hbad : ∃ l ∈ literals, ¬ l.Readable)
    (hrest : EndsWord rest)
    (h : slice text i limit = b.render ++ rest) :
    ∃ e, extractKeyFrom text limit i 1 none = .error e := by
  have hp := extractKeyFrom_passes text limit 1 none
  induction b generalizing i touching with
  | done gap => simp [Body.fields, Fields.keyFields] at hkeys
  | scalar gap field tail ih =>
      simp only [Body.render, List.append_assoc] at h
      simp only [Body.fields, Fields.keyFields] at hkeys
      have hfield := slice_after h
      have hgap := hp.gap gap.isGap h
      rw [hgap]
      by_cases hname : field.name.text = keyWord
      · rw [if_pos hname, List.cons.injEq] at hkeys
        obtain ⟨hliterals, -⟩ := hkeys
        cases hvalue : field.value with
        | strings first more =>
            rw [hvalue] at hliterals
            cases hliterals
            exact extractKeyFrom_key_error field hname hvalue hfield hbad
        | number n =>
            rw [hvalue] at hliterals
            cases hliterals
        | identifier n =>
            rw [hvalue] at hliterals
            cases hliterals
      · rw [if_neg hname] at hkeys
        have hscalar := hp.scalar (fun w _ hw _ _ => hw) field (fun _ => hname)
          (Scalar.endsWord_rest hb.2 hrest) hfield
        rw [hscalar]
        exact ih hb.2 hkeys (slice_after hfield)
  | message gap header inner semicolon tail _ ih =>
      simp only [Body.render, List.append_assoc] at h
      simp only [Body.fields, Fields.keyFields] at hkeys
      have hname : header.name.text ≠ keyWord := by
        intro heq
        simp [heq] at hkeys
      rw [if_neg hname] at hkeys
      have hmessage := slice_after h
      have hgap := hp.gap gap.isGap h
      have htail : slice text (i + gap.text.length + (header.render.length +
          (inner.render.length + (closing semicolon).length))) limit = tail.render ++ rest := by
        have := slice_after (slice_after (slice_after hmessage))
        simpa only [Nat.add_assoc] using this
      rw [hgap, extractKeyFrom_message header inner semicolon hname hb.2.1 hmessage]
      exact ih hb.2.2 hkeys htail

/-- The key of a block is its decoded key. -/
theorem extractKey_eq
    {inner : Body} {literals : List Literal}
    (hinner : inner.Separated false)
    (hkeys : inner.fields.keyFields = [some literals])
    (hread : ∀ l ∈ literals, l.Readable)
    (h : slice text i limit = '{' :: (inner.render ++ ['}'])) :
    extractKey text i limit = .ok inner.fields.decodedKey ∧
      inner.fields.decodedKey.isSome = true := by
  have hbody := slice_tail h
  have hends : EndsWord ['}'] := endsWord_closing false []
  have hstops : StopsStrings ['}'] := by
    intro c hc
    cases hc
    exact ⟨rfl, rfl⟩
  obtain ⟨value, hdecode, hvalue⟩ :=
    extractKeyFrom_fields inner hinner hkeys hread hends hstops hbody
  have hclose := slice_after hbody
  have hdecoded : inner.fields.decodedKey = some value := by
    rw [Fields.decodedKey, hkeys]
    exact hdecode
  refine ⟨?_, by rw [hdecoded]; rfl⟩
  unfold extractKey
  rw [extractKeyFrom_open (peek_of_cons h)]
  refine Eq.trans hvalue ?_
  rw [extractKeyFrom_close (peek_of_cons hclose), extractKeyFrom, hdecoded]
  split
  · rfl
  · next c hc =>
      rw [peek_of_nil (slice_tail hclose)] at hc
      cases hc

/-- A block whose key is not readable raises. -/
theorem extractKey_error
    {inner : Body} {literals : List Literal}
    (hinner : inner.Separated false)
    (hkeys : inner.fields.keyFields = [some literals])
    (hbad : ∃ l ∈ literals, ¬ l.Readable)
    (h : slice text i limit = '{' :: (inner.render ++ ['}'])) :
    ∃ e, extractKey text i limit = .error e := by
  have hends : EndsWord ['}'] := endsWord_closing false []
  obtain ⟨e, he⟩ :=
    extractKeyFrom_fields_error inner hinner hkeys hbad hends (slice_tail h)
  refine ⟨e, ?_⟩
  unfold extractKey
  rw [extractKeyFrom_open (peek_of_cons h)]
  exact he

end Blocks

end Backup
end YdbSnippets
