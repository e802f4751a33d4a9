import YdbSnippets.Backup.SchemeSegments
import YdbSnippets.Backup.Pruning

/-!
# Finding the blocks of a scheme of tokens

Where all keys can be read, the finder returns the blocks that it sees: those
that go are the blocks of the segments.  Otherwise it raises.
-/

namespace YdbSnippets
namespace Backup

open Python

section Keys

theorem removable_iff (a b : Nat) (key : Option CodePoints) :
    AttrBlock.removable ⟨a, b, key⟩ = attributeShouldGo (key.getD []) := by
  cases key <;> rfl

theorem Scheme.keyText_eq
    {inner : Scheme} {key : Option CodePoints}
    (h : inner.foundKey = some key) :
    inner.keyText = key.getD [] := by
  rw [keyText, h]
  rfl

/-- A key of the Document API is not missing. -/
theorem eq_some_of_shouldGo
    {key : Option CodePoints}
    (h : attributeShouldGo (key.getD []) = true) :
    key = some (key.getD []) := by
  cases key with
  | none => cases h
  | some key => rfl

end Keys

section Lines

variable {text : Str} {i : Nat}

/-- The last line of a gap has no comment. -/
theorem Spacing.isSpace_lastLine (g : Spacing) :
    ∀ c ∈ g.text.drop (lastLine g.text), isSpace c = true :=
  fun c hc => (isSpacing_spec (g.isFiller.split_lastLine.2 c hc)).2.2.1

/-- The line end behind a block is in the gap that follows. -/
theorem Scheme.lineEnd_render
    (s : Scheme) {rest : Str} (hrest : Ends rest) :
    lineEnd (s.render ++ rest) = lineEnd s.firstGap.text := by
  rw [s.render_eq, List.append_assoc]
  exact lineEnd_append fun c hc => not_isWs_of_not_isSpacing (s.head_afterGap hrest c hc).1

end Lines

section Finding

variable {text : Str}

namespace Scheme

/-- What the finder finds in a scheme: the blocks that go are those of its
segments, and it says whether there is the document attribute. -/
structure Found (s : Scheme) (line : Bool) (skip start : Nat) (found : List AttrBlock) :
    Prop where
  removable : found.filter AttrBlock.removable = (s.segments line skip).blocks start
  document : found.any (fun block => block.key == some documentAttribute) = true ↔ s.HasDocument

variable {gap : Spacing} {opening : Opening} {inner rest : Scheme} {semicolon : Bool}
variable {line : Bool} {skip i : Nat} {innerFound restFound : List AttrBlock}

/-- A message that the finder does not see. -/
theorem Found.hidden
    (hseen : ¬ opening.Seen)
    (hskip : (message gap opening inner semicolon rest).Skips line skip)
    (hinner : inner.Found false 0 (bodyAt i gap opening) innerFound)
    (hrest : rest.Found false 0 (stopAt i gap opening inner semicolon) restFound) :
    (message gap opening inner semicolon rest).Found line skip (i + skip)
      (innerFound ++ restFound) where
  removable := by
    rw [blocks_stays (fun hgoes => hseen hgoes.1) hskip, List.filter_append, hinner.removable,
      hrest.removable]
  document := by
    rw [List.any_append, Bool.or_eq_true, hinner.document, hrest.document, HasDocument]
    exact ⟨Or.inr, fun h => h.resolve_left fun hseen' => hseen hseen'.1⟩

/-- A block is found before those in it and behind it. -/
theorem found_document
    {key : Option CodePoints} {block : AttrBlock} {more : Nat}
    (hseen : opening.Seen)
    (hkey : inner.foundKey = some key)
    (hblock : block.key = key)
    (hinner : inner.Found false 0 (bodyAt i gap opening) innerFound)
    (hrest : rest.Found false more (stopAt i gap opening inner semicolon + more) restFound) :
    (block :: (innerFound ++ restFound)).any
        (fun block => block.key == some documentAttribute) = true ↔
      (message gap opening inner semicolon rest).HasDocument := by
  rw [List.any_cons, List.any_append, Bool.or_eq_true, Bool.or_eq_true, hinner.document,
    hrest.document, HasDocument, keyText_eq hkey, key_eq_document_iff, hblock, beq_iff_eq]
  simp only [hseen, true_and]

/-- A block that stays. -/
theorem Found.stays
    {key : Option CodePoints}
    (hseen : opening.Seen)
    (hgoes : ¬ Goes opening inner)
    (hkey : inner.foundKey = some key)
    (hskip : (message gap opening inner semicolon rest).Skips line skip)
    (hinner : inner.Found false 0 (bodyAt i gap opening) innerFound)
    (hrest : rest.Found false 0 (stopAt i gap opening inner semicolon) restFound)
    (start stop : Nat) :
    (message gap opening inner semicolon rest).Found line skip (i + skip)
      (⟨start, stop, key⟩ :: (innerFound ++ restFound)) where
  removable := by
    rw [blocks_stays hgoes hskip, List.filter_cons_of_neg, List.filter_append,
      hinner.removable, hrest.removable]
    rw [removable_iff, ← keyText_eq hkey]
    exact fun hgo => hgoes ⟨hseen, hgo⟩
  document := found_document hseen hkey rfl hinner hrest

/-- A block that goes with its line. -/
theorem Found.goesWithLine
    {key : Option CodePoints}
    (hgoes : Goes opening inner)
    (hkey : inner.foundKey = some key)
    (hskip : (message gap opening inner semicolon rest).Skips line skip)
    (hline : line = true ∨ '\n' ∈ gap.text)
    (hinner : inner.Found false 0 (bodyAt i gap opening) innerFound)
    (hrest : rest.Found false (lineEnd rest.firstGap.text)
      (stopAt i gap opening inner semicolon + lineEnd rest.firstGap.text) restFound) :
    (message gap opening inner semicolon rest).Found line skip (i + skip)
      (⟨i + lastLine gap.text, stopAt i gap opening inner semicolon + lineEnd rest.firstGap.text,
        key⟩ :: (innerFound ++ restFound)) where
  removable := by
    have hgo := hgoes.2
    rw [keyText_eq hkey] at hgo
    rw [blocks_line hgoes hskip hline, List.filter_cons_of_pos, List.filter_append,
      hinner.removable, hrest.removable, keyText_eq hkey, ← eq_some_of_shouldGo hgo]
    rw [removable_iff]
    exact hgo
  document := found_document hgoes.1 hkey rfl hinner hrest

/-- A block that goes alone. -/
theorem Found.goesAlone
    {key : Option CodePoints}
    (hgoes : Goes opening inner)
    (hkey : inner.foundKey = some key)
    (hskip : (message gap opening inner semicolon rest).Skips line skip)
    (hline : ¬ (line = true ∨ '\n' ∈ gap.text))
    (hinner : inner.Found false 0 (bodyAt i gap opening) innerFound)
    (hrest : rest.Found false 0 (stopAt i gap opening inner semicolon) restFound) :
    (message gap opening inner semicolon rest).Found line skip (i + skip)
      (⟨i + gap.text.length, stopAt i gap opening inner semicolon, key⟩ ::
        (innerFound ++ restFound)) where
  removable := by
    have hgo := hgoes.2
    rw [keyText_eq hkey] at hgo
    rw [blocks_inline hgoes hskip hline, List.filter_cons_of_pos, List.filter_append,
      hinner.removable, hrest.removable, keyText_eq hkey, ← eq_some_of_shouldGo hgo]
    rw [removable_iff]
    exact hgo
  document := found_document hgoes.1 hkey rfl hinner hrest

/-- What the finder does on a scheme that starts at the position. -/
structure Scanned (text : Str) (limit depth i : Nat) (line : Bool) (skip : Nat) (s : Scheme) :
    Prop where
  found : s.Legible → ∃ found, s.Found line skip (i + skip) found ∧
    findFrom text limit i depth =
      (findFrom text limit (i + s.render.length) depth).map (found ++ ·)
  raises : ¬ s.Legible → ∃ e, findFrom text limit i depth = .error e

variable {limit depth : Nat}

theorem Scanned.done
    (h : findFrom text limit i depth = findFrom text limit (i + gap.text.length) depth) :
    (done gap).Scanned text limit depth i line skip where
  found := by
    intro _
    exact ⟨[], ⟨rfl, by simp [HasDocument]⟩, h.trans (map_found_nil _).symm⟩
  raises := fun hnot => absurd trivial hnot

theorem Scanned.token
    {tok : Token}
    (hskip : (token gap tok rest).Skips line skip)
    (h : findFrom text limit i depth =
      findFrom text limit (i + gap.text.length + tok.render.length) depth)
    (hrest : rest.Scanned text limit depth (i + gap.text.length + tok.render.length) false 0) :
    (token gap tok rest).Scanned text limit depth i line skip where
  found := by
    intro hlegible
    obtain ⟨found, hfound, hrun⟩ := hrest.found hlegible
    have hle : skip ≤ gap.text.length := hskip.le_length
    have hstart : i + skip + (gap.text.drop skip).length + tok.render.length =
        i + gap.text.length + tok.render.length + 0 := by
      rw [List.length_drop]
      omega
    refine ⟨found, ⟨?_, hfound.document⟩, ?_⟩
    · rw [hfound.removable, segments, Segments.blocks, Segments.blocks, hstart]
    · rw [h, hrun]
      congr 2
      simp only [render, List.length_append]
      omega
  raises := by
    intro hnot
    obtain ⟨e, he⟩ := hrest.raises hnot
    exact ⟨e, h.trans he⟩

/-- The finder goes through a message that it does not see. -/
theorem Scanned.hidden
    (hseen : ¬ opening.Seen)
    (hskip : (message gap opening inner semicolon rest).Skips line skip)
    (hopen : findFrom text limit i depth =
      findFrom text limit (bodyAt i gap opening) (depth + 1))
    (hclose : findFrom text limit (bodyAt i gap opening + inner.render.length) (depth + 1) =
      findFrom text limit (stopAt i gap opening inner semicolon) depth)
    (hinner : inner.Scanned text limit (depth + 1) (bodyAt i gap opening) false 0)
    (hrest : rest.Scanned text limit depth (stopAt i gap opening inner semicolon) false 0) :
    (message gap opening inner semicolon rest).Scanned text limit depth i line skip where
  found := by
    rintro ⟨-, hlegibleInner, hlegibleRest⟩
    obtain ⟨innerFound, hfoundInner, hrunInner⟩ := hinner.found hlegibleInner
    obtain ⟨restFound, hfoundRest, hrunRest⟩ := hrest.found hlegibleRest
    refine ⟨innerFound ++ restFound, .hidden hseen hskip hfoundInner hfoundRest, ?_⟩
    rw [hopen, hrunInner, hclose, hrunRest, map_found_append, stopAt_add]
  raises := by
    intro hnot
    by_cases hlegibleInner : inner.Legible
    · obtain ⟨innerFound, -, hrunInner⟩ := hinner.found hlegibleInner
      obtain ⟨e, he⟩ := hrest.raises fun hlegibleRest =>
        hnot ⟨fun h => absurd h hseen, hlegibleInner, hlegibleRest⟩
      exact ⟨e, by rw [hopen, hrunInner, hclose, he]; rfl⟩
    · obtain ⟨e, he⟩ := hinner.raises hlegibleInner
      exact ⟨e, hopen.trans he⟩

/-- The finder reads the key of a block that it sees, scans the block, and goes
on behind it. -/
theorem Scanned.seen
    (line : Bool) (skip more : Nat) {brace close : Nat} {span : Nat × Nat}
    (hseen : opening.Seen)
    (hrun : findFrom text limit i depth =
      (extractKey text brace close).bind fun key =>
        (findFrom text (close - 1) (bodyAt i gap opening) 0).bind fun nested =>
          (findFrom text limit (stopAt i gap opening inner semicolon) depth).map fun blocks =>
            ⟨span.1, span.2, key⟩ :: (nested ++ blocks))
    (hkey : (∀ key, inner.foundKey = some key → extractKey text brace close = .ok key) ∧
      (inner.foundKey = none → ∃ e, extractKey text brace close = .error e))
    (hend : findFrom text (close - 1) (bodyAt i gap opening + inner.render.length) 0 = .ok [])
    (hinner : inner.Scanned text (close - 1) 0 (bodyAt i gap opening) false 0)
    (hrest : rest.Scanned text limit depth (stopAt i gap opening inner semicolon) false more)
    (hfound : ∀ key innerFound restFound, inner.foundKey = some key →
      inner.Found false 0 (bodyAt i gap opening) innerFound →
      rest.Found false more (stopAt i gap opening inner semicolon + more) restFound →
      (message gap opening inner semicolon rest).Found line skip (i + skip)
        (⟨span.1, span.2, key⟩ :: (innerFound ++ restFound))) :
    (message gap opening inner semicolon rest).Scanned text limit depth i line skip where
  found := by
    rintro ⟨hread, hlegibleInner, hlegibleRest⟩
    obtain ⟨key, hfoundKey⟩ := Option.ne_none_iff_exists'.mp (hread hseen)
    obtain ⟨innerFound, hfoundInner, hrunInner⟩ := hinner.found hlegibleInner
    obtain ⟨restFound, hfoundRest, hrunRest⟩ := hrest.found hlegibleRest
    refine ⟨_, hfound key innerFound restFound hfoundKey hfoundInner hfoundRest, ?_⟩
    rw [hrun, hkey.1 key hfoundKey, hrunInner, hend, hrunRest, stopAt_add]
    cases findFrom text limit (i + (message gap opening inner semicolon rest).render.length)
      depth <;> simp [Except.bind, Except.map]
  raises := by
    intro hnot
    rw [hrun]
    cases hfoundKey : inner.foundKey with
    | none =>
        obtain ⟨e, he⟩ := hkey.2 hfoundKey
        exact ⟨e, by rw [he]; rfl⟩
    | some key =>
        rw [hkey.1 key hfoundKey]
        by_cases hlegibleInner : inner.Legible
        · obtain ⟨innerFound, -, hrunInner⟩ := hinner.found hlegibleInner
          obtain ⟨e, he⟩ := hrest.raises fun hlegibleRest =>
            hnot ⟨fun _ => by simp [hfoundKey], hlegibleInner, hlegibleRest⟩
          exact ⟨e, by rw [hrunInner, hend, he]; rfl⟩
        · obtain ⟨e, he⟩ := hinner.raises hlegibleInner
          exact ⟨e, by rw [he]; rfl⟩

end Scheme

open Scheme in
/-- The finder scans a whole scheme. -/
theorem findFrom_scheme
    (s : Scheme) (line : Bool) (skip depth : Nat)
    {touching : Bool} {i limit : Nat} {rest post : Str}
    (hs : s.Separated touching)
    (hskip : s.Skips line skip)
    (hstarts : StartsAt text line i)
    (hrest : Ends rest) (hpost : Ends post)
    (h : slice text i limit = s.render ++ rest)
    (hwhole : slice text i text.length = s.render ++ post) :
    s.Scanned text limit depth i line skip := by
  induction s generalizing i limit depth skip line touching rest post with
  | done gap => exact .done ((findFrom_walks text limit depth).spacing gap.isFiller h)
  | token gap tok tail ih =>
      obtain ⟨-, -, hname, htail⟩ := hs
      simp only [Scheme.render, List.append_assoc] at h hwhole
      have hgap := (findFrom_walks text limit depth).spacing gap.isFiller h
      have htok := slice_after h
      have htokWhole := slice_after hwhole
      have hi := le_of_slice hstarts.1 hwhole
      refine .token hskip (hgap.trans (findFrom_token depth hname htail hrest htok)) ?_
      exact ih false 0 depth htail (tail.skips_zero false)
        (startsAt_after tok.endsSolid hi htokWhole) hrest hpost (slice_after htok)
        (slice_after htokWhole)
  | message gap opening inner semicolon tail ihInner ihTail =>
      obtain ⟨-, hsemicolon, -, hinnerSep, htailSep⟩ := hs
      simp only [Scheme.render, List.append_assoc] at h hwhole
      have hgap := (findFrom_walks text limit depth).spacing gap.isFiller h
      have hopening := slice_after h
      have hopeningWhole := slice_after hwhole
      have hinner := slice_after hopening
      have hinnerWhole := slice_after hopeningWhole
      have hclosing := slice_after hinner
      have hclosingWhole := slice_after hinnerWhole
      have hiOpening := le_of_slice hstarts.1 hwhole
      have hiInner := le_of_slice hiOpening hopeningWhole
      have hiClosing := le_of_slice hiInner hinnerWhole
      have hinnerStarts := startsAt_after opening.endsSolid hiOpening hopeningWhole
      have htailStarts := startsAt_after (endsSolid_closing semicolon) hiClosing hclosingWhole
      -- what stands behind the message is scanned from there, whatever was taken of its gap
      have htail : ∀ more, tail.Skips false more →
          tail.Scanned text limit depth (stopAt i gap opening inner semicolon) false more :=
        fun more hmore => ihTail false more depth htailSep hmore htailStarts hrest hpost
          (slice_after hclosing) (slice_after hclosingWhole)
      by_cases hseen : opening.Seen
      · obtain ⟨brace, hbrace⟩ : ∃ brace, brace + 1 = bodyAt i gap opening := by
          obtain ⟨before, c, heq, -⟩ := opening.endsSolid
          exact ⟨i + gap.text.length + before.length, by simp [bodyAt, heq, Nat.add_assoc]⟩
        obtain ⟨hrun, hblock, hbody⟩ := findFrom_seen semicolon depth brace
          (brace + (inner.render.length + 2)) (stopAt i gap opening inner semicolon) hseen
          hinnerSep (Scheme.head_ne_semicolon hsemicolon hrest) hopening hbrace rfl
          (by rw [hbrace]; rfl)
        rw [hbrace] at hrun hbody
        have hbody' := hbody.trans (List.append_nil _).symm
        have hnested := ihInner false 0 0 hinnerSep (inner.skips_zero false) hinnerStarts
          ends_nil (ends_closing semicolon _) hbody' hinnerWhole
        have hseenScan := fun more htailMore => Scanned.seen line skip more hseen
          (hgap.trans hrun) (extractKey_scheme hinnerSep hblock)
          (findFrom_nil (slice_after hbody')) hnested (htail more htailMore)
        have hafter : slice text (stopAt i gap opening inner semicolon) text.length =
            tail.render ++ post := slice_after hclosingWhole
        by_cases hgoes : Goes opening inner
        · by_cases hline : line = true ∨ '\n' ∈ gap.text
          · rw [hstarts.deletionSpan_line gap.isSpace_lastLine hwhole hline hafter,
              tail.lineEnd_render hpost] at hseenScan
            exact hseenScan _ tail.skips_lineEnd fun key innerFound restFound hkey hi hr =>
              .goesWithLine hgoes hkey hskip hline hi hr
          · rw [hstarts.deletionSpan_inline _ hwhole hline] at hseenScan
            exact hseenScan 0 (tail.skips_zero false) fun key innerFound restFound hkey hi hr =>
              .goesAlone hgoes hkey hskip hline hi hr
        · exact hseenScan 0 (tail.skips_zero false) fun key innerFound restFound hkey hi hr =>
            .stays hseen hgoes hkey hskip hi hr _ _
      · have hopen := findFrom_opening hseen depth hopening
        have hnested := ihInner false 0 (depth + 1) hinnerSep (inner.skips_zero false)
          hinnerStarts (ends_closing semicolon _) (ends_closing semicolon _) hinner hinnerWhole
        exact .hidden hseen hskip (hgap.trans hopen) (findFrom_closing semicolon depth hclosing)
          hnested (htail 0 (tail.skips_zero false))

end Finding

end Backup
end YdbSnippets
