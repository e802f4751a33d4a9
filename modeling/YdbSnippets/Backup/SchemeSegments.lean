import YdbSnippets.Backup.SchemeBlocks

/-!
# The segments of a scheme of tokens

The blocks that go cut the text of a scheme into segments, together with the
parts of the gaps around them that are deleted with them.
-/

namespace YdbSnippets
namespace Backup

open Python

namespace Scheme

section Segmentation

/-- The segments of a scheme.  `line` says that the text before is empty, and
the first `skip` characters of the first gap belong to the block before. -/
def segments (line : Bool) (skip : Nat) : Scheme → Segments
  | done gap => .plain (gap.text.drop skip) .done
  | token gap tok rest =>
      .plain (gap.text.drop skip) (.plain tok.render (rest.segments false 0))
  | message gap opening inner semicolon rest =>
      if Goes opening inner then
        if line = true ∨ '\n' ∈ gap.text then
          -- the block is the first thing on its line
          let cut := lastLine gap.text
          let more := lineEnd rest.firstGap.text
          .plain ((gap.text.take cut).drop skip)
            (.block inner.keyText
              (.plain (gap.text.drop cut) (.plain opening.render
                ((inner.segments false 0).append
                  (.plain (closing semicolon) (.plain (rest.firstGap.text.take more) .done)))))
              (rest.segments false more))
        else
          .plain (gap.text.drop skip)
            (.block inner.keyText
              (.plain opening.render
                ((inner.segments false 0).append (.plain (closing semicolon) .done)))
              (rest.segments false 0))
      else
        .plain (gap.text.drop skip) (.plain opening.render
          ((inner.segments false 0).append
            (.plain (closing semicolon) (rest.segments false 0))))

/-- What a block before may have taken of the first gap. -/
def Skips (line : Bool) (skip : Nat) (s : Scheme) : Prop :=
  skip = 0 ∨ (line = false ∧ skip = lineEnd s.firstGap.text)

variable {line : Bool} {skip : Nat}

theorem skips_zero (s : Scheme) (line : Bool) :
    s.Skips line 0 :=
  Or.inl rfl

theorem skips_lineEnd (s : Scheme) :
    s.Skips false (lineEnd s.firstGap.text) :=
  Or.inr ⟨rfl, rfl⟩

theorem Skips.le_lastLine
    {s : Scheme} (h : s.Skips line skip) :
    skip ≤ lastLine s.firstGap.text := by
  rcases h with rfl | ⟨-, rfl⟩
  · exact Nat.zero_le _
  · exact lineEnd_le_lastLine _

theorem Skips.le_length
    {s : Scheme} (h : s.Skips line skip) :
    skip ≤ s.firstGap.text.length :=
  h.le_lastLine.trans (lastLine_le _)

/-- The end of a line and what is left of a scheme are its text. -/
theorem take_lineEnd_append (s : Scheme) :
    s.firstGap.text.take (lineEnd s.firstGap.text) ++
      s.render.drop (lineEnd s.firstGap.text) = s.render := by
  rw [s.render_eq, List.drop_append_of_le_length s.skips_lineEnd.le_length,
    ← List.append_assoc, List.take_append_drop]

/-- The segments of a scheme are its text. -/
theorem text_segments
    (s : Scheme) (hskip : s.Skips line skip) :
    (s.segments line skip).text = s.render.drop skip := by
  induction s generalizing line skip with
  | done gap => simp [segments, Segments.text, render]
  | token gap tok rest ih =>
      have hgap : skip ≤ gap.text.length := hskip.le_length
      simp only [segments, Segments.text, render, ih (rest.skips_zero false), List.drop_zero]
      rw [List.drop_append_of_le_length hgap]
  | message gap opening inner semicolon rest ihInner ihRest =>
      have hgap : skip ≤ gap.text.length := hskip.le_length
      unfold segments
      split_ifs with hgoes hline
      · have hfirst := take_lastLine_append (show skip ≤ lastLine gap.text from hskip.le_lastLine)
        simp only [Segments.text, Segments.text_append, ihInner (inner.skips_zero false),
          ihRest rest.skips_lineEnd, List.drop_zero, render, List.append_nil]
        rw [List.drop_append_of_le_length hgap, ← hfirst]
        simp only [List.append_assoc, rest.take_lineEnd_append]
      · simp only [Segments.text, Segments.text_append, ihInner (inner.skips_zero false),
          ihRest (rest.skips_zero false), List.drop_zero, render, List.append_nil]
        rw [List.drop_append_of_le_length hgap]
        simp only [List.append_assoc]
      · simp only [Segments.text, Segments.text_append, ihInner (inner.skips_zero false),
          ihRest (rest.skips_zero false), List.drop_zero, render]
        rw [List.drop_append_of_le_length hgap]

theorem text_segments_zero (s : Scheme) (line : Bool) :
    (s.segments line 0).text = s.render := by
  rw [s.text_segments (s.skips_zero line), List.drop_zero]

/-- A message does not start with nothing, so no block is empty. -/
theorem solid_segments (s : Scheme) (line : Bool) (skip : Nat) :
    (s.segments line skip).Solid := by
  have hopening : ∀ o : Opening, o.render ≠ [] := by
    intro o
    cases o <;> simp [Opening.render]
  induction s generalizing line skip with
  | done gap => trivial
  | token gap tok rest ih => exact ih false 0
  | message gap opening inner semicolon rest ihInner ihRest =>
      unfold segments
      split_ifs with hgoes hline
      · refine ⟨?_, ?_, ihRest _ _⟩
        · simp [Segments.text, hopening]
        · simp only [Segments.Solid, Segments.solid_append]
          exact ⟨ihInner _ _, trivial⟩
      · refine ⟨?_, ?_, ihRest _ _⟩
        · simp [Segments.text, hopening]
        · simp only [Segments.Solid, Segments.solid_append]
          exact ⟨ihInner _ _, trivial⟩
      · simp only [Segments.Solid, Segments.solid_append]
        exact ⟨ihInner _ _, ihRest _ _⟩

end Segmentation

section Positions

variable {gap : Spacing} {opening : Opening} {inner rest : Scheme} {semicolon : Bool}
variable {line : Bool} {skip : Nat}

/-- Where the fields of a message start that stands behind the position. -/
def bodyAt (i : Nat) (gap : Spacing) (opening : Opening) : Nat :=
  i + gap.text.length + opening.render.length

/-- Where such a message ends. -/
def stopAt (i : Nat) (gap : Spacing) (opening : Opening) (inner : Scheme)
    (semicolon : Bool) : Nat :=
  bodyAt i gap opening + inner.render.length + (closing semicolon).length

theorem stopAt_add (i : Nat) (gap : Spacing) (opening : Opening) (inner : Scheme)
    (semicolon : Bool) (rest : Scheme) :
    stopAt i gap opening inner semicolon + rest.render.length =
      i + (message gap opening inner semicolon rest).render.length := by
  simp only [stopAt, bodyAt, render, List.length_append]
  omega

/-- The blocks of a message that stays are those in it and behind it. -/
theorem blocks_stays
    (hgoes : ¬ Goes opening inner)
    (hskip : (message gap opening inner semicolon rest).Skips line skip) (i : Nat) :
    ((message gap opening inner semicolon rest).segments line skip).blocks (i + skip) =
      (inner.segments false 0).blocks (bodyAt i gap opening) ++
        (rest.segments false 0).blocks (stopAt i gap opening inner semicolon) := by
  have hle : skip ≤ gap.text.length := hskip.le_length
  have hstart : i + skip + (gap.text.drop skip).length + opening.render.length =
      bodyAt i gap opening := by
    rw [List.length_drop, bodyAt]
    omega
  rw [segments, if_neg hgoes, Segments.blocks, Segments.blocks, Segments.blocks_append,
    Segments.blocks, inner.text_segments_zero, hstart]
  rfl

/-- The blocks of a message that goes with its line. -/
theorem blocks_line
    (hgoes : Goes opening inner)
    (hskip : (message gap opening inner semicolon rest).Skips line skip)
    (hline : line = true ∨ '\n' ∈ gap.text) (i : Nat) :
    ((message gap opening inner semicolon rest).segments line skip).blocks (i + skip) =
      ⟨i + lastLine gap.text,
        stopAt i gap opening inner semicolon + lineEnd rest.firstGap.text,
        some inner.keyText⟩ ::
        ((inner.segments false 0).blocks (bodyAt i gap opening) ++
          (rest.segments false (lineEnd rest.firstGap.text)).blocks
            (stopAt i gap opening inner semicolon + lineEnd rest.firstGap.text)) := by
  have hcut : skip ≤ lastLine gap.text := hskip.le_lastLine
  have hlast := lastLine_le gap.text
  have hmore : lineEnd rest.firstGap.text ≤ rest.firstGap.text.length :=
    rest.skips_lineEnd.le_length
  have hstart : i + skip + ((gap.text.take (lastLine gap.text)).drop skip).length =
      i + lastLine gap.text := by
    rw [List.length_drop, List.length_take, Nat.min_eq_left hlast]
    omega
  have hbody : i + lastLine gap.text + (gap.text.drop (lastLine gap.text)).length +
      opening.render.length = bodyAt i gap opening := by
    rw [List.length_drop, bodyAt]
    omega
  rw [segments, if_pos hgoes, if_pos hline]
  simp only [Segments.blocks, Segments.blocks_append, Segments.text, Segments.text_append,
    inner.text_segments_zero, List.append_nil, List.length_append, List.length_take,
    Nat.min_eq_left hmore, ← Nat.add_assoc, hstart, hbody, stopAt]

/-- The blocks of a message that goes alone. -/
theorem blocks_inline
    (hgoes : Goes opening inner)
    (hskip : (message gap opening inner semicolon rest).Skips line skip)
    (hline : ¬ (line = true ∨ '\n' ∈ gap.text)) (i : Nat) :
    ((message gap opening inner semicolon rest).segments line skip).blocks (i + skip) =
      ⟨i + gap.text.length, stopAt i gap opening inner semicolon, some inner.keyText⟩ ::
        ((inner.segments false 0).blocks (bodyAt i gap opening) ++
          (rest.segments false 0).blocks (stopAt i gap opening inner semicolon)) := by
  have hle : skip ≤ gap.text.length := hskip.le_length
  have hstart : i + skip + (gap.text.drop skip).length = i + gap.text.length := by
    rw [List.length_drop]
    omega
  rw [segments, if_pos hgoes, if_neg hline]
  simp only [Segments.blocks, Segments.blocks_append, Segments.text, Segments.text_append,
    inner.text_segments_zero, List.append_nil, List.length_append, ← Nat.add_assoc, hstart,
    stopAt, bodyAt]

end Positions

end Scheme

end Backup
end YdbSnippets
