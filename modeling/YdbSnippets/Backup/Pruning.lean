import YdbSnippets.Backup.Finder

/-!
# Pruning a scheme text

Rewriting a rendered tree gives a rendering of the pruned tree, when the keys
of its blocks are readable, and raises otherwise.
-/

namespace YdbSnippets
namespace Backup

open Python

section Trees

namespace Fields

theorem shouldGo_nil :
    attributeShouldGo [] = false := by
  decide

/-- Whether a block goes is read off its decoded key. -/
theorem goes_iff
    (header : Header) (inner : Fields) :
    Goes header inner ↔
      header.name.text = attributesWord ∧
        attributeShouldGo (inner.decodedKey.getD []) = true := by
  unfold Goes
  cases inner.decodedKey <;> simp [shouldGo_nil]

/-- The direct keys are no blocks, so they stay. -/
theorem keyFields_prune (f : Fields) :
    f.prune.keyFields = f.keyFields := by
  induction f with
  | nil => rfl
  | scalar field rest ih => simp only [prune, keyFields, ih]
  | message header inner semicolon rest _ ih =>
      unfold prune
      split_ifs with hgoes
      · have hname : header.name.text ≠ keyWord := by
          rw [hgoes.1]
          decide
        rw [ih, keyFields, if_neg hname]
      · simp only [keyFields, ih]

theorem decodedKey_prune (f : Fields) :
    f.prune.decodedKey = f.decodedKey := by
  rw [decodedKey, keyFields_prune, decodedKey]

theorem keyed_prune
    {f : Fields} (hf : f.Keyed) :
    f.prune.Keyed := by
  induction f with
  | nil => exact hf
  | scalar field rest ih => exact ih hf
  | message header inner semicolon rest ihInner ihRest =>
      obtain ⟨hkeys, hinner, hrest⟩ := hf
      unfold prune
      split_ifs with hgoes
      · exact ihRest hrest
      · refine ⟨?_, ihInner hinner, ihRest hrest⟩
        rw [keyFields_prune]
        exact hkeys

theorem keyLiterals_prune (f : Fields) :
    f.prune.keyLiterals ⊆ f.keyLiterals := by
  induction f with
  | nil => exact List.Subset.refl _
  | scalar field rest ih => exact ih
  | message header inner semicolon rest ihInner ihRest =>
      unfold prune
      split_ifs with hgoes
      · intro l hl
        rw [keyLiterals, if_pos hgoes.1]
        exact List.mem_append_right _ (List.mem_append_right _ (ihRest hl))
      · intro l hl
        rw [keyLiterals, keyFields_prune] at hl
        rw [keyLiterals]
        split_ifs at hl ⊢ with hname
        · simp only [List.mem_append] at hl ⊢
          exact hl.imp_right (Or.imp (fun h => ihInner h) (fun h => ihRest h))
        · simp only [List.mem_append] at hl ⊢
          exact hl.imp (fun h => ihInner h) (fun h => ihRest h)

/-- No block that is left should go. -/
theorem blockKeys_prune (f : Fields) :
    ∀ key ∈ f.prune.blockKeys, attributeShouldGo (key.getD []) = false := by
  induction f with
  | nil => simp [prune, blockKeys]
  | scalar field rest ih => exact ih
  | message header inner semicolon rest ihInner ihRest =>
      unfold prune
      split_ifs with hgoes
      · exact ihRest
      · rw [goes_iff, not_and, Bool.not_eq_true] at hgoes
        rw [blockKeys, decodedKey_prune]
        intro key hkey
        split_ifs at hkey with hname
        · simp only [List.mem_cons, List.mem_append] at hkey
          rcases hkey with rfl | hkey | hkey
          · exact hgoes hname
          · exact ihInner key hkey
          · exact ihRest key hkey
        · rcases List.mem_append.mp hkey with hkey | hkey
          · exact ihInner key hkey
          · exact ihRest key hkey

end Fields

end Trees

section Cutting

namespace Body

/-- The keys of the found blocks are the keys of the tree. -/
theorem blocks_keys
    (b : Body) (line : Bool) (skip start : Nat) :
    ((b.segments line skip).blocks start).map AttrBlock.key =
      b.fields.blockKeys.map (fun key => some (key.getD [])) := by
  induction b generalizing line skip start with
  | done gap => rfl
  | scalar gap field rest ih => exact ih _ _ _
  | message gap header inner semicolon rest ihInner ihRest =>
      unfold segments
      simp only [fields, Fields.blockKeys]
      split_ifs with hname hline
      · simp only [Segments.blocks, Segments.blocks_append, List.map_append, List.map_cons,
          ihInner, ihRest, List.append_nil]
      · simp only [Segments.blocks, Segments.blocks_append, List.map_append, List.map_cons,
          ihInner, ihRest, List.append_nil]
      · simp only [Segments.blocks, Segments.blocks_append, List.map_append, ihInner, ihRest]

/-- The keys of the blocks that are cut out. -/
theorem going_keys
    (b : Body) (line : Bool) (skip start : Nat) :
    ((b.segments line skip).going start).filterMap AttrBlock.key = b.fields.prunedKeys := by
  induction b generalizing line skip start with
  | done gap => rfl
  | scalar gap field rest ih => exact ih _ _ _
  | message gap header inner semicolon rest ihInner ihRest =>
      have htoList : attributeShouldGo (inner.fields.decodedKey.getD []) = true →
          inner.fields.decodedKey.toList = [inner.fields.decodedKey.getD []] := by
        intro hgo
        cases hkey : inner.fields.decodedKey with
        | none =>
            rw [hkey] at hgo
            cases hgo
        | some key => rfl
      unfold segments
      simp only [fields, Fields.prunedKeys, Fields.goes_iff]
      by_cases hname : header.name.text = attributesWord
      · simp only [hname, true_and]
        by_cases hgo : attributeShouldGo (inner.fields.decodedKey.getD []) = true
        · split_ifs <;>
            simp [Segments.going, hgo, htoList hgo, ihRest]
        · split_ifs <;>
            simp [Segments.going, Segments.going_append, hgo, ihInner, ihRest]
      · simp only [hname, false_and, if_false]
        simp [Segments.going, Segments.going_append, ihInner, ihRest]

theorem isGap_drop_skip
    {b : Body} {line : Bool} {skip : Nat}
    (hskip : b.Skips line skip) :
    IsGap (b.firstGap.text.drop skip) := by
  rcases hskip with rfl | ⟨-, rfl⟩
  · exact b.firstGap.isGap
  · exact isGap_iff.mpr (isGap_iff.mp b.firstGap.isGap).drop_lineEnd

theorem isGap_take_lineEnd (g : Str) :
    IsGap (g.take (lineEnd g)) :=
  isGap_iff.mpr (.take_lineEnd (fun _ h => h) g)

/-- The lines before the last one stay a gap without the end of the first. -/
theorem isGap_drop_lastLine
    {b : Body} {line : Bool} {skip : Nat}
    (hskip : b.Skips line skip) :
    IsGap ((b.firstGap.text.take (lastLine b.firstGap.text)).drop skip) := by
  have hfiller := isGap_iff.mp b.firstGap.isGap
  rcases hskip with rfl | ⟨-, rfl⟩
  · exact isGap_iff.mpr hfiller.split_lastLine.1
  · exact isGap_iff.mpr hfiller.between_lines

variable {gap : Gap} {header : Header} {inner rest : Body} {semicolon line : Bool} {skip : Nat}

/-- White space at the start of the line that a block stands on. -/
def StartsLine (before : Str) : Prop :=
  ∀ c ∈ before, isSpace c = true ∧ c ≠ '\n'

/-- White space up to the end of the line that a block ends on, or nothing. -/
def EndsLine (after : Str) : Prop :=
  after = [] ∨ ∃ blanks, after = blanks ++ ['\n'] ∧ ∀ c ∈ blanks, isWs c = true ∧ c ≠ '\n'

/-- The text of a body, but for the blocks that go.  With a block goes some of the white
space on its lines, and nothing else; `taken` is what went with a block before the body. -/
inductive CutTo : Str → Body → Str → Prop
  | done {gap : Gap} {taken g : Str} :
      gap.text = taken ++ g → CutTo taken (done gap) g
  | scalar {gap : Gap} {field : Scalar} {rest : Body} {taken g out : Str} :
      gap.text = taken ++ g → CutTo [] rest out →
        CutTo taken (scalar gap field rest) (g ++ (field.render ++ out))
  | stays {gap : Gap} {header : Header} {inner rest : Body} {semicolon : Bool}
      {taken g innerOut out : Str} :
      ¬ Fields.Goes header inner.fields → gap.text = taken ++ g →
        CutTo [] inner innerOut → CutTo [] rest out →
          CutTo taken (message gap header inner semicolon rest)
            (g ++ (header.render ++ (innerOut ++ (closing semicolon ++ out))))
  | goes {gap : Gap} {header : Header} {inner rest : Body} {semicolon : Bool}
      {taken g before after out : Str} :
      Fields.Goes header inner.fields → gap.text = taken ++ (g ++ before) →
        StartsLine before → EndsLine after → CutTo after rest out →
          CutTo taken (message gap header inner semicolon rest) (g ++ out)

theorem endsLine_take
    {b : Body} {skip : Nat} (hskip : b.Skips false skip) :
    EndsLine (b.firstGap.text.take skip) := by
  rcases hskip with rfl | ⟨-, rfl⟩
  · exact Or.inl rfl
  · rcases lineEnd_cases b.firstGap.text with h | ⟨blanks, eol, rest, hsplit, hws, h⟩
    · rw [h]
      exact Or.inl rfl
    · refine Or.inr ⟨blanks ++ eol, ?_, hws⟩
      have hgap : b.firstGap.text = (blanks ++ eol ++ ['\n']) ++ rest := by
        rw [hsplit]
        simp
      have hlength : lineEnd b.firstGap.text = (blanks ++ eol ++ ['\n']).length := by
        rw [h, @List.length_append _ (blanks ++ eol) ['\n']]
        rfl
      rw [hlength, hgap, List.take_left]

/-- The last line of a gap starts the line of the block behind it. -/
theorem startsLine_lastLine (gap : Gap) :
    StartsLine (gap.text.drop (lastLine gap.text)) := by
  intro c hc
  refine ⟨gap.isSpace_lastLine c hc, ?_⟩
  rintro rfl
  by_cases h : '\n' ∈ gap.text
  · obtain ⟨a, b, hsplit, hnot, hlast⟩ := exists_lastLine h
    rw [hlast, hsplit] at hc
    exact hnot (by simpa using hc)
  · exact h (List.mem_of_mem_drop hc)

/-- What is kept of a message that goes: of the gap before it the lines above it, or all of
it; and of the gap behind it all but the end of its line. -/
theorem kept_goes
    (hgoes : Fields.Goes header inner.fields)
    (hskip : (message gap header inner semicolon rest).Skips line skip) :
    ∃ more left before, rest.Skips false more ∧ IsGap left ∧
      (line = false → skip = 0 → gap.text ≠ [] → left ≠ []) ∧
      gap.text.drop skip = left ++ before ∧ StartsLine before ∧
      ((message gap header inner semicolon rest).segments line skip).kept =
        left ++ (rest.segments false more).kept := by
  obtain ⟨hname, hkey⟩ := (Fields.goes_iff header inner.fields).mp hgoes
  rw [segments, if_pos hname]
  by_cases hown : line = true ∨ '\n' ∈ gap.text
  · refine ⟨_, (gap.text.take (lastLine gap.text)).drop skip, _, Or.inr ⟨rfl, rfl⟩,
      isGap_drop_lastLine hskip, ?_, (take_lastLine_append hskip.le_lastLine).symm,
      startsLine_lastLine gap, ?_⟩
    · rintro rfl rfl hne
      obtain ⟨a, c, -, -, hlast⟩ := exists_lastLine (hown.resolve_left Bool.false_ne_true)
      simp [hlast, hne]
    · simp only [if_pos hown, Segments.kept, if_pos hkey]
  · refine ⟨0, gap.text.drop skip, [], Or.inl rfl, isGap_drop_skip hskip, ?_,
      (List.append_nil _).symm, fun _ h => absurd h List.not_mem_nil, ?_⟩
    · rintro - rfl hne
      exact hne
    · simp only [if_neg hown, Segments.kept, if_pos hkey]

/-- What is kept of a message that stays. -/
theorem kept_stays
    (hgoes : ¬ Fields.Goes header inner.fields)
    (hskip : (message gap header inner semicolon rest).Skips line skip) :
    ∃ more, rest.Skips false more ∧ IsGap (rest.firstGap.text.take more) ∧
      ((message gap header inner semicolon rest).segments line skip).kept =
        gap.text.drop skip ++ (header.render ++ ((inner.segments false 0).kept ++
          (closing semicolon ++
            (rest.firstGap.text.take more ++ (rest.segments false more).kept)))) := by
  by_cases hname : header.name.text = attributesWord
  · have hkey : ¬ attributeShouldGo (inner.fields.decodedKey.getD []) = true := by
      intro hkey
      exact hgoes ((Fields.goes_iff header inner.fields).mpr ⟨hname, hkey⟩)
    rw [segments, if_pos hname]
    by_cases hown : line = true ∨ '\n' ∈ gap.text
    · refine ⟨_, Or.inr ⟨rfl, rfl⟩, isGap_take_lineEnd _, ?_⟩
      have hfirst := take_lastLine_append (show skip ≤ lastLine gap.text from hskip.le_lastLine)
      simp only [if_pos hown, Segments.kept, Segments.kept_append, if_neg hkey]
      rw [← hfirst]
      simp
    · refine ⟨0, Or.inl rfl, .nil, ?_⟩
      simp only [if_neg hown, Segments.kept, Segments.kept_append, if_neg hkey]
      simp
  · refine ⟨0, Or.inl rfl, .nil, ?_⟩
    simp [segments, if_neg hname, Segments.kept]

theorem take_append_drop_take
    {g : Str} {k skip : Nat} (hk : k ≤ skip) :
    g = g.take k ++ ((g.take skip).drop k ++ g.drop skip) := by
  have htake : g.take k = (g.take skip).take k := by rw [List.take_take, Nat.min_eq_left hk]
  rw [htake, ← List.append_assoc, List.take_append_drop, List.take_append_drop]

/-- What is kept of a body is its text but for the blocks that go.  Of its first gap
`skip` characters went with the block before it, and all but `k` of them are put back. -/
theorem cutTo_segments
    (b : Body) (line : Bool) (skip k : Nat)
    (hskip : b.Skips line skip) (hk : k ≤ skip) :
    b.CutTo (b.firstGap.text.take k)
      ((b.firstGap.text.take skip).drop k ++ (b.segments line skip).kept) := by
  induction b generalizing line skip k with
  | done gap =>
      refine .done ?_
      simp only [segments, Segments.kept, List.append_nil]
      exact take_append_drop_take hk
  | scalar gap field rest ih =>
      have hrest := ih false 0 0 (Or.inl rfl) (Nat.le_refl 0)
      simp only [segments, Segments.kept]
      rw [← List.append_assoc]
      exact .scalar (take_append_drop_take hk) hrest
  | message gap header inner semicolon rest ihInner ihRest =>
      have hgap : gap.text = gap.text.take k ++
          ((gap.text.take skip).drop k ++ gap.text.drop skip) := take_append_drop_take hk
      by_cases hgoes : Fields.Goes header inner.fields
      · obtain ⟨more, left, before, hmore, -, -, hleft, hstarts, hkept⟩ := kept_goes hgoes hskip
        have hrest := ihRest false more more hmore (Nat.le_refl more)
        rw [List.drop_eq_nil_of_le (List.length_take_le _ _), List.nil_append] at hrest
        rw [hkept, ← List.append_assoc]
        refine .goes hgoes ?_ hstarts (endsLine_take hmore) hrest
        rw [List.append_assoc, ← hleft]
        exact hgap
      · obtain ⟨more, hmore, -, hkept⟩ := kept_stays hgoes hskip
        have hinner := ihInner false 0 0 (Or.inl rfl) (Nat.le_refl 0)
        have hrest := ihRest false more 0 hmore (Nat.zero_le more)
        rw [hkept, ← List.append_assoc]
        exact .stays hgoes hgap hinner hrest

/-- The text is a rendering of the tree; `touching` says that a word stands before it. -/
def RendersAfter (touching : Bool) (text : Str) (tree : Fields) : Prop :=
  ∃ body : Body, body.Separated touching ∧ body.render = text ∧ body.fields = tree

theorem RendersAfter.scalar
    {touching : Bool} {g text : Str} {field : Scalar} {tree : Fields} (hgap : IsGap g)
    (hne : touching = true → g ≠ []) (hrest : RendersAfter field.endsInWord text tree) :
    RendersAfter touching (g ++ (field.render ++ text)) (.scalar field tree) := by
  obtain ⟨body, hsep, rfl, rfl⟩ := hrest
  exact ⟨.scalar ⟨g, hgap⟩ field body, ⟨hne, hsep⟩, rfl, rfl⟩

theorem RendersAfter.message
    {touching : Bool} {g innerText text : Str} {innerTree tree : Fields} (hgap : IsGap g)
    (hne : touching = true → g ≠ []) (hinner : RendersAfter false innerText innerTree)
    (hrest : RendersAfter false text tree) :
    RendersAfter touching
      (g ++ (header.render ++ (innerText ++ (closing semicolon ++ text))))
      (.message header innerTree semicolon tree) := by
  obtain ⟨inner, hsepInner, rfl, rfl⟩ := hinner
  obtain ⟨body, hsep, rfl, rfl⟩ := hrest
  exact ⟨.message ⟨g, hgap⟩ header inner semicolon body, ⟨hne, hsepInner, hsep⟩, rfl, rfl⟩

theorem keptGap_ne_nil
    {before touching : Bool} {lead g : Str}
    (htouching : touching = true → lead ≠ [] ∨ (skip = 0 ∧ before = true))
    (hgap : before = true → g ≠ []) :
    touching = true → lead ++ g.drop skip ≠ [] := by
  intro h
  rcases htouching h with hne | ⟨rfl, hbefore⟩
  · simp [hne]
  · simp [hgap hbefore]

/-- What is kept of a body is a rendering of the pruned tree.  `lead` is what
was kept before the body of the gaps around blocks that went. -/
theorem exists_pruned
    (b : Body) (line before touching : Bool) (skip : Nat) (lead : Str)
    (hb : b.Separated before)
    (hskip : b.Skips line skip)
    (hlead : IsGap lead)
    (hline : line = true → touching = false)
    (htouching : touching = true → lead ≠ [] ∨ (skip = 0 ∧ before = true)) :
    RendersAfter touching (lead ++ (b.segments line skip).kept) b.fields.prune := by
  have hdrop := isGap_drop_skip hskip
  induction b generalizing line before touching skip lead with
  | done gap =>
      refine ⟨.done ⟨_, hlead.append hdrop⟩, trivial, ?_, rfl⟩
      simp [render, segments, Segments.kept, firstGap]
  | scalar gap field rest ih =>
      have hnonempty := keptGap_ne_nil htouching hb.1
      have hrest := ih false field.endsInWord field.endsInWord 0 [] hb.2 (Or.inl rfl) .nil
        (fun h => by cases h) (fun h => Or.inr ⟨rfl, h⟩) rest.firstGap.isGap
      rw [segments, Segments.kept, Segments.kept, ← List.append_assoc]
      exact .scalar (hlead.append hdrop) hnonempty hrest
  | message gap header inner semicolon rest ihInner ihRest =>
      by_cases hgoes : Fields.Goes header inner.fields
      · obtain ⟨more, left, -, hmore, hleft, hne, -, -, hkept⟩ := kept_goes hgoes hskip
        have hnonempty : touching = true → lead ++ left ≠ [] := by
          intro h
          rcases htouching h with hlead | ⟨hzero, hbefore⟩
          · simp [hlead]
          · have hnotLine : line = false := by
              cases line with
              | false => rfl
              | true =>
                  rw [hline rfl] at h
                  cases h
            simp [hne hnotLine hzero (hb.1 hbefore)]
        rw [hkept, fields, Fields.prune, if_pos hgoes, ← List.append_assoc]
        exact ihRest false false touching more _ hb.2.2 hmore (hlead.append hleft)
          (fun h => by cases h) (fun h => Or.inl (hnonempty h)) (isGap_drop_skip hmore)
      · obtain ⟨more, hmore, htake, hkept⟩ := kept_stays hgoes hskip
        have hnonempty := keptGap_ne_nil htouching hb.1
        have hinner := ihInner false false false 0 [] hb.2.1 (Or.inl rfl) .nil (fun _ => rfl)
          (fun h => by cases h) inner.firstGap.isGap
        have hrest := ihRest false false false more _ hb.2.2 hmore htake (fun _ => rfl)
          (fun h => by cases h) (isGap_drop_skip hmore)
        rw [hkept, fields, Fields.prune, if_neg hgoes, ← List.append_assoc]
        exact .message (hlead.append hdrop) hnonempty hinner hrest

end Body

end Cutting

section Rewriting

variable {b : Body}

theorem slice_render (text : Str) :
    slice text 0 text.length = text ++ [] := by
  rw [slice_whole, List.append_nil]

theorem closes_nil : Closes [] := by
  intro c hc
  cases hc

theorem startsAt_zero (text : Str) :
    StartsAt text true 0 :=
  ⟨Nat.zero_le _, Or.inl ⟨rfl, rfl⟩⟩

/-- All blocks of a rendered tree are found. -/
theorem findAttributeBlocks_render
    (hb : b.Separated false)
    (hkeyed : b.fields.Keyed)
    (hread : ∀ l ∈ b.fields.keyLiterals, l.Readable) :
    findAttributeBlocks b.render 0 b.render.length = .ok ((b.segments true 0).blocks 0) := by
  have hslice := slice_render b.render
  have hfind := (findFrom_body b true 0 0 hb hkeyed (Or.inl rfl) (startsAt_zero _)
    closes_nil closes_nil hslice hslice).found hread
  rw [findFrom_nil (slice_after hslice)] at hfind
  rw [findAttributeBlocks, hfind]
  simp [Except.map]

theorem documentAttribute_ne_nil : documentAttribute ≠ [] := by
  decide

theorem key_eq_document_iff (key : Option CodePoints) :
    key.getD [] = documentAttribute ↔ key = some documentAttribute := by
  cases key with
  | none => exact ⟨fun h => absurd h.symm documentAttribute_ne_nil, by rintro ⟨⟩⟩
  | some key => simp

/-- A found block has the document key if and only if one of the tree has it. -/
theorem any_document_iff (b : Body) (start : Nat) :
    ((b.segments true 0).blocks start).any (fun block => block.key == some documentAttribute) =
      true ↔ some documentAttribute ∈ b.fields.blockKeys := by
  have hkeys := b.blocks_keys true 0 start
  have hmem : some documentAttribute ∈ ((b.segments true 0).blocks start).map AttrBlock.key ↔
      some documentAttribute ∈ b.fields.blockKeys := by
    rw [hkeys, List.mem_map]
    constructor
    · rintro ⟨key, hkey, heq⟩
      rw [Option.some.injEq, key_eq_document_iff] at heq
      exact heq ▸ hkey
    · intro h
      exact ⟨_, h, rfl⟩
  rw [← hmem, List.any_eq_true, List.mem_map]
  simp only [beq_iff_eq]

/-- Rewriting a rendered tree with readable keys. -/
theorem rewriteDocumentScheme_render
    (hb : b.Separated false)
    (hkeyed : b.fields.Keyed)
    (hread : ∀ l ∈ b.fields.keyLiterals, l.Readable) :
    rewriteDocumentScheme b.render =
      .ok (if some documentAttribute ∈ b.fields.blockKeys then
        some ((b.segments true 0).kept, b.fields.prunedKeys) else none) := by
  have hsolid := b.solid_segments true 0
  have htext : (b.segments true 0).text = b.render :=
    (b.text_segments (Or.inl rfl)).trans List.drop_zero
  have hfind := findAttributeBlocks_render hb hkeyed hread
  have hany := any_document_iff b 0
  by_cases hdocument : some documentAttribute ∈ b.fields.blockKeys
  · have hblocks := hany.mpr hdocument
    have hremovable : (((b.segments true 0).blocks 0).filter AttrBlock.removable).any
        (fun block => block.key == some documentAttribute) = true := by
      obtain ⟨block, hblock, hkey⟩ := List.any_eq_true.mp hblocks
      exact List.any_eq_true.mpr
        ⟨block, List.mem_filter.mpr ⟨hblock, removable_of_document hkey⟩, hkey⟩
    have hexcise : excise b.render 0 ((b.segments true 0).going 0) =
        .ok (b.segments true 0).kept := by
      have hwhole : slice b.render 0 b.render.length = (b.segments true 0).text ++ [] := by
        rw [htext]
        exact slice_render _
      have h := Segments.excise_going (b.segments true 0) hsolid 0 [] hwhole (by simp)
      rw [List.append_nil, htext] at h
      rw [h, excise, Nat.zero_add, List.drop_length]
      simp [Except.map]
    -- the new text is a rendering too, and none of its blocks should go
    obtain ⟨pruned, hsep, hrender, hfields⟩ := b.exists_pruned true false false 0 [] hb
      (Or.inl rfl) .nil (fun _ => rfl) (by rintro ⟨⟩)
    rw [List.nil_append] at hrender
    have hleft := findAttributeBlocks_render hsep (hfields ▸ Fields.keyed_prune hkeyed)
      (fun l hl => hread l (Fields.keyLiterals_prune b.fields (hfields ▸ hl)))
    rw [hrender] at hleft
    have hnone : ((pruned.segments true 0).blocks 0).any AttrBlock.removable = false := by
      rw [List.any_eq_false]
      intro block hblock hgoes
      have hmem := List.mem_map_of_mem (f := AttrBlock.key) hblock
      rw [pruned.blocks_keys true 0 0, hfields, List.mem_map] at hmem
      obtain ⟨key, hkey, heq⟩ := hmem
      have hstays := Fields.blockKeys_prune b.fields key hkey
      unfold AttrBlock.removable at hgoes
      rw [← heq] at hgoes
      dsimp only at hgoes
      rw [hstays] at hgoes
      cases hgoes
    unfold rewriteDocumentScheme
    simp only [hfind, bind, Except.bind, hblocks, hremovable, Bool.not_true, Bool.false_eq_true,
      if_false, Segments.chooseBlocks_eq hsolid, hexcise, hleft, hnone, pure, Except.pure,
      b.going_keys, if_pos hdocument]
  · have hblocks := Bool.eq_false_iff.mpr (fun h => hdocument (hany.mp h))
    unfold rewriteDocumentScheme
    simp only [hfind, bind, Except.bind, hblocks, Bool.not_false, if_true, pure, Except.pure,
      if_neg hdocument]

/-- Rewriting a rendered tree with a key that is not readable raises. -/
theorem rewriteDocumentScheme_render_error
    (hb : b.Separated false)
    (hkeyed : b.fields.Keyed)
    (hbad : ∃ l ∈ b.fields.keyLiterals, ¬ l.Readable) :
    ∃ e, rewriteDocumentScheme b.render = .error e := by
  have hslice := slice_render b.render
  obtain ⟨e, he⟩ := (findFrom_body b true 0 0 hb hkeyed (Or.inl rfl) (startsAt_zero _)
    closes_nil closes_nil hslice hslice).raises hbad
  exact ⟨e, by simp [rewriteDocumentScheme, findAttributeBlocks, he, bind, Except.bind]⟩

/-- What rewriting the text of a tree should do: nothing without the document
attribute, otherwise cut out the blocks that go, so that the pruned tree is left, and
report their keys. -/
def RewritesTo (b : Body) : Prop :=
  (some documentAttribute ∉ b.fields.blockKeys ∧ rewriteDocumentScheme b.render = .ok none) ∨
    (some documentAttribute ∈ b.fields.blockKeys ∧
      ∃ out, rewriteDocumentScheme b.render = .ok (some (out, b.fields.prunedKeys)) ∧
        Renders out b.fields.prune ∧ b.CutTo [] out)

/-- A rendered tree is pruned exactly if the literals of its keys are
readable. -/
theorem rewrite_prunes_iff
    (b : Body)
    (hb : b.Separated false)
    (hkeyed : b.fields.Keyed) :
    RewritesTo b ↔ ∀ l ∈ b.fields.keyLiterals, l.Readable := by
  constructor
  · intro h
    by_contra hbad
    push Not at hbad
    obtain ⟨e, he⟩ := rewriteDocumentScheme_render_error hb hkeyed hbad
    rcases h with ⟨-, hnone⟩ | ⟨-, out, hsome, -⟩
    · rw [he] at hnone
      cases hnone
    · rw [he] at hsome
      cases hsome
  · intro hread
    have hrewrite := rewriteDocumentScheme_render hb hkeyed hread
    by_cases hdocument : some documentAttribute ∈ b.fields.blockKeys
    · rw [if_pos hdocument] at hrewrite
      obtain ⟨pruned, hsep, hrender, hfields⟩ := b.exists_pruned true false false 0 [] hb
        (Or.inl rfl) .nil (fun _ => rfl) (by rintro ⟨⟩)
      have hcut := b.cutTo_segments true 0 0 (Or.inl rfl) (Nat.le_refl 0)
      exact Or.inr ⟨hdocument, _, hrewrite, ⟨pruned, hsep, hrender, hfields⟩, hcut⟩
    · rw [if_neg hdocument] at hrewrite
      exact Or.inl ⟨hdocument, hrewrite⟩

/-- One `attributes` block whose key is the literal. -/
def oneAttribute (key : Literal) : Body :=
  .message ⟨[], .nil⟩ ⟨⟨attributesWord, isWord_attributes⟩, .blank ⟨[' '], by simp [isWs]⟩⟩
    (.scalar ⟨[' '], .ws (by decide) .nil⟩
      ⟨⟨keyWord, isWord_key⟩, .colon ⟨[], by simp⟩ ⟨[' '], by simp [isWs]⟩,
        .strings key [], by simp [Separator.render], by rintro n ⟨⟩⟩
      (.done ⟨[' '], .ws (by decide) .nil⟩))
    false (.done ⟨['\n'], .ws (by decide) .nil⟩)

theorem oneAttribute_separated (key : Literal) :
    (oneAttribute key).Separated false := by
  refine ⟨by rintro ⟨⟩, ⟨by rintro ⟨⟩, trivial⟩, trivial⟩

theorem oneAttribute_keyed (key : Literal) :
    (oneAttribute key).fields.Keyed := by
  refine ⟨fun _ => ⟨[key], ?_⟩, trivial, trivial⟩
  simp [Body.fields, Fields.keyFields, Value.literals?]

theorem oneAttribute_keyLiterals (key : Literal) :
    (oneAttribute key).fields.keyLiterals = [key] := by
  simp [oneAttribute, Body.fields, Fields.keyLiterals, Fields.keyFields, Value.literals?]

/-- The key of a document table, with the underscore as an octal escape. -/
def documentLiteral : Literal :=
  ⟨'"', "\\137_document_api_version".toList, isQuote_double, by decide +kernel⟩

/-- A key with a `\x` that has one hexadecimal digit. -/
def shortHexLiteral : Literal :=
  ⟨'"', "dynamodb\\x1g".toList, isQuote_double, by decide +kernel⟩

theorem documentLiteral_readable : documentLiteral.Readable := by
  have hescape : protoEscape '1' "37_document_api_version".toList = some (95, 2) := by
    decide +kernel
  have hstart : protoDecode documentLiteral.body =
      (protoDecode "_document_api_version".toList).map (95 :: ·) := by
    change protoDecode ('\\' :: '1' :: "37_document_api_version".toList) = _
    rw [protoDecode, if_neg (by decide), hescape]
    rfl
  have hrest := decodeBody_eq_ok_iff.mp
    (decodeBody_of_notMem (show '\\' ∉ "_document_api_version".toList by decide))
  refine ⟨?_, by decide +kernel⟩
  rw [hstart, hrest.1]
  rfl

theorem rewrite_prunes_one_attribute :
    RewritesTo (oneAttribute documentLiteral) := by
  refine (rewrite_prunes_iff _ (oneAttribute_separated _) (oneAttribute_keyed _)).mpr ?_
  intro l hl
  rw [oneAttribute_keyLiterals, List.mem_singleton] at hl
  exact hl ▸ documentLiteral_readable

/-- A `\x` with one hexadecimal digit before another character is refused. -/
theorem short_hex_not_pruned :
    ¬ ∀ b : Body, b.Separated false → b.fields.Keyed → RewritesTo b := by
  intro hclaim
  have hbad : ∃ l ∈ (oneAttribute shortHexLiteral).fields.keyLiterals, ¬ l.Readable := by
    refine ⟨shortHexLiteral, by simp [oneAttribute_keyLiterals], fun hread => ?_⟩
    exact absurd hread.2 (by decide +kernel)
  obtain ⟨e, he⟩ := rewriteDocumentScheme_render_error (oneAttribute_separated _)
    (oneAttribute_keyed _) hbad
  rcases hclaim _ (oneAttribute_separated shortHexLiteral) (oneAttribute_keyed _) with
    ⟨-, hnone⟩ | ⟨-, out, hsome, -⟩
  · rw [he] at hnone
    cases hnone
  · rw [he] at hsome
    cases hsome

end Rewriting

end Backup
end YdbSnippets
