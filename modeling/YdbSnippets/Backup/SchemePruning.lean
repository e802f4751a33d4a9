import YdbSnippets.Backup.SchemeFinder

/-!
# Pruning a scheme of tokens

Without the blocks that go a scheme keeps the keys of its other blocks, and its
text is the text of a scheme again.  So rewriting raises only where a key
cannot be read.
-/

namespace YdbSnippets
namespace Backup

open Python

namespace Scheme

section Relation

/-- The second scheme is the first one without the blocks that go.  Only the
gap of a token behind a message may differ; `free` says that one stands before. -/
inductive Pruned : Bool → Scheme → Scheme → Prop
  | done {free : Bool} {gap gap' : Spacing} : Pruned free (done gap) (done gap')
  | token {free : Bool} {gap gap' : Spacing} {tok : Token} {rest rest' : Scheme} :
      (free = false → gap'.text = gap.text) → Pruned false rest rest' →
        Pruned free (token gap tok rest) (token gap' tok rest')
  | gone {free : Bool} {gap : Spacing} {opening : Opening} {inner rest rest' : Scheme}
      {semicolon : Bool} :
      Goes opening inner → Pruned true rest rest' →
        Pruned free (message gap opening inner semicolon rest) rest'
  | stays {free : Bool} {gap gap' : Spacing} {opening : Opening}
      {inner inner' rest rest' : Scheme} {semicolon : Bool} :
      ¬ Goes opening inner → Pruned true inner inner' → Pruned true rest rest' →
        Pruned free (message gap opening inner semicolon rest)
          (message gap' opening inner' semicolon rest')

variable {free touching : Bool} {s p : Scheme}

/-- A block that goes is no value. -/
theorem not_completes_of_goes
    {gap : Spacing} {opening : Opening} {inner rest : Scheme} {semicolon : Bool}
    (h : Goes opening inner) :
    ¬ (message gap opening inner semicolon rest).Completes := by
  cases opening with
  | brace => exact absurd h.1 id
  | attributes ahead => exact id

theorem Pruned.not_completes
    (h : Pruned free s p)
    (hs : s.Separated touching)
    (hnot : ¬ s.Completes) :
    ¬ p.Completes := by
  induction h generalizing touching with
  | done => exact id
  | @token free gap gap' tok rest rest' _ _ _ =>
      cases tok <;> exact hnot
  | gone _ _ ih =>
      obtain ⟨-, -, hrest, -, hsep⟩ := hs
      exact ih hsep hrest
  | @stays free gap gap' opening inner inner' rest rest' semicolon _ _ _ _ _ =>
      cases opening with
      | brace => exact absurd trivial hnot
      | attributes ahead => exact id

theorem completes_of_opensBrace
    (h : s.OpensBrace) :
    s.Completes := by
  cases s with
  | done gap => exact h
  | token gap tok rest => exact absurd h id
  | message gap opening inner semicolon rest =>
      cases opening with
      | brace => trivial
      | attributes ahead => exact h

theorem completes_of_opensMessage
    (h : s.OpensMessage) :
    s.Completes := by
  cases s with
  | done gap => exact h
  | token gap tok rest =>
      obtain ⟨rfl, -⟩ := h
      rfl
  | message gap opening inner semicolon rest => exact completes_of_opensBrace h

theorem Pruned.opensBrace
    (h : Pruned free s p)
    (hs : s.Separated touching)
    (hp : p.OpensBrace) :
    s.OpensBrace := by
  cases h with
  | done => exact hp
  | token _ _ => exact hp
  | gone hgoes hrest =>
      obtain ⟨-, -, hnot, -, hsep⟩ := hs
      exact absurd (completes_of_opensBrace hp) (hrest.not_completes hsep hnot)
  | @stays free gap gap' opening inner inner' rest rest' semicolon _ _ _ =>
      cases opening with
      | brace => trivial
      | attributes ahead => exact hp

theorem Pruned.opensMessage
    (h : Pruned free s p)
    (hs : s.Separated touching)
    (hp : p.OpensMessage) :
    s.OpensMessage := by
  cases h with
  | done => exact hp
  | token _ hrest =>
      obtain ⟨-, -, -, hsep⟩ := hs
      exact ⟨hp.1, hrest.opensBrace hsep hp.2⟩
  | gone hgoes hrest =>
      obtain ⟨-, -, hnot, -, hsep⟩ := hs
      exact absurd (completes_of_opensMessage hp) (hrest.not_completes hsep hnot)
  | @stays free gap gap' opening inner inner' rest rest' semicolon _ _ _ =>
      cases opening with
      | brace => trivial
      | attributes ahead => exact hp

end Relation

section Keys

variable {free touching : Bool} {s p : Scheme}

theorem moreLiterals_of_not_completes
    (h : ¬ s.Completes) :
    s.moreLiterals = some [] := by
  cases s with
  | done gap => rfl
  | message gap opening inner semicolon rest => rfl
  | token gap tok rest =>
      cases tok with
      | literal l => exact absurd trivial h
      | word n => rfl
      | number n => rfl
      | symbol c hc => rfl

theorem literals_of_not_completes
    (h : ¬ s.Completes) :
    s.literals = none := by
  cases s with
  | done gap => rfl
  | message gap opening inner semicolon rest => rfl
  | token gap tok rest =>
      cases tok with
      | literal l => exact absurd trivial h
      | word n => rfl
      | number n => rfl
      | symbol c hc => rfl

theorem readValue_of_not_completes
    (h : ¬ s.Completes) :
    s.readValue = none := by
  cases s with
  | done gap => rfl
  | message gap opening inner semicolon rest => rfl
  | token gap tok rest =>
      cases tok with
      | literal l => exact absurd trivial h
      | word n => rfl
      | number n => rfl
      | symbol c hc =>
          rw [readValue, if_neg fun hcolon => h hcolon.1]
          rfl

theorem plain_iff_of_text_eq
    {g g' : Spacing} (h : g'.text = g.text) :
    g'.Plain ↔ g.Plain := by
  unfold Spacing.Plain
  rw [h]

/-- The literals behind a token stay. -/
theorem Pruned.moreLiterals
    (h : Pruned false s p)
    (hs : s.Separated touching) :
    p.moreLiterals = s.moreLiterals := by
  generalize hfree : false = free at h
  induction h generalizing touching with
  | done => rfl
  | @token free gap gap' tok rest rest' hgap hrest ih =>
      obtain ⟨-, -, -, hsep⟩ := hs
      cases tok with
      | literal l =>
          simp only [Scheme.moreLiterals, ih hsep rfl, plain_iff_of_text_eq (hgap hfree.symm)]
      | word n => rfl
      | number n => rfl
      | symbol c hc => rfl
  | gone hgoes hrest _ =>
      obtain ⟨-, -, hnot, -, hsep⟩ := hs
      exact moreLiterals_of_not_completes (hrest.not_completes hsep hnot)
  | stays _ _ _ _ _ => rfl

theorem Pruned.literals
    (h : Pruned false s p)
    (hs : s.Separated touching) :
    p.literals = s.literals := by
  cases h with
  | done => rfl
  | @token _ gap gap' tok rest rest' hgap hrest =>
      obtain ⟨-, -, -, hsep⟩ := hs
      cases tok with
      | literal l =>
          simp only [Scheme.literals, hrest.moreLiterals hsep, plain_iff_of_text_eq (hgap rfl)]
      | word n => rfl
      | number n => rfl
      | symbol c hc => rfl
  | gone hgoes hrest =>
      obtain ⟨-, -, hnot, -, hsep⟩ := hs
      exact literals_of_not_completes (hrest.not_completes hsep hnot)
  | stays _ _ _ => rfl

theorem Pruned.readValue
    (h : Pruned false s p)
    (hs : s.Separated touching) :
    p.readValue = s.readValue := by
  have hliterals := h.literals hs
  cases h with
  | done => rfl
  | @token _ gap gap' tok rest rest' hgap hrest =>
      obtain ⟨-, -, -, hsep⟩ := hs
      cases tok with
      | literal l => exact hliterals
      | word n => rfl
      | number n => rfl
      | symbol c hc =>
          simp only [Scheme.readValue, hrest.literals hsep, hliterals,
            plain_iff_of_text_eq (hgap rfl)]
  | gone hgoes hrest =>
      obtain ⟨-, -, hnot, -, hsep⟩ := hs
      rw [readValue_of_not_completes (hrest.not_completes hsep hnot),
        readValue_of_not_completes (not_completes_of_goes hgoes)]
  | stays _ _ _ => rfl

/-- The direct keys stay. -/
theorem Pruned.keyValues
    (h : Pruned free s p)
    (hs : s.Separated touching) :
    p.keyValues = s.keyValues := by
  induction h generalizing touching with
  | done => rfl
  | token _ hrest ih =>
      obtain ⟨-, -, -, hsep⟩ := hs
      simp only [Scheme.keyValues, ih hsep, hrest.readValue hsep]
  | gone _ _ ih =>
      obtain ⟨-, -, -, -, hsep⟩ := hs
      exact ih hsep
  | stays _ _ _ _ ih =>
      obtain ⟨-, -, -, -, hsep⟩ := hs
      exact ih hsep

theorem Pruned.foundKey
    (h : Pruned free s p)
    (hs : s.Separated touching) :
    p.foundKey = s.foundKey := by
  rw [Scheme.foundKey, h.keyValues hs, Scheme.foundKey]

theorem Pruned.legible
    (h : Pruned free s p)
    (hs : s.Separated touching)
    (hlegible : s.Legible) :
    p.Legible := by
  induction h generalizing touching with
  | done => trivial
  | token _ _ ih =>
      obtain ⟨-, -, -, hsep⟩ := hs
      exact ih hsep hlegible
  | gone _ _ ih =>
      obtain ⟨-, -, -, -, hsep⟩ := hs
      exact ih hsep hlegible.2.2
  | stays _ hinner _ ihInner ihRest =>
      obtain ⟨-, -, -, hsepInner, hsep⟩ := hs
      obtain ⟨hread, hlegibleInner, hlegibleRest⟩ := hlegible
      refine ⟨?_, ihInner hsepInner hlegibleInner, ihRest hsep hlegibleRest⟩
      rw [hinner.foundKey hsepInner]
      exact hread

theorem goes_iff_of_foundKey
    {opening : Opening} {inner inner' : Scheme}
    (h : inner'.foundKey = inner.foundKey) :
    Goes opening inner' ↔ Goes opening inner := by
  unfold Goes keyText
  rw [h]

/-- No block that is left goes. -/
theorem Pruned.blocks_eq_nil
    (h : Pruned free s p)
    (hs : s.Separated touching)
    (line : Bool) (skip start : Nat) :
    (p.segments line skip).blocks start = [] := by
  induction h generalizing touching line skip start with
  | done => rfl
  | token _ _ ih =>
      obtain ⟨-, -, -, hsep⟩ := hs
      exact ih hsep _ _ _
  | gone _ _ ih =>
      obtain ⟨-, -, -, -, hsep⟩ := hs
      exact ih hsep _ _ _
  | stays hgoes hinner _ ihInner ihRest =>
      obtain ⟨-, -, -, hsepInner, hsep⟩ := hs
      have hstays := fun h => hgoes ((goes_iff_of_foundKey (hinner.foundKey hsepInner)).mp h)
      rw [segments, if_neg hstays, Segments.blocks, Segments.blocks, Segments.blocks_append,
        Segments.blocks, ihInner hsepInner, ihRest hsep, List.append_nil]

end Keys

section Cutting

/-- The keys of the blocks that are cut out. -/
theorem going_keys
    (s : Scheme) (line : Bool) (skip start : Nat) :
    ((s.segments line skip).going start).filterMap AttrBlock.key = s.removedNames := by
  induction s generalizing line skip start with
  | done gap => rfl
  | token gap tok rest ih => exact ih _ _ _
  | message gap opening inner semicolon rest ihInner ihRest =>
      unfold segments
      rw [removedNames]
      by_cases hgoes : Goes opening inner
      · rw [if_pos hgoes, if_pos hgoes]
        split_ifs <;> simp [Segments.going, hgoes.2, ihRest]
      · rw [if_neg hgoes, if_neg hgoes]
        simp [Segments.going, Segments.going_append, ihInner, ihRest]

/-- What is known where a scheme starts.  `lead` is what was kept before it of the
gaps around blocks that went; `touching` and `behind` say that a word or a message
is the last thing that was kept, and `before` that a word stands before. -/
structure Leads (line before touching behind free : Bool) (skip : Nat) (lead : Str)
    (s : Scheme) : Prop where
  separated : s.Separated before
  skips : s.Skips line skip
  filler : IsFiller isSpacing lead
  unchanged : free = false → lead = [] ∧ skip = 0
  first : line = true → touching = false ∧ behind = false
  kept : before = true → touching = true
  touching : touching = true → lead ≠ [] ∨ (skip = 0 ∧ before = true)
  behind : behind = true → lead ≠ [] ∨ (skip = 0 ∧ ¬ s.StartsSemicolon)

variable {line before touching behind free : Bool} {skip : Nat} {lead : Str}
variable {gap : Spacing} {opening : Opening} {inner rest : Scheme} {semicolon : Bool}

/-- The gap that is kept before a token or a message. -/
def Leads.keptGap
    {s : Scheme} (h : s.Leads line before touching behind free skip lead) : Spacing where
  text := lead ++ s.firstGap.text.drop skip
  isFiller := by
    refine h.filler.append ?_
    rcases h.skips with hzero | ⟨-, hskip⟩
    · rw [hzero]
      exact s.firstGap.isFiller
    · rw [hskip]
      exact s.firstGap.isFiller.drop_lineEnd

theorem Leads.keptGap_ne_nil
    {s : Scheme} (h : s.Leads line before touching behind free skip lead)
    (htouching : touching = true)
    (hgap : before = true → s.firstGap.text ≠ []) :
    h.keptGap.text ≠ [] := by
  rcases h.touching htouching with hne | ⟨hzero, hbefore⟩
  · simp [keptGap, hne]
  · simp [keptGap, hzero, hgap hbefore]

/-- Behind a token nothing was taken. -/
theorem leads_token
    {touching : Bool} (hs : rest.Separated touching) :
    rest.Leads false touching touching false false 0 [] where
  separated := hs
  skips := rest.skips_zero false
  filler := .nil
  unchanged := fun _ => ⟨rfl, rfl⟩
  first := fun h => by cases h
  kept := id
  touching := fun h => Or.inr ⟨rfl, h⟩
  behind := fun h => by cases h

/-- Behind a brace nothing was taken. -/
theorem leads_brace
    (hs : rest.Separated false)
    (hsemicolon : behind = true → ¬ rest.StartsSemicolon) :
    rest.Leads false false false behind true 0 [] where
  separated := hs
  skips := rest.skips_zero false
  filler := .nil
  unchanged := fun h => by cases h
  first := fun h => by cases h
  kept := id
  touching := fun h => by cases h
  behind := fun h => Or.inr ⟨rfl, hsemicolon h⟩

theorem take_lastLine_ne_nil
    {g : Str} (h : '\n' ∈ g) :
    g.take (lastLine g) ≠ [] := by
  obtain ⟨a, c, rfl, -, hlast⟩ := exists_lastLine h
  simp [hlast]

/-- Behind a block that went with its line. -/
theorem Leads.goesWithLine
    (h : (message gap opening inner semicolon rest).Leads line before touching behind free skip
      lead)
    (hline : line = true ∨ '\n' ∈ gap.text) :
    rest.Leads false false touching behind true (lineEnd rest.firstGap.text)
      (lead ++ (gap.text.take (lastLine gap.text)).drop skip) where
  separated := h.separated.2.2.2.2
  skips := rest.skips_lineEnd
  filler := by
    refine h.filler.append ?_
    rcases h.skips with rfl | ⟨-, rfl⟩
    · exact gap.isFiller.split_lastLine.1
    · exact gap.isFiller.between_lines
  unchanged := fun h => by cases h
  first := fun h => by cases h
  kept := fun h => by cases h
  touching := by
    intro htouching
    left
    rcases h.touching htouching with hne | ⟨rfl, hbefore⟩
    · simp [hne]
    · rcases hline with hyes | hmem
      · rw [(h.first hyes).1] at htouching
        cases htouching
      · simp [take_lastLine_ne_nil hmem]
  behind := by
    intro hbehind
    left
    rcases h.behind hbehind with hne | ⟨rfl, -⟩
    · simp [hne]
    · rcases hline with hyes | hmem
      · rw [(h.first hyes).2] at hbehind
        cases hbehind
      · simp [take_lastLine_ne_nil hmem]

/-- Behind a block that went alone. -/
theorem Leads.goesAlone
    (h : (message gap opening inner semicolon rest).Leads line before touching behind free skip
      lead)
    (hseen : opening.Seen) :
    rest.Leads false false touching behind true 0 h.keptGap.text where
  separated := h.separated.2.2.2.2
  skips := rest.skips_zero false
  filler := h.keptGap.isFiller
  unchanged := fun h => by cases h
  first := fun h => by cases h
  kept := fun h => by cases h
  touching := by
    intro htouching
    left
    refine h.keptGap_ne_nil htouching fun hbefore => h.separated.1 hbefore ?_
    rintro rfl
    exact hseen
  behind := fun _ => Or.inr ⟨rfl, h.separated.2.1⟩

/-- What is kept of a scheme is the text of the pruned one. -/
theorem exists_pruned
    (s : Scheme)
    (h : s.Leads line before touching behind free skip lead) :
    ∃ pruned : Scheme,
      pruned.Separated touching ∧ (behind = true → ¬ pruned.StartsSemicolon) ∧
      pruned.render = lead ++ (s.segments line skip).kept ∧
      Pruned free s pruned := by
  induction s generalizing line before touching behind free skip lead with
  | done gap =>
      refine ⟨.done h.keptGap, trivial, fun _ => id, ?_, .done⟩
      simp [render, segments, Segments.kept, Leads.keptGap, firstGap]
  | token gap tok rest ih =>
      obtain ⟨hne, hslash, hname, hsep⟩ := h.separated
      obtain ⟨pruned, hsepRest, -, hrender, hpruned⟩ := ih (leads_token hsep)
      have hname' := fun hn hopens => hname hn (hpruned.opensMessage hsep hopens)
      refine ⟨.token h.keptGap tok pruned, ⟨?_, fun hs => h.kept (hslash hs), hname', hsepRest⟩,
        ?_, ?_, .token ?_ hpruned⟩
      · intro htouching hwordy
        exact h.keptGap_ne_nil htouching fun hbefore => hne hbefore hwordy
      · rintro hbehind ⟨hempty, rfl⟩
        rcases h.behind hbehind with hlead | ⟨hzero, hnot⟩
        · simp [Leads.keptGap, hlead] at hempty
        · refine hnot ⟨?_, rfl⟩
          simpa [Leads.keptGap, hzero, firstGap] using (List.append_eq_nil_iff.mp hempty).2
      · simp [render, segments, Segments.kept, Leads.keptGap, firstGap, hrender]
      · intro hfree
        obtain ⟨rfl, rfl⟩ := h.unchanged hfree
        rfl
  | message gap opening inner semicolon rest ihInner ihRest =>
      obtain ⟨hne, hsemicolon, hcompletes, hsepInner, hsep⟩ := h.separated
      by_cases hgoes : Goes opening inner
      · by_cases hline : line = true ∨ '\n' ∈ gap.text
        · obtain ⟨pruned, hsepRest, hstarts, hrender, hpruned⟩ :=
            ihRest (h.goesWithLine hline)
          refine ⟨pruned, hsepRest, hstarts, ?_, .gone hgoes hpruned⟩
          rw [hrender, segments, if_pos hgoes, if_pos hline]
          simp [Segments.kept, hgoes.2]
        · obtain ⟨pruned, hsepRest, hstarts, hrender, hpruned⟩ := ihRest (h.goesAlone hgoes.1)
          refine ⟨pruned, hsepRest, hstarts, ?_, .gone hgoes hpruned⟩
          rw [hrender, segments, if_pos hgoes, if_neg hline]
          simp [Segments.kept, hgoes.2, Leads.keptGap, firstGap]
      · obtain ⟨inner', hsepInner', -, hrenderInner, hprunedInner⟩ :=
          ihInner (@leads_brace false inner hsepInner (fun h => by cases h))
        obtain ⟨rest', hsepRest, hstarts, hrenderRest, hprunedRest⟩ :=
          ihRest (@leads_brace true rest hsep (fun _ => hsemicolon))
        have hcompletes' := hprunedRest.not_completes hsep hcompletes
        refine ⟨.message h.keptGap opening inner' semicolon rest',
          ⟨?_, hstarts rfl, hcompletes', hsepInner', hsepRest⟩, fun _ => id, ?_,
          .stays hgoes hprunedInner hprunedRest⟩
        · intro htouching hopening
          exact h.keptGap_ne_nil htouching fun hbefore => hne hbefore hopening
        · rw [segments, if_neg hgoes]
          simp [render, Segments.kept, Leads.keptGap, firstGap, hrenderInner, hrenderRest]

end Cutting

end Scheme

section Rewriting

/-- A comment on the last line of a text needs no end of line. -/
def IsEnding (ending : Str) : Prop :=
  ending = [] ∨ ∃ line, '\n' ∉ line ∧ ending = '#' :: line

variable {s : Scheme} {ending : Str}

theorem IsEnding.ends
    (h : IsEnding ending) :
    Ends ending := by
  rcases h with rfl | ⟨line, -, rfl⟩
  · exact ends_nil
  · intro c hc
    cases hc
    exact Or.inr rfl

theorem findFrom_ending
    {text : Str} {i limit : Nat}
    (hending : IsEnding ending)
    (h : slice text i limit = ending) :
    findFrom text limit i 0 = .ok [] := by
  rcases hending with rfl | ⟨line, hline, rfl⟩
  · exact findFrom_nil h
  · have hhash : '\n' ∉ '#' :: line := by simpa using hline
    have hskip : skipOpaque text i limit '#' = some (.ok limit) := by
      unfold skipOpaque
      rw [if_neg (by decide), if_pos rfl, skipLine_end hhash h]
    have hpass := (findFrom_passes text limit 0).skip i '#' _ (peek_of_cons h) hskip
    rw [hpass]
    exact findFrom_nil (by rw [slice_eq_take, Nat.sub_self, List.take_zero])

/-- The finder on the text of a scheme. -/
theorem findAttributeBlocks_scheme
    (hs : s.Separated false)
    (hending : IsEnding ending) :
    (s.Legible → ∃ found, s.Found true 0 0 found ∧
      findAttributeBlocks (s.render ++ ending) 0 (s.render ++ ending).length = .ok found) ∧
    (¬ s.Legible → ∃ e,
      findAttributeBlocks (s.render ++ ending) 0 (s.render ++ ending).length = .error e) := by
  have hslice := slice_whole (s.render ++ ending)
  have hscan := findFrom_scheme s true 0 0 hs (s.skips_zero true) (startsAt_zero _)
    hending.ends hending.ends hslice hslice
  constructor
  · intro hlegible
    obtain ⟨found, hfound, hrun⟩ := hscan.found hlegible
    rw [findFrom_ending hending (slice_after hslice)] at hrun
    refine ⟨found, hfound, ?_⟩
    rw [findAttributeBlocks, hrun]
    simp [Except.map]
  · exact hscan.raises

/-- Rewriting the text of a scheme raises where a key cannot be read. -/
theorem rewriteDocumentScheme_scheme_error
    (hs : s.Separated false)
    (hending : IsEnding ending)
    (hlegible : ¬ s.Legible) :
    ∃ e, rewriteDocumentScheme (s.render ++ ending) = .error e := by
  obtain ⟨e, he⟩ := (findAttributeBlocks_scheme hs hending).2 hlegible
  exact ⟨e, by simp only [rewriteDocumentScheme, he, bind, Except.bind]⟩

/-- Without the document attribute there is nothing to rewrite. -/
theorem rewriteDocumentScheme_scheme_none
    (hs : s.Separated false)
    (hending : IsEnding ending)
    (hlegible : s.Legible)
    (hdocument : ¬ s.HasDocument) :
    rewriteDocumentScheme (s.render ++ ending) = .ok none := by
  obtain ⟨found, hfound, hfind⟩ := (findAttributeBlocks_scheme hs hending).1 hlegible
  have hany := Bool.eq_false_iff.mpr fun h => hdocument (hfound.document.mp h)
  unfold rewriteDocumentScheme
  simp only [hfind, bind, Except.bind, hany, Bool.not_false, if_true, pure, Except.pure]

/-- With the document attribute the outermost blocks that go are removed. -/
theorem rewriteDocumentScheme_scheme_some
    (hs : s.Separated false)
    (hending : IsEnding ending)
    (hlegible : s.Legible)
    (hdocument : s.HasDocument) :
    rewriteDocumentScheme (s.render ++ ending) =
      .ok (some ((s.segments true 0).kept ++ ending, s.removedNames)) := by
  obtain ⟨found, hfound, hfind⟩ := (findAttributeBlocks_scheme hs hending).1 hlegible
  have hsolid := s.solid_segments true 0
  have hblocks := hfound.document.mpr hdocument
  have hremovable : (found.filter AttrBlock.removable).any
      (fun block => block.key == some documentAttribute) = true := by
    obtain ⟨block, hblock, hkey⟩ := List.any_eq_true.mp hblocks
    exact List.any_eq_true.mpr
      ⟨block, List.mem_filter.mpr ⟨hblock, removable_of_document hkey⟩, hkey⟩
  have hchosen : chooseBlocks [] ((found.filter AttrBlock.removable).mergeSort spanLe) =
      .ok ((s.segments true 0).going 0) := by
    rw [hfound.removable]
    -- the blocks that go are their own removable ones
    have hall : ((s.segments true 0).blocks 0).filter AttrBlock.removable =
        (s.segments true 0).blocks 0 := by
      rw [← hfound.removable, List.filter_filter]
      simp
    rw [← hall]
    exact Segments.chooseBlocks_eq hsolid 0
  have hexcise : excise (s.render ++ ending) 0 ((s.segments true 0).going 0) =
      .ok ((s.segments true 0).kept ++ ending) := by
    have hwhole : slice (s.render ++ ending) 0 (s.render ++ ending).length =
        (s.segments true 0).text ++ ending := by
      rw [s.text_segments_zero, slice_whole]
    have h := Segments.excise_going (s.segments true 0) hsolid 0 [] hwhole (by simp)
    rw [List.append_nil, s.text_segments_zero] at h
    rw [h, excise, Nat.zero_add, List.drop_left]
    rfl
  -- the new text is that of the pruned scheme, where nothing goes
  obtain ⟨pruned, hsep, -, hrender, hpruned⟩ := s.exists_pruned
    (@Scheme.Leads.mk true false false false true 0 [] s hs (s.skips_zero true) .nil
      (fun h => by cases h) (fun _ => ⟨rfl, rfl⟩) id (fun h => by cases h) (fun h => by cases h))
  rw [List.nil_append] at hrender
  obtain ⟨left, hleft, hfindLeft⟩ :=
    (findAttributeBlocks_scheme hsep hending).1 (hpruned.legible hs hlegible)
  rw [hrender] at hfindLeft
  have hnone : left.any AttrBlock.removable = false := by
    have hfilter := hleft.removable
    rw [hpruned.blocks_eq_nil hs] at hfilter
    rw [List.any_eq_false]
    exact List.filter_eq_nil_iff.mp hfilter
  unfold rewriteDocumentScheme
  simp only [hfind, bind, Except.bind, hblocks, hremovable, Bool.not_true, Bool.false_eq_true,
    if_false, hchosen, hexcise, hfindLeft, hnone, pure, Except.pure, s.going_keys]

end Rewriting

end Backup
end YdbSnippets
