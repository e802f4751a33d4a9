import YdbSnippets.Backup.SchemePruning

/-!
# Comments between the tokens of a scheme

What rewriting makes of a scheme text when whitespace and comments are added
between its tokens.  The scanners look over blanks only for three things: the
brace behind `attributes`, the first literal of a key, and the literals that
follow it.
-/

namespace YdbSnippets
namespace Backup

open Python

section Insertion

/-- Characters were only added to what stands between two tokens. -/
def Spacing.Extends (g g' : Spacing) : Prop :=
  g.text.Sublist g'.text

theorem Spacing.Extends.plain
    {g g' : Spacing} (h : g.Extends g') (hplain : g'.Plain) :
    g.Plain :=
  fun c hc => hplain c (h.subset hc)

theorem Spacing.Extends.ne_nil
    {g g' : Spacing} (h : g.Extends g') (hne : g.text ≠ []) :
    g'.text ≠ [] := by
  intro hnil
  rw [Spacing.Extends, hnil, List.sublist_nil] at h
  exact hne h

inductive Ahead.Inserted : Ahead → Ahead → Prop
  | spacing {g g' : Spacing} : g.Extends g' → Inserted (spacing g) (spacing g')
  | colon {g g' h h' : Spacing} :
      g.Extends g' → h.Extends h' → Inserted (colon g h) (colon g' h')

inductive Opening.Inserted : Opening → Opening → Prop
  | brace : Inserted brace brace
  | attributes {a a' : Ahead} : a.Inserted a' → Inserted (attributes a) (attributes a')

theorem Opening.Inserted.seen
    {o o' : Opening} (h : o.Inserted o') (hseen : o'.Seen) :
    o.Seen := by
  cases h with
  | brace => exact hseen
  | attributes hahead =>
      cases hahead with
      | spacing hg => exact hg.plain hseen
      | colon hg hh => exact ⟨hg.plain hseen.1, hh.plain hseen.2⟩

theorem Opening.Inserted.ne_brace
    {o o' : Opening} (h : o.Inserted o') (hne : o' ≠ .brace) :
    o ≠ .brace := by
  cases h with
  | brace => exact hne
  | attributes _ => simp

namespace Scheme

/-- The second scheme has the same tokens, with whitespace and comments added
between them; that may set a semicolon apart from its message. -/
inductive Inserted : Scheme → Scheme → Prop
  | done {g g' : Spacing} : g.Extends g' → Inserted (done g) (done g')
  | token {g g' : Spacing} {tok : Token} {rest rest' : Scheme} :
      g.Extends g' → Inserted rest rest' → Inserted (token g tok rest) (token g' tok rest')
  | message {g g' : Spacing} {o o' : Opening} {inner inner' rest rest' : Scheme}
      {semicolon : Bool} :
      g.Extends g' → o.Inserted o' → Inserted inner inner' → Inserted rest rest' →
        Inserted (message g o inner semicolon rest) (message g' o' inner' semicolon rest')
  | apart {g g' between : Spacing} {o o' : Opening} {inner inner' rest rest' : Scheme} :
      g.Extends g' → o.Inserted o' → Inserted inner inner' → between.text ≠ [] →
        Inserted rest rest' →
        Inserted (message g o inner true rest)
          (message g' o' inner' false (token between .semicolon rest'))

variable {s s' : Scheme} {touching : Bool}

theorem Inserted.completes
    (h : Inserted s s') (hs : s'.Completes) :
    s.Completes := by
  cases h with
  | done _ => exact hs
  | @token _ _ tok _ _ _ _ => cases tok <;> exact hs
  | message _ ho _ _ => cases ho <;> exact hs
  | apart _ ho _ _ _ => cases ho <;> exact hs

theorem Inserted.opensBrace
    (h : Inserted s s') (hs : s'.OpensBrace) :
    s.OpensBrace := by
  cases h with
  | done _ => exact hs
  | token _ _ => exact hs
  | message _ ho _ _ => cases ho <;> exact hs
  | apart _ ho _ _ _ => cases ho <;> exact hs

theorem Inserted.opensMessage
    (h : Inserted s s') (hs : s'.OpensMessage) :
    s.OpensMessage := by
  cases h with
  | done _ => exact hs
  | token _ hrest => exact ⟨hs.1, hrest.opensBrace hs.2⟩
  | message _ ho _ _ => cases ho <;> exact hs
  | apart _ ho _ _ _ => cases ho <;> exact hs

theorem Inserted.startsSemicolon
    (h : Inserted s s') (hs : s'.StartsSemicolon) :
    s.StartsSemicolon := by
  cases h with
  | done _ => exact hs
  | token hg _ =>
      refine ⟨?_, hs.2⟩
      by_contra hne
      exact hg.ne_nil hne hs.1
  | message _ _ _ _ => exact hs
  | apart _ _ _ _ _ => exact hs

/-- Added whitespace joins no tokens. -/
theorem Inserted.separated
    (h : Inserted s s') (hs : s.Separated touching) :
    s'.Separated touching := by
  induction h generalizing touching with
  | done _ => trivial
  | token hg hrest ih =>
      obtain ⟨hne, hslash, hname, hsep⟩ := hs
      refine ⟨fun ht hw => hg.ne_nil (hne ht hw), hslash, ?_, ih hsep⟩
      exact fun hn hopens => hname hn (hrest.opensMessage hopens)
  | message hg ho _ hrest ihInner ihRest =>
      obtain ⟨hne, hsemicolon, hcompletes, hsepInner, hsep⟩ := hs
      refine ⟨fun ht hb => hg.ne_nil (hne ht (ho.ne_brace hb)), ?_, ?_, ihInner hsepInner,
        ihRest hsep⟩
      · exact fun hstarts => hsemicolon (hrest.startsSemicolon hstarts)
      · exact fun hc => hcompletes (hrest.completes hc)
  | apart hg ho _ hbetween hrest ihInner ihRest =>
      obtain ⟨hne, hsemicolon, hcompletes, hsepInner, hsep⟩ := hs
      refine ⟨fun ht hb => hg.ne_nil (hne ht (ho.ne_brace hb)), ?_, ?_, ihInner hsepInner,
        ?_⟩
      · exact fun hstarts => hbetween hstarts.1
      · exact fun hc => absurd hc (show ¬ ';' = ':' by decide)
      · refine ⟨nofun, fun hslash => ?_, fun hn => absurd hn id, ihRest hsep⟩
        exact absurd hslash (by decide)

end Scheme

end Insertion

section Reading

namespace Scheme

variable {s s' : Scheme}

/-- Only blanks stand before a value: before the colon, and behind it. -/
def Reached : Scheme → Prop
  | token gap (.symbol _ _) rest => gap.Plain ∧ rest.firstGap.Plain
  | s => s.firstGap.Plain

/-- The values of the direct fields `key` are reached. -/
def ValuesReached : Scheme → Prop
  | done _ => True
  | token _ tok rest => (tok.Names keyWord → rest.Reached) ∧ rest.ValuesReached
  | message _ _ _ _ rest => rest.ValuesReached

/-- The keys of all recognised blocks are reached. -/
def KeysReached : Scheme → Prop
  | done _ => True
  | token _ _ rest => rest.KeysReached
  | message _ opening inner _ rest =>
      (opening.Seen → inner.ValuesReached) ∧ inner.KeysReached ∧ rest.KeysReached

/-- Where literals can be read, fewer of them can. -/
theorem Inserted.moreLiterals
    (h : Inserted s s') (hs : s.moreLiterals ≠ none) :
    s'.moreLiterals ≠ none := by
  induction h with
  | done _ => simp [Scheme.moreLiterals]
  | @token g g' tok rest rest' hg _ ih =>
      cases tok with
      | literal l =>
          simp only [Scheme.moreLiterals] at hs ⊢
          by_cases hplain : g'.Plain
          · rw [if_pos (hg.plain hplain)] at hs
            rw [if_pos hplain]
            cases hpart : (decodeProtoString l.render).toOption with
            | none => simp [hpart] at hs
            | some part =>
                cases hmore : rest.moreLiterals with
                | none => simp [hpart, hmore] at hs
                | some more =>
                    obtain ⟨more', hmore'⟩ :=
                      Option.ne_none_iff_exists'.mp (ih (by simp [hmore]))
                    simp [hmore']
          · rw [if_neg hplain]
            simp
      | word n => exact hs
      | number n => exact hs
      | symbol c hc => exact hs
  | message _ _ _ _ _ _ => simp [Scheme.moreLiterals]
  | apart _ _ _ _ _ _ _ => simp [Scheme.moreLiterals]

theorem Inserted.literals
    (h : Inserted s s') (hs : s.literals ≠ none) :
    s'.literals ≠ none ↔ s'.firstGap.Plain := by
  cases h with
  | done _ => exact absurd rfl hs
  | message _ _ _ _ => exact absurd rfl hs
  | apart _ _ _ _ _ => exact absurd rfl hs
  | @token g g' tok rest rest' hg hrest =>
      cases tok with
      | word n => exact absurd rfl hs
      | number n => exact absurd rfl hs
      | symbol c hc => exact absurd rfl hs
      | literal l =>
          simp only [Scheme.literals, firstGap] at hs ⊢
          by_cases hplain : g'.Plain
          · rw [if_pos (hg.plain hplain)] at hs
            rw [if_pos hplain]
            refine ⟨fun _ => hplain, fun _ => ?_⟩
            cases hpart : (decodeProtoString l.render).toOption with
            | none => simp [hpart] at hs
            | some part =>
                cases hmore : rest.moreLiterals with
                | none => simp [hpart, hmore] at hs
                | some more =>
                    obtain ⟨more', hmore'⟩ :=
                      Option.ne_none_iff_exists'.mp (hrest.moreLiterals (by simp [hmore]))
                    simp [hmore']
          · rw [if_neg hplain]
            simp [hplain]

theorem Inserted.readValue
    (h : Inserted s s') (hs : s.readValue ≠ none) :
    s'.readValue ≠ none ↔ s'.Reached := by
  cases h with
  | done _ => exact absurd rfl hs
  | message _ _ _ _ => exact absurd rfl hs
  | apart _ _ _ _ _ => exact absurd rfl hs
  | @token g g' tok rest rest' hg hrest =>
      cases tok with
      | word n => exact absurd rfl hs
      | number n => exact absurd rfl hs
      | literal l => exact (@Inserted.token g g' (.literal l) rest rest' hg hrest).literals hs
      | symbol c hc =>
          simp only [Scheme.readValue, Scheme.Reached] at hs ⊢
          by_cases hcolon : c = ':' ∧ g'.Plain
          · rw [if_pos ⟨hcolon.1, hg.plain hcolon.2⟩] at hs
            rw [if_pos hcolon, hrest.literals hs]
            simp [hcolon.2]
          · rw [if_neg hcolon]
            -- without a colon nothing is read, so it is the blanks that are missing
            have hc' : c = ':' := by
              by_contra hne
              rw [if_neg fun h => hne h.1] at hs
              exact hs rfl
            have hnot : ¬ g'.Plain := fun hplain => hcolon ⟨hc', hplain⟩
            simp [Scheme.literals, hnot]

theorem Inserted.length_keyValues
    (h : Inserted s s') :
    s'.keyValues.length = s.keyValues.length := by
  induction h with
  | done _ => rfl
  | token _ _ ih =>
      simp only [Scheme.keyValues]
      split_ifs <;> simp [ih]
  | message _ _ _ _ _ ih => exact ih
  | apart _ _ _ _ _ _ ih => exact ih

theorem Inserted.keyValues
    (h : Inserted s s')
    (hs : ∀ v ∈ s.keyValues, v ≠ none) :
    (∀ v ∈ s'.keyValues, v ≠ none) ↔ s'.ValuesReached := by
  induction h with
  | done _ => simp [Scheme.keyValues, ValuesReached]
  | @token g g' tok rest rest' _ hrest ih =>
      simp only [Scheme.keyValues, ValuesReached] at hs ⊢
      by_cases hname : tok.Names keyWord
      · rw [if_pos hname] at hs
        rw [if_pos hname, List.forall_mem_cons,
          hrest.readValue (hs _ List.mem_cons_self),
          ih fun v hv => hs v (List.mem_cons_of_mem _ hv)]
        simp [hname]
      · rw [if_neg hname] at hs
        rw [if_neg hname, ih hs]
        simp [hname]
  | message _ _ _ _ _ ih => exact ih hs
  | apart _ _ _ _ _ _ ih =>
      have hname : ¬ Token.semicolon.Names keyWord := id
      rw [Scheme.keyValues, Scheme.keyValues, if_neg hname, ih hs]
      simp [ValuesReached, hname]

/-- A key can be read if there is at most one, and a value of it. -/
theorem keepKey_ne_none_iff (values : List (Option CodePoints)) :
    keepKey none values ≠ none ↔ values.length ≤ 1 ∧ ∀ v ∈ values, v ≠ none := by
  match values with
  | [] => simp [keepKey]
  | [none] => simp [keepKey]
  | [some v] => simp [keepKey]
  | none :: _ :: _ => simp [keepKey]
  | some _ :: _ :: _ => simp [keepKey]

theorem Inserted.foundKey
    (h : Inserted s s') (hs : s.foundKey ≠ none) :
    s'.foundKey ≠ none ↔ s'.ValuesReached := by
  unfold Scheme.foundKey at hs ⊢
  rw [keepKey_ne_none_iff] at hs ⊢
  rw [h.length_keyValues, h.keyValues hs.2]
  simp [hs.1]

/-- Where a scheme can be read, it can with more comments exactly if the keys
are still reached. -/
theorem Inserted.legible_iff
    (h : Inserted s s') (hs : s.Legible) :
    s'.Legible ↔ s'.KeysReached := by
  induction h with
  | done _ => exact Iff.rfl
  | token _ _ ih => exact ih hs
  | message _ ho hinner _ ihInner ihRest =>
      obtain ⟨hread, hlegibleInner, hlegibleRest⟩ := hs
      have hkey := fun hseen => hinner.foundKey (hread (ho.seen hseen))
      exact and_congr (forall_congr' hkey) (and_congr (ihInner hlegibleInner) (ihRest hlegibleRest))
  | apart _ ho hinner _ _ ihInner ihRest =>
      obtain ⟨hread, hlegibleInner, hlegibleRest⟩ := hs
      have hkey := fun hseen => hinner.foundKey (hread (ho.seen hseen))
      exact and_congr (forall_congr' hkey) (and_congr (ihInner hlegibleInner) (ihRest hlegibleRest))

/-- Only blanks stand before each of the literals that come next. -/
def LiteralsBare : Scheme → Prop
  | token gap (.literal _) rest => gap.Plain ∧ rest.LiteralsBare
  | _ => True

/-- Only blanks stand before the value that comes next, and between its literals. -/
def ValueBare : Scheme → Prop
  | token gap (.symbol c _) rest => c = ':' → gap.Plain ∧ rest.LiteralsBare
  | s => s.LiteralsBare

/-- So it is for the values of the direct fields `key`. -/
def ValuesBare : Scheme → Prop
  | done _ => True
  | token _ tok rest => (tok.Names keyWord → rest.ValueBare) ∧ rest.ValuesBare
  | message _ _ _ _ rest => rest.ValuesBare

/-- Only blanks stand where the scanners look over nothing else: between `attributes`
and its brace, before the value of the key of the block, and between its literals. -/
def Bare : Scheme → Prop
  | done _ => True
  | token _ _ rest => rest.Bare
  | message _ opening inner _ rest =>
      (opening ≠ .brace → opening.Seen ∧ inner.ValuesBare) ∧ inner.Bare ∧ rest.Bare

theorem Inserted.moreLiterals_eq
    (h : Inserted s s') (hs : s'.LiteralsBare) :
    s'.moreLiterals = s.moreLiterals := by
  induction h with
  | done _ => rfl
  | @token g g' tok rest rest' hg _ ih =>
      cases tok with
      | literal l =>
          rw [Scheme.moreLiterals, Scheme.moreLiterals, if_pos hs.1, if_pos (hg.plain hs.1),
            ih hs.2]
      | word n => rfl
      | number n => rfl
      | symbol c hc => rfl
  | message _ _ _ _ _ _ => rfl
  | apart _ _ _ _ _ _ _ => rfl

theorem Inserted.literals_eq
    (h : Inserted s s') (hs : s'.LiteralsBare) :
    s'.literals = s.literals := by
  cases h with
  | done _ => rfl
  | @token g g' tok rest rest' hg hrest =>
      cases tok with
      | literal l =>
          rw [Scheme.literals, Scheme.literals, if_pos hs.1, if_pos (hg.plain hs.1),
            hrest.moreLiterals_eq hs.2]
      | word n => rfl
      | number n => rfl
      | symbol c hc => rfl
  | message _ _ _ _ => rfl
  | apart _ _ _ _ _ => rfl

theorem Inserted.readValue_eq
    (h : Inserted s s') (hs : s'.ValueBare) :
    s'.readValue = s.readValue := by
  cases h with
  | done _ => rfl
  | @token g g' tok rest rest' hg hrest =>
      cases tok with
      | literal l => exact (@Inserted.token g g' (.literal l) rest rest' hg hrest).literals_eq hs
      | word n => rfl
      | number n => rfl
      | symbol c hc =>
          by_cases hcolon : c = ':'
          · obtain ⟨hplain, hbare⟩ := hs hcolon
            rw [Scheme.readValue, Scheme.readValue, if_pos ⟨hcolon, hplain⟩,
              if_pos ⟨hcolon, hg.plain hplain⟩, hrest.literals_eq hbare]
          · rw [Scheme.readValue, Scheme.readValue, if_neg fun h => hcolon h.1,
              if_neg fun h => hcolon h.1]
            rfl
  | message _ _ _ _ => rfl
  | apart _ _ _ _ _ => rfl

theorem Inserted.keyValues_eq
    (h : Inserted s s') (hs : s'.ValuesBare) :
    s'.keyValues = s.keyValues := by
  induction h with
  | done _ => rfl
  | token _ hrest ih =>
      rw [Scheme.keyValues, Scheme.keyValues, ih hs.2]
      split
      · next hname => rw [hrest.readValue_eq (hs.1 hname)]
      · rfl
  | message _ _ _ _ _ ih => exact ih hs
  | apart _ _ _ _ _ _ ih =>
      have hname : ¬ Token.semicolon.Names keyWord := id
      rw [Scheme.keyValues, Scheme.keyValues, if_neg hname, ih hs.2]
      rfl

theorem Inserted.foundKey_eq
    (h : Inserted s s') (hs : s'.ValuesBare) :
    s'.foundKey = s.foundKey := by
  rw [Scheme.foundKey, h.keyValues_eq hs, Scheme.foundKey]

theorem seen_iff_of_bare
    {o o' : Opening}
    {inner : Scheme} (h : o.Inserted o') (hbare : o' ≠ .brace → o'.Seen ∧ inner.ValuesBare) :
    o'.Seen ↔ o.Seen := by
  refine ⟨h.seen, fun hseen => ?_⟩
  cases h with
  | brace => exact hseen
  | attributes _ => exact (hbare (by simp)).1

/-- The key of a recognised block is found as before. -/
theorem Inserted.foundKey_of_bare
    {o o' : Opening} (ho : o.Inserted o')
    (h : Inserted s s') (hbare : o' ≠ .brace → o'.Seen ∧ s'.ValuesBare) (hseen : o.Seen) :
    s'.foundKey = s.foundKey := by
  cases ho with
  | brace => exact absurd hseen id
  | attributes _ => exact h.foundKey_eq (hbare (by simp)).2

/-- The finder makes the same of both schemes. -/
structure Agrees (s s' : Scheme) : Prop where
  legible : s'.Legible ↔ s.Legible
  document : s'.HasDocument ↔ s.HasDocument
  names : s'.removedNames = s.removedNames

theorem Agrees.message
    {g g' : Spacing} {o o' : Opening} {inner inner' rest rest' : Scheme}
    {semicolon semicolon' : Bool}
    (hseen : o'.Seen ↔ o.Seen)
    (hkey : o.Seen → inner'.foundKey = inner.foundKey)
    (hinner : inner.Agrees inner')
    (hrest : rest.Agrees rest') :
    (message g o inner semicolon rest).Agrees (message g' o' inner' semicolon' rest') := by
  by_cases ho : o.Seen
  · have htext : inner'.keyText = inner.keyText := by rw [keyText, hkey ho, keyText]
    have hgoes : Goes o' inner' ↔ Goes o inner := by rw [Goes, hseen, htext, Goes]
    constructor
    · rw [Legible, Legible, hseen, hkey ho, hinner.legible, hrest.legible]
    · rw [HasDocument, HasDocument, hseen, htext, hinner.document, hrest.document]
    · simp only [removedNames, hgoes, htext, hinner.names, hrest.names]
  · have hgoes : ¬ Goes o inner := fun h => ho h.1
    have hgoes' : ¬ Goes o' inner' := fun h => ho (hseen.mp h.1)
    constructor
    · rw [Legible, Legible, hseen, hinner.legible, hrest.legible]
      simp [ho]
    · rw [HasDocument, HasDocument, hseen, hinner.document, hrest.document]
      simp [ho]
    · simp only [removedNames, hgoes, hgoes', if_false, hinner.names, hrest.names]

/-- Away from the places where only blanks are skipped nothing changes. -/
theorem Inserted.agrees
    (h : Inserted s s') (hs : s'.Bare) :
    s.Agrees s' := by
  induction h with
  | done _ => exact ⟨Iff.rfl, Iff.rfl, rfl⟩
  | token _ _ ih =>
      have hrest := ih hs
      exact ⟨hrest.legible, hrest.document, hrest.names⟩
  | message _ ho hinner _ ihInner ihRest =>
      exact .message (seen_iff_of_bare ho hs.1) (hinner.foundKey_of_bare ho hs.1) (ihInner hs.2.1)
        (ihRest hs.2.2)
  | apart _ ho hinner _ _ ihInner ihRest =>
      have hrest := ihRest hs.2.2
      exact .message (seen_iff_of_bare ho hs.1) (hinner.foundKey_of_bare ho hs.1) (ihInner hs.2.1)
        ⟨hrest.legible, hrest.document, hrest.names⟩

end Scheme

end Reading

section Rewriting

variable {s s' : Scheme} {ending : Str}

/-- Where the first text is accepted, so is the second one, and the same names
are removed or neither is changed. -/
def SameRemoved (text text' : Str) : Prop :=
  ∀ out, rewriteDocumentScheme text = .ok out →
    ∃ out', rewriteDocumentScheme text' = .ok out' ∧ out'.map Prod.snd = out.map Prod.snd

/-- What rewriting the text of a scheme removes. -/
theorem rewriteDocumentScheme_names
    (hs : s.Separated false)
    (hending : IsEnding ending)
    (hlegible : s.Legible) :
    ∃ out, rewriteDocumentScheme (s.render ++ ending) = .ok out ∧
      (out.map Prod.snd = none ↔ ¬ s.HasDocument) ∧
      (s.HasDocument → out.map Prod.snd = some s.removedNames) := by
  by_cases hdocument : s.HasDocument
  · refine ⟨_, rewriteDocumentScheme_scheme_some hs hending hlegible hdocument, ?_, fun _ => rfl⟩
    simp [hdocument]
  · refine ⟨_, rewriteDocumentScheme_scheme_none hs hending hlegible hdocument, ?_, ?_⟩
    · simp [hdocument]
    · exact fun h => absurd h hdocument

theorem legible_of_accepted
    (hs : s.Separated false)
    (hending : IsEnding ending)
    {out : Option (Str × List CodePoints)}
    (hout : rewriteDocumentScheme (s.render ++ ending) = .ok out) :
    s.Legible := by
  by_contra hnot
  obtain ⟨e, he⟩ := rewriteDocumentScheme_scheme_error hs hending hnot
  rw [hout] at he
  cases he

/-- Adding whitespace and comments between the tokens of an accepted scheme changes
nothing if only blanks stand between `attributes` and its brace, before the value of the
key of such a block, and between the literals of that value.  It changes something if a
comment stands before the first literal of the key of a block that is recognised. -/
theorem same_removed_of_bare
    (s s' : Scheme) (ending : Str)
    (hs : s.Separated false)
    (hending : IsEnding ending)
    (hinserted : s.Inserted s')
    (haccepted : ∃ out, rewriteDocumentScheme (s.render ++ ending) = .ok out) :
    (s'.Bare → SameRemoved (s.render ++ ending) (s'.render ++ ending)) ∧
      (SameRemoved (s.render ++ ending) (s'.render ++ ending) → s'.KeysReached) := by
  obtain ⟨out, hout⟩ := haccepted
  have hlegible := legible_of_accepted hs hending hout
  have hs' := hinserted.separated hs
  constructor
  · intro hbare other hother
    rw [hout] at hother
    cases hother
    obtain ⟨hlegible', hdocument, hnames⟩ := hinserted.agrees hbare
    obtain ⟨out₀, hout₀, hnone, hsome⟩ := rewriteDocumentScheme_names hs hending hlegible
    rw [hout] at hout₀
    cases hout₀
    obtain ⟨out', hout', hnone', hsome'⟩ :=
      rewriteDocumentScheme_names hs' hending (hlegible'.mpr hlegible)
    refine ⟨out', hout', ?_⟩
    by_cases h : s.HasDocument
    · rw [hsome' (hdocument.mpr h), hsome h, hnames]
    · rw [hnone.mpr h, hnone'.mpr fun h' => h (hdocument.mp h')]
  · intro hsame
    obtain ⟨out', hout', -⟩ := hsame out hout
    exact (hinserted.legible_iff hlegible).mp (legible_of_accepted hs' hending hout')

/-- No space. -/
def noSpacing : Spacing :=
  ⟨[], .nil⟩

/-- A comment and the end of its line. -/
def commentLine : Spacing :=
  ⟨['#', '\n'], @IsFiller.comment isSpacing [] [] (by simp) .nil⟩

theorem noSpacing_extends (g : Spacing) :
    noSpacing.Extends g :=
  List.nil_sublist _

/-- The key of a document table. -/
def documentName : Literal :=
  ⟨'"', "__document_api_version".toList, isQuote_double, by decide +kernel⟩

/-- The fields of a block with the document attribute. -/
def documentKey : Scheme :=
  .token noSpacing (.word ⟨keyWord, isWord_key⟩)
    (.token noSpacing .colon (.token noSpacing (.literal documentName) (.done noSpacing)))

/-- A document table. -/
def documentScheme (before : Spacing) (ahead : Ahead) : Scheme :=
  .message before (.attributes ahead) documentKey false (.done noSpacing)

theorem documentScheme_separated (before : Spacing) (ahead : Ahead) :
    (documentScheme before ahead).Separated false := by
  have hkey : ¬ keyWord = ['/'] := by decide
  have hname : ¬ keyWord = attributesWord := by decide
  have hcolon : ¬ Token.colon.render = ['/'] := by decide
  have hliteral : ¬ documentName.render = ['/'] := by simp [Literal.render]
  have hopening : ¬ false = true := Bool.false_ne_true
  refine ⟨fun h => absurd h hopening, id, id,
    ⟨fun h => absurd h hopening, fun h => absurd h hkey, fun h => absurd h hname, ?_⟩, trivial⟩
  refine ⟨fun _ h => absurd h hopening, fun h => absurd h hcolon, fun h => absurd h id, ?_⟩
  exact ⟨fun h => absurd h hopening, fun h => absurd h hliteral, fun h => absurd h id, trivial⟩

theorem documentKey_foundKey :
    documentKey.foundKey = some (some documentAttribute) := by
  have hplain : noSpacing.Plain := by simp [Spacing.Plain, noSpacing]
  have hdecode : decodeProtoString documentName.render = .ok documentAttribute := by
    rw [decodeProtoString_eq, decodeBody_of_notMem (by simp [documentName])]
    rfl
  have hliterals : Scheme.literals
      (.token noSpacing (.literal documentName) (.done noSpacing)) = some documentAttribute := by
    rw [Scheme.literals, if_pos hplain, hdecode, Scheme.moreLiterals]
    · simp [Except.toOption]
    · rintro _ _ _ ⟨⟩
  have hvalue : Scheme.readValue
      (.token noSpacing .colon (.token noSpacing (.literal documentName) (.done noSpacing))) =
        some documentAttribute := by
    rw [Token.colon, Scheme.readValue, if_pos ⟨rfl, hplain⟩, hliterals]
  have hname : (Token.word ⟨keyWord, isWord_key⟩).Names keyWord := rfl
  have hcolon : ¬ Token.colon.Names keyWord := id
  have hliteral : ¬ (Token.literal documentName).Names keyWord := id
  rw [Scheme.foundKey, documentKey, Scheme.keyValues, if_pos hname, hvalue, Scheme.keyValues,
    if_neg hcolon, Scheme.keyValues, if_neg hliteral]
  rfl

theorem documentScheme_legible (before : Spacing) (ahead : Ahead) :
    (documentScheme before ahead).Legible := by
  refine ⟨fun _ => ?_, trivial, trivial⟩
  rw [documentKey_foundKey]
  exact Option.some_ne_none _

theorem documentScheme_hasDocument_iff (before : Spacing) (ahead : Ahead) :
    (documentScheme before ahead).HasDocument ↔ ahead.Plain := by
  have htext : documentKey.keyText = documentAttribute := Scheme.keyText_eq documentKey_foundKey
  have hinner : ¬ documentKey.HasDocument := id
  simp only [documentScheme, Scheme.HasDocument, htext, and_true, hinner, or_false, Opening.Seen]

theorem documentScheme_accepted (before : Spacing) (ahead : Ahead) :
    ∃ out, rewriteDocumentScheme ((documentScheme before ahead).render ++ []) = .ok out := by
  obtain ⟨out, hout, -⟩ := rewriteDocumentScheme_names (documentScheme_separated before ahead)
    (Or.inl rfl) (documentScheme_legible before ahead)
  exact ⟨out, hout⟩

/-- The document table with other whitespace. -/
theorem documentScheme_inserted
    {before before' : Spacing} {ahead ahead' : Ahead}
    (hbefore : before.Extends before') (hahead : ahead.Inserted ahead') :
    (documentScheme before ahead).Inserted (documentScheme before' ahead') :=
  .message hbefore (.attributes hahead)
    (.token (noSpacing_extends _) (.token (noSpacing_extends _)
      (.token (noSpacing_extends _) (.done (noSpacing_extends _)))))
    (.done (noSpacing_extends _))

/-- A comment before the block changes nothing. -/
theorem same_removed_comment_before_block :
    SameRemoved ((documentScheme noSpacing (.spacing noSpacing)).render ++ [])
      ((documentScheme commentLine (.spacing noSpacing)).render ++ []) := by
  have hplain : noSpacing.Plain := by simp [Spacing.Plain, noSpacing]
  refine (same_removed_of_bare _ _ [] (documentScheme_separated _ _) (Or.inl rfl)
    (documentScheme_inserted (noSpacing_extends _) (.spacing (noSpacing_extends _)))
    (documentScheme_accepted _ _)).1 ⟨fun _ => ⟨hplain, fun _ => fun _ => ⟨hplain, hplain, ?_⟩,
      ?_, ?_, trivial⟩, trivial, trivial⟩
  · trivial
  · intro h
    cases h
  · intro h
    cases h

/-- With a comment behind `attributes` a document table passes as an ordinary one. -/
theorem comment_hides_block :
    ¬ ∀ (s s' : Scheme) (ending : Str), s.Separated false → IsEnding ending → s.Inserted s' →
      SameRemoved (s.render ++ ending) (s'.render ++ ending) := by
  intro hclaim
  have hsame := hclaim (documentScheme noSpacing (.spacing noSpacing))
    (documentScheme noSpacing (.spacing commentLine)) [] (documentScheme_separated _ _)
    (Or.inl rfl)
    (documentScheme_inserted (noSpacing_extends _) (.spacing (noSpacing_extends _)))
  have hplain : noSpacing.Plain := by simp [Spacing.Plain, noSpacing]
  have hnot : ¬ commentLine.Plain := fun h => absurd (h '#' List.mem_cons_self) (by decide)
  have hempty : IsEnding [] := Or.inl rfl
  have hsome := rewriteDocumentScheme_scheme_some
    (documentScheme_separated noSpacing (.spacing noSpacing)) hempty
    (documentScheme_legible _ _) ((documentScheme_hasDocument_iff _ _).mpr hplain)
  have hnone := rewriteDocumentScheme_scheme_none
    (documentScheme_separated noSpacing (.spacing commentLine)) hempty
    (documentScheme_legible _ _) (fun h => hnot ((documentScheme_hasDocument_iff _ _).mp h))
  obtain ⟨out', hout', heq⟩ := hsame _ hsome
  rw [hnone] at hout'
  cases hout'
  cases heq

end Rewriting

end Backup
end YdbSnippets
