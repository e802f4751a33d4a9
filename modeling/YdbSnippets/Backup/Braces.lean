import YdbSnippets.Backup.Walking

/-!
# Matching braces

The brace matcher finds the brace that closes a message.
-/

namespace YdbSnippets
namespace Backup

open Python

section Words

variable {text : Str} {i limit : Nat}

/-- The end of a word. -/
theorem wordEnd_eq
    {w rest : Str}
    (hw : IsWord w) (hrest : EndsWord rest)
    (h : slice text i limit = w ++ rest) :
    wordEnd text i limit = i + w.length := by
  obtain ⟨c, tail, rfl, -, htail⟩ := hw
  unfold wordEnd
  rw [skipWhile_eq (slice_tail h) htail hrest, List.length_cons]
  omega

theorem peek_of_word
    {w rest : Str}
    (hw : IsWord w)
    (h : slice text i limit = w ++ rest) :
    ∃ c, peek text limit i = some c ∧ isWordStart c = true := by
  obtain ⟨c, tail, rfl, hstart, -⟩ := hw
  exact ⟨c, peek_of_cons h, hstart⟩

theorem skipOpaque_of_isWordPart
    {c : Char}
    (h : isWordPart c = true) :
    skipOpaque text i limit c = none := by
  obtain ⟨hquote, hhash, hslash, -, -⟩ := ne_of_isWordPart h
  exact skipOpaque_eq_none hquote hhash hslash

theorem isQuiet_iff
    {c : Char} :
    isQuiet c = true ↔
      isQuote c = false ∧ c ≠ '#' ∧ c ≠ '/' ∧ c ≠ '{' ∧ c ≠ '}' ∧ isWordStart c = false := by
  simp only [isQuiet, Bool.and_eq_true, Bool.not_eq_true', bne_iff_ne, ne_eq]
  tauto

end Words

section BraceMatcher

variable {text : Str} {i limit : Nat}

/-- One step of the brace matcher. -/
theorem scanMessageFrom_step
    {c : Char}
    (hc : peek text limit i = some c) (depth : Nat) :
    scanMessageFrom text limit i depth =
      match skipOpaque text i limit c with
      | some (.error e) => .error e
      | some (.ok j) => scanMessageFrom text limit j depth
      | none =>
          if c = '{' then scanMessageFrom text limit (i + 1) (depth + 1)
          else if c = '}' then
            if depth = 1 then .ok (i + 1) else scanMessageFrom text limit (i + 1) (depth - 1)
          else scanMessageFrom text limit (i + 1) depth := by
  rw [scanMessageFrom]
  split
  · next hnone =>
      rw [hc] at hnone
      cases hnone
  · next d hd =>
      rw [hc] at hd
      cases hd
      split <;> simp_all

theorem scanMessageFrom_other
    {c : Char}
    (hc : peek text limit i = some c) (depth : Nat)
    (hquote : isQuote c = false) (hhash : c ≠ '#') (hslash : c ≠ '/')
    (hopen : c ≠ '{') (hclose : c ≠ '}') :
    scanMessageFrom text limit i depth = scanMessageFrom text limit (i + 1) depth := by
  rw [scanMessageFrom_step hc, skipOpaque_eq_none hquote hhash hslash]
  simp only [if_neg hopen, if_neg hclose]

theorem scanMessageFrom_levels (text : Str) (limit : Nat) :
    Levels text limit 1 (fun d i => scanMessageFrom text limit i d) where
  passes d hd :=
    { skip := by
        intro i c j hc hskip
        simp only [scanMessageFrom_step hc, hskip]
      quiet := by
        intro i c hc hquiet
        obtain ⟨hquote, hhash, hslash, hopen, hclose, -⟩ := isQuiet_iff.mp hquiet
        exact scanMessageFrom_other hc d hquote hhash hslash hopen hclose
      word := by
        intro i w rest h hw _ _
        -- the matcher reads words character by character
        have hpart := hw.isWordPart
        clear hw
        induction w generalizing i with
        | nil => rfl
        | cons c w ih =>
            obtain ⟨hquote, hhash, hslash, hopen, hclose⟩ :=
              ne_of_isWordPart (hpart c List.mem_cons_self)
            have hrest := ih (i := i + 1) (slice_tail h)
              (fun d hd => hpart d (List.mem_cons_of_mem _ hd))
            rw [scanMessageFrom_other (peek_of_cons h) d hquote hhash hslash hopen hclose,
              hrest, List.length_cons]
            congr 1
            omega }
  opens := by
    intro d i hd hc
    simp only [scanMessageFrom_step hc, skipOpaque_eq_none (c := '{') (by decide) (by decide)
      (by decide), if_true]
  closes := by
    intro d i hd hc
    have hne : d + 1 ≠ 1 := by omega
    simp only [scanMessageFrom_step hc, skipOpaque_eq_none (c := '}') (by decide) (by decide)
      (by decide), if_neg (show '}' ≠ '{' by decide), if_true, if_neg hne,
      Nat.add_sub_cancel]

/-- The brace matcher finds the end of a message. -/
theorem scanMessage_eq
    {inner : Body} {rest : Str}
    (hinner : inner.Separated false)
    (h : slice text i limit = '{' :: (inner.render ++ '}' :: rest)) :
    scanMessage text i limit = .ok (i + (inner.render.length + 2)) := by
  have hbody := slice_tail h
  have hclose := slice_after hbody
  have hends : EndsWord ('}' :: rest) := endsWord_closing false rest
  have hpass := (scanMessageFrom_levels text limit).body inner (Nat.le_refl 1) hinner hends hbody
  unfold scanMessage
  rw [if_pos (peek_of_cons h), hpass, scanMessageFrom_step (peek_of_cons hclose)]
  simp only [skipOpaque_eq_none (c := '}') (by decide) (by decide) (by decide),
    if_neg (show '}' ≠ '{' by decide), if_true]
  congr 1
  omega

end BraceMatcher

end Backup
end YdbSnippets
