import YdbSnippets.Backup.Blocks
import YdbSnippets.Lists.Matching

/-!
# The errors of a scan

A scan of a scheme raises errors about braces, about spans, and about the strings and
keys that it reads.  Reading a string or a key raises only errors of the last kind.
-/

namespace YdbSnippets
namespace Backup

open Python

section Definitions

/-- The two errors about braces that do not match. -/
def Unbalanced (e : Failure) : Prop :=
  e = .schemeError "лишняя '\x7d' в scheme.pb" ∨ e = .schemeError "незакрытый блок в scheme.pb"

/-- The error about spans that overlap. -/
def Overlapping (e : Failure) : Prop :=
  e = .schemeError "перекрывающиеся блоки attributes в scheme.pb"

instance (e : Failure) : Decidable (Unbalanced e) :=
  inferInstanceAs (Decidable (_ ∨ _))

instance (e : Failure) : Decidable (Overlapping e) :=
  inferInstanceAs (Decidable (_ = _))

/-- An error about a string or a key: about no brace and no span. -/
def Lexical (e : Failure) : Prop :=
  ¬ Unbalanced e ∧ ¬ Overlapping e

instance (e : Failure) : Decidable (Lexical e) :=
  inferInstanceAs (Decidable (_ ∧ _))

end Definitions

section Failures

variable {text : Str} {limit i : Nat} {e : Failure}

theorem lexical_of_skipStringFrom
    {quote : Char} (h : skipStringFrom text quote limit i = .error e) :
    Lexical e := by
  fun_induction skipStringFrom with
  | case1 =>
      cases h
      decide
  | case2 i hpeek ih => exact ih h
  | case3 => cases h
  | case4 i c hpeek _ _ ih => exact ih h

theorem lexical_of_skipString
    (h : skipString text i limit = .error e) :
    Lexical e := by
  unfold skipString at h
  split at h
  · exact lexical_of_skipStringFrom h
  · cases h
    decide

theorem lexical_of_skipOpaque
    {c : Char} (h : skipOpaque text i limit c = some (.error e)) :
    Lexical e := by
  unfold skipOpaque at h
  split_ifs at h
  · exact lexical_of_skipString (Option.some.inj h)
  · cases Option.some.inj h
  · cases Option.some.inj h

theorem lexical_of_chr
    {n : Nat} (h : chr n = .error e) :
    Lexical e := by
  unfold chr at h
  split_ifs at h
  cases h
  decide

theorem lexical_of_map
    {α β : Type} {f : α → β} {x : Except Failure α} (hx : x = .error e → Lexical e)
    (h : x.map f = .error e) :
    Lexical e := by
  cases x with
  | error e' =>
      refine hx ?_
      cases h
      rfl
  | ok a => cases h

theorem lexical_of_unknown_escape (esc : Char) :
    Lexical (.schemeError
      ("неизвестный escape \\" ++ String.singleton esc ++ " в scheme.pb")) := by
  -- the third character tells it from the other messages
  have hne : ∀ m : String, m.toList[2]? ≠ some 'и' →
      (Failure.schemeError
        ("неизвестный escape \\" ++ String.singleton esc ++ " в scheme.pb")) ≠ .schemeError m := by
    intro m hm heq
    refine hm ?_
    rw [← Failure.schemeError.inj heq, String.toList_append, String.toList_append]
    simp
  refine ⟨?_, hne _ (by decide)⟩
  rintro (h | h)
  · exact hne _ (by decide) h
  · exact hne _ (by decide) h

theorem lexical_of_decodeEscape
    {esc : Char} {rest : Str} (h : decodeEscape esc rest = .error e) :
    Lexical e := by
  unfold decodeEscape at h
  split at h
  · cases h
  · simp only at h
    split_ifs at h with hx hbad hoctal hunicode hwidth hbad'
    · cases h
      decide
    · exact lexical_of_map lexical_of_chr h
    · exact lexical_of_map lexical_of_chr h
    · cases h
      decide
    · exact lexical_of_map lexical_of_chr h
    · cases h
      decide
    · exact lexical_of_map lexical_of_chr h
    · cases h
      exact lexical_of_unknown_escape esc

theorem lexical_of_decodeBody
    {s : Str} (h : decodeBody s = .error e) :
    Lexical e := by
  fun_induction decodeBody with
  | case1 => cases h
  | case2 c rest hc ih =>
      rcases Matching.bind_error_iff.mp h with h | ⟨out, -, h⟩
      · exact ih h
      · cases h
  | case3 =>
      cases h
      decide
  | case4 c hc esc rest ih =>
      rcases Matching.bind_error_iff.mp h with h | ⟨⟨value, used⟩, -, h⟩
      · exact lexical_of_decodeEscape h
      · rcases Matching.bind_error_iff.mp h with h | ⟨out, -, h⟩
        · exact ih used h
        · cases h

theorem lexical_of_decodeProtoString
    {literal : Str} (h : decodeProtoString literal = .error e) :
    Lexical e := by
  unfold decodeProtoString at h
  split at h
  · split_ifs at h
    · exact lexical_of_decodeBody h
    · cases h
      decide
  · cases h
    decide

theorem lexical_of_readLiterals
    (h : readLiterals text limit i = .error e) :
    Lexical e := by
  fun_induction readLiterals with
  | case1 => cases h
  | case2 i c hpeek hquote e' hskip =>
      cases h
      exact lexical_of_skipString hskip
  | case3 i c hpeek hquote stop hstop ih =>
      rcases Matching.bind_error_iff.mp h with h | ⟨part, -, h⟩
      · exact lexical_of_decodeProtoString h
      · rcases Matching.bind_error_iff.mp h with h | ⟨⟨parts, j⟩, -, h⟩
        · exact ih h
        · cases h
  | case4 => cases h

theorem lexical_of_readStrings
    (h : readStrings text i limit = .error e) :
    Lexical e := by
  unfold readStrings at h
  rcases Matching.bind_error_iff.mp h with h | ⟨⟨parts, j⟩, -, h⟩
  · exact lexical_of_readLiterals h
  · simp only at h
    split_ifs at h <;> cases h

theorem lexical_of_extractKey
    {start : Nat} (h : extractKey text start limit = .error e) :
    Lexical e := by
  unfold extractKey at h
  revert h
  generalize (0 : Int) = depth, (none : Option CodePoints) = key
  intro h
  fun_induction extractKeyFrom with
  | case1 => cases h
  | case2 i depth key c hpeek e' hskip =>
      cases h
      exact lexical_of_skipOpaque hskip
  | case3 i depth key c hpeek j hskip ih => exact ih h
  | case4 i depth key hpeek hskip ih => exact ih h
  | case5 i depth key hpeek hskip _ ih => exact ih h
  | case6 i depth key c hpeek hskip _ _ hword stop hkey e' hread =>
      cases h
      exact lexical_of_readStrings hread
  | case7 =>
      cases h
      decide
  | case8 =>
      cases h
      decide
  | case9 i depth key c hpeek hskip _ _ hword stop hkey value j hread hnone ih => exact ih h
  | case10 i depth key c hpeek hskip _ _ hword stop hkey ih => exact ih h
  | case11 i depth key c hpeek hskip _ _ hword ih => exact ih h

theorem not_overlapping_of_scanMessageFrom
    {depth : Nat} (h : scanMessageFrom text limit i depth = .error e) :
    ¬ Overlapping e := by
  fun_induction scanMessageFrom with
  | case1 =>
      cases h
      decide
  | case2 i depth c hpeek e' hskip =>
      cases h
      exact (lexical_of_skipOpaque hskip).2
  | case3 i depth c hpeek j hskip ih => exact ih h
  | case4 i depth hpeek hskip ih => exact ih h
  | case5 => cases h
  | case6 i depth hpeek hskip _ _ ih => exact ih h
  | case7 i depth c hpeek hskip _ _ ih => exact ih h

theorem not_overlapping_of_scanMessage
    {openBrace : Nat} (h : scanMessage text openBrace limit = .error e) :
    ¬ Overlapping e := by
  unfold scanMessage at h
  split_ifs at h
  · exact not_overlapping_of_scanMessageFrom h
  · cases h
    decide

/-- The finder of the blocks never complains of spans. -/
theorem not_overlapping_of_findFrom
    {depth : Nat} (h : findFrom text limit i depth = .error e) :
    ¬ Overlapping e := by
  fun_induction findFrom with
  | case1 => cases h
  | case2 =>
      cases h
      decide
  | case3 limit i depth c hpeek e' hskip =>
      cases h
      exact (lexical_of_skipOpaque hskip).2
  | case4 limit i depth c hpeek j hskip ih => exact ih h
  | case5 limit i depth hpeek hskip ih => exact ih h
  | case6 =>
      cases h
      decide
  | case7 limit i depth hpeek hskip _ hdepth ih => exact ih h
  | case8 limit i depth c hpeek hskip _ _ hword stop hname hnone ih => exact ih h
  | case9 limit i depth c hpeek hskip _ _ hword stop hname brace hbrace e' hmessage =>
      cases h
      exact not_overlapping_of_scanMessage hmessage
  | case10 limit i depth c hpeek hskip _ _ hword stop hname brace hbrace close hmessage
      contentEnd ih ih' =>
      rcases Matching.bind_error_iff.mp h with h | ⟨key, -, h⟩
      · exact (lexical_of_extractKey h).2
      rcases Matching.bind_error_iff.mp h with h | ⟨nested, -, h⟩
      · exact ih h
      rcases Matching.bind_error_iff.mp h with h | ⟨rest, -, h⟩
      · exact ih' h
      · cases h
  | case11 limit i depth c hpeek hskip _ _ hword stop hname ih => exact ih h
  | case12 limit i depth c hpeek hskip _ _ hword ih => exact ih h

end Failures

end Backup
end YdbSnippets
