import YdbSnippets.Backup.Scanner

/-!
# What a scanner sees

A scanner at a position sees the slice from there to its limit.  The lemmas
here turn positions into what is left to read.
-/

namespace YdbSnippets
namespace Backup

open Python

section Slices

variable {text : Str} {i j limit : Nat}

theorem slice_eq_take (text : Str) (i j : Nat) :
    slice text i j = (text.drop i).take (j - i) := by
  unfold slice
  rw [List.drop_take]

theorem peek_eq_head? (text : Str) (limit i : Nat) :
    peek text limit i = (slice text i limit).head? := by
  unfold peek slice
  rw [List.head?_drop, List.getElem?_take]

theorem peek_of_cons
    {c : Char} {rest : Str}
    (h : slice text i limit = c :: rest) :
    peek text limit i = some c := by
  rw [peek_eq_head?, h]
  rfl

theorem peek_of_nil
    (h : slice text i limit = []) :
    peek text limit i = none := by
  rw [peek_eq_head?, h]
  rfl

/-- After the first part only the second one is left. -/
theorem slice_after
    {a b : Str}
    (h : slice text i limit = a ++ b) :
    slice text (i + a.length) limit = b := by
  unfold slice at h ⊢
  rw [← List.drop_drop, h, List.drop_left]

theorem slice_tail
    {c : Char} {rest : Str}
    (h : slice text i limit = c :: rest) :
    slice text (i + 1) limit = rest :=
  slice_after (a := [c]) h

/-- The first part by itself. -/
theorem slice_before
    {a b : Str}
    (h : slice text i limit = a ++ b) :
    slice text i (i + a.length) = a := by
  have hlength := congrArg List.length h
  rw [slice_eq_take] at h hlength ⊢
  rw [Nat.add_sub_cancel_left]
  rw [List.length_take, List.length_append] at hlength
  have hle : a.length ≤ limit - i := by omega
  have htake := congrArg (List.take a.length) h
  rw [List.take_take, Nat.min_eq_left hle, List.take_left] at htake
  exact htake

/-- A slice that is not empty ends at its limit. -/
theorem length_slice
    (hi : i ≤ limit) (hlimit : limit ≤ text.length) :
    i + (slice text i limit).length = limit := by
  rw [slice_eq_take, List.length_take, List.length_drop]
  omega

theorem slice_whole (text : Str) :
    slice text 0 text.length = text := by
  simp [slice]

end Slices

section Skipping

variable {text : Str} {i limit : Nat}

/-- Characters that satisfy the test are skipped up to one that does not. -/
theorem skipWhile_eq
    {p : Char → Bool} {a b : Str}
    (h : slice text i limit = a ++ b)
    (ha : ∀ c ∈ a, p c = true)
    (hb : ∀ c ∈ b.head?, p c = false) :
    skipWhile p text limit i = i + a.length := by
  induction a generalizing i with
  | nil =>
      rw [skipWhile]
      split
      · next c hc =>
          rw [peek_eq_head?, h] at hc
          rw [if_neg (by simp [hb c hc])]
          rfl
      · rfl
  | cons c a ih =>
      rw [skipWhile]
      split
      · next d hd =>
          rw [peek_of_cons h] at hd
          cases hd
          rw [if_pos (ha c List.mem_cons_self),
            ih (slice_tail h) (fun c hc => ha c (List.mem_cons_of_mem _ hc)),
            List.length_cons]
          omega
      · next hnone =>
          rw [peek_of_cons h] at hnone
          cases hnone

/-- What may stand between two quotes: a backslash takes the next character
with it, and the quote itself stands only after one. -/
def closedBody (quote : Char) : Str → Bool
  | [] => true
  | c :: rest =>
      if c = '\\' then
        match rest with
        | [] => false
        | _ :: rest => closedBody quote rest
      else c != quote && closedBody quote rest

theorem skipStringFrom_eq
    {quote : Char} {body rest : Str}
    (hquote : isQuote quote = true)
    (hbody : closedBody quote body = true)
    (h : slice text i limit = body ++ quote :: rest) :
    skipStringFrom text quote limit i = .ok (i + body.length + 1) := by
  have hne : quote ≠ '\\' := by
    rintro rfl
    simp [isQuote] at hquote
  -- one step of the loop at a character
  have hstep : ∀ i c rest, slice text i limit = c :: rest →
      skipStringFrom text quote limit i =
        if c = '\\' then skipStringFrom text quote limit (i + 2)
        else if c = quote then .ok (i + 1)
        else skipStringFrom text quote limit (i + 1) := by
    intro i c rest h
    rw [skipStringFrom]
    split
    · next hnone =>
        rw [peek_of_cons h] at hnone
        cases hnone
    · next d hd =>
        rw [peek_of_cons h] at hd
        cases hd
        rfl
  fun_induction closedBody quote body generalizing i with
  | case1 =>
      rw [hstep i quote rest h, if_neg hne, if_pos rfl]
      rfl
  | case2 => cases hbody
  | case3 d body ih =>
      rw [hstep i _ _ h, if_pos rfl]
      have hrest := slice_after (a := ['\\', d]) h
      rw [show i + 2 = i + ['\\', d].length from rfl, ih hbody hrest]
      simp only [List.length_cons, List.length_nil]
      congr 1
      omega
  | case4 c body hc ih =>
      simp only [Bool.and_eq_true, bne_iff_ne, ne_eq] at hbody
      rw [hstep i _ _ h, if_neg hc, if_neg hbody.1, ih hbody.2 (slice_tail h),
        List.length_cons]
      congr 1
      omega

/-- A literal is skipped up to its closing quote. -/
theorem skipString_eq
    {quote : Char} {body rest : Str}
    (hquote : isQuote quote = true)
    (hbody : closedBody quote body = true)
    (h : slice text i limit = quote :: (body ++ quote :: rest)) :
    skipString text i limit = .ok (i + (body.length + 2)) := by
  have hget : text[i]? = some quote := by
    have hpeek := peek_of_cons h
    unfold peek at hpeek
    split at hpeek
    · exact hpeek
    · cases hpeek
  unfold skipString
  rw [hget]
  dsimp only
  rw [skipStringFrom_eq hquote hbody (slice_tail h)]
  congr 1
  omega

/-- A comment is skipped up to the end of its line. -/
theorem skipLine_eq
    {line rest : Str}
    (hline : '\n' ∉ line)
    (h : slice text i limit = line ++ '\n' :: rest) :
    skipLine text i limit = i + line.length := by
  induction line generalizing i with
  | nil =>
      rw [skipLine]
      split
      · next hnone =>
          rw [peek_of_cons h] at hnone
          cases hnone
      · next c hc =>
          rw [peek_of_cons h] at hc
          cases hc
          rw [if_pos rfl]
          rfl
  | cons c line ih =>
      rw [skipLine]
      split
      · next hnone =>
          rw [peek_of_cons h] at hnone
          cases hnone
      · next d hd =>
          rw [peek_of_cons h] at hd
          cases hd
          simp only [List.mem_cons, not_or] at hline
          rw [if_neg (Ne.symm hline.1), ih hline.2 (slice_tail h), List.length_cons]
          omega

/-- A line without an end is skipped up to the limit. -/
theorem skipLine_end
    {line : Str}
    (hline : '\n' ∉ line)
    (h : slice text i limit = line) :
    skipLine text i limit = limit := by
  induction line generalizing i with
  | nil =>
      rw [skipLine]
      split
      · rfl
      · next c hc =>
          rw [peek_of_nil h] at hc
          cases hc
  | cons c line ih =>
      simp only [List.mem_cons, not_or] at hline
      rw [skipLine]
      split
      · rfl
      · next d hd =>
          rw [peek_of_cons h] at hd
          cases hd
          rw [if_neg (Ne.symm hline.1), ih hline.2 (slice_tail h)]

end Skipping

end Backup
end YdbSnippets
