import YdbSnippets.Python.Hex
import YdbSnippets.Text.Search
import Mathlib.Tactic.SplitIfs

/-!
# Scanning a scheme

`scheme.pb` is protobuf text.  The tool never builds a tree of it: it walks
over the characters, skips strings and comments and counts braces.  Positions
count characters, and a limit never exceeds the length of the text.
-/

namespace YdbSnippets
namespace Backup

open Python

/-- What the tool raises: `SchemeError`, `ValueError` of `chr`, an index out of
range, or an exception of the storage client. -/
inductive Failure
  | schemeError (message : String)
  | valueError
  | indexError
  | clientError
deriving DecidableEq, Repr

/-- A decoded string as Python holds it, surrogates included: a list of code
points. -/
abbrev CodePoints := List Nat

/-- A found `attributes` block: the span that goes with it, and its key. -/
structure AttrBlock where
  start : Nat
  stop : Nat
  key : Option CodePoints
deriving DecidableEq, Repr

section Characters

/-- `text[i:j]` -/
def slice (text : Str) (i j : Nat) : Str :=
  (text.take j).drop i

/-- The character at `i`, if `i` is below the limit. -/
def peek (text : Str) (limit i : Nat) : Option Char :=
  if i < limit then text[i]? else none

/-- A character of `" \t\r\n"`. -/
def isWs (c : Char) : Bool :=
  c == ' ' || c == '\t' || c == '\r' || c == '\n'

/-- A character of `" \t"`. -/
def isBlank (c : Char) : Bool :=
  c == ' ' || c == '\t'

def isQuote (c : Char) : Bool :=
  c == '"' || c == '\''

theorem isQuote_double :
    isQuote '"' = true := rfl

/-- A word starts with an ASCII letter or `_`. -/
def isWordStart (c : Char) : Bool :=
  c.isAlpha || c == '_'

/-- A word goes on with ASCII letters, digits and `_`. -/
def isWordPart (c : Char) : Bool :=
  c.isAlphanum || c == '_'

def isOctalDigit (c : Char) : Bool :=
  '0' ≤ c && c ≤ '7'

theorem lt_of_peek
    {text : Str} {limit i : Nat} {c : Char}
    (h : peek text limit i = some c) :
    i < limit := by
  unfold peek at h
  split at h
  · assumption
  · cases h

/-- Go on while the characters satisfy `p`. -/
def skipWhile (p : Char → Bool) (text : Str) (limit i : Nat) : Nat :=
  match _h : peek text limit i with
  | some c => if p c then skipWhile p text limit (i + 1) else i
  | none => i
termination_by limit - i
decreasing_by
  have := lt_of_peek _h
  omega

theorem le_skipWhile (p : Char → Bool) (text : Str) (limit i : Nat) :
    i ≤ skipWhile p text limit i := by
  fun_induction skipWhile with
  | case1 i c _ _ ih => omega
  | case2 => exact Nat.le_refl _
  | case3 => exact Nat.le_refl _

end Characters

section Skipping

/-- `_skip_ws` -/
def skipWs (text : Str) (i limit : Nat) : Nat :=
  skipWhile isWs text limit i

/-- The loop of `_skip_string`. -/
def skipStringFrom (text : Str) (quote : Char) (limit i : Nat) : Except Failure Nat :=
  match _h : peek text limit i with
  | none => .error (.schemeError "незакрытая строка в scheme.pb")
  | some c =>
      if c = '\\' then skipStringFrom text quote limit (i + 2)
      else if c = quote then .ok (i + 1)
      else skipStringFrom text quote limit (i + 1)
termination_by limit - i
decreasing_by
  all_goals
    have := lt_of_peek _h
    omega

/-- `_skip_string` -/
def skipString (text : Str) (i limit : Nat) : Except Failure Nat :=
  match text[i]? with
  | some quote => skipStringFrom text quote limit (i + 1)
  | none => .error .indexError

/-- `_skip_line`: the newline itself is not skipped. -/
def skipLine (text : Str) (i limit : Nat) : Nat :=
  match _h : peek text limit i with
  | none => limit
  | some c => if c = '\n' then i else skipLine text (i + 1) limit
termination_by limit - i
decreasing_by
  have := lt_of_peek _h
  omega

/-- How all three scanners treat a string or a comment at `i`: the position
after it, or `none` if there is neither. -/
def skipOpaque (text : Str) (i limit : Nat) (c : Char) : Option (Except Failure Nat) :=
  if isQuote c then some (skipString text i limit)
  else if c = '#' then some (.ok (skipLine text i limit))
  else if c = '/' && peek text limit (i + 1) == some '/' then
    some (.ok (skipLine text i limit))
  else none

theorem lt_of_skipStringFrom
    {text : Str} {quote : Char} {limit i j : Nat}
    (h : skipStringFrom text quote limit i = .ok j) :
    i < j ∧ j ≤ limit := by
  fun_induction skipStringFrom with
  | case1 => cases h
  | case2 i hpeek ih =>
      have := ih h
      omega
  | case3 i hpeek _ =>
      cases h
      have := lt_of_peek hpeek
      omega
  | case4 i c hpeek _ _ ih =>
      have := ih h
      omega

theorem lt_of_skipString
    {text : Str} {limit i j : Nat}
    (h : skipString text i limit = .ok j) :
    i < j ∧ j ≤ limit := by
  unfold skipString at h
  split at h
  · have := lt_of_skipStringFrom h
    omega
  · cases h

theorem skipLine_bounds
    (text : Str) {limit i : Nat}
    (h : i ≤ limit) :
    i ≤ skipLine text i limit ∧ skipLine text i limit ≤ limit := by
  fun_induction skipLine with
  | case1 => omega
  | case2 i hpeek =>
      have := lt_of_peek hpeek
      omega
  | case3 i c hpeek _ ih =>
      have := lt_of_peek hpeek
      have := ih this
      omega

/-- A comment that starts with another character than a newline is not empty. -/
theorem lt_skipLine
    {text : Str} {limit i : Nat} {c : Char}
    (hpeek : peek text limit i = some c) (hc : c ≠ '\n') :
    i < skipLine text i limit ∧ skipLine text i limit ≤ limit := by
  have hlt := lt_of_peek hpeek
  rw [skipLine]
  split
  · next hnone =>
      rw [hpeek] at hnone
      cases hnone
  · next d hd =>
      rw [hpeek] at hd
      cases hd
      rw [if_neg hc]
      have := skipLine_bounds text (i := i + 1) hlt
      omega

theorem lt_of_skipOpaque
    {text : Str} {limit i j : Nat} {c : Char}
    (hpeek : peek text limit i = some c)
    (h : skipOpaque text i limit c = some (.ok j)) :
    i < j ∧ j ≤ limit := by
  unfold skipOpaque at h
  split_ifs at h with hquote hhash hslash
  · exact lt_of_skipString (Option.some.inj h)
  · cases h
    exact lt_skipLine hpeek (by simp [hhash])
  · cases h
    simp only [Bool.and_eq_true, decide_eq_true_eq] at hslash
    exact lt_skipLine hpeek (by simp [hslash.1])

end Skipping

section Literals

/-- The one-character escapes. -/
def simpleEscape : Char → Option Nat
  | 'n' => some 10
  | 'r' => some 13
  | 't' => some 9
  | '\\' => some 92
  | '\'' => some 39
  | '"' => some 34
  | 'a' => some 7
  | 'b' => some 8
  | 'f' => some 12
  | 'v' => some 11
  | '?' => some 63
  | _ => none

/-- `int(digits, base)` for digits of the base. -/
def digitsValue (base : Nat) (digits : Str) : Nat :=
  digits.foldl (fun n c => n * base + (hexValue c).getD 0) 0

/-- `chr(n)` -/
def chr (n : Nat) : Except Failure Nat :=
  if n < 0x110000 then .ok n else .error .valueError

/-- What stands after a backslash: the code point, and how many characters of
`rest` belong to the escape that starts with `esc`. -/
def decodeEscape (esc : Char) (rest : Str) : Except Failure (Nat × Nat) :=
  match simpleEscape esc with
  | some value => .ok (value, 0)
  | none =>
      if esc = 'x' then
        let hexDigits := rest.take 2
        if hexDigits.isEmpty || hexDigits.any (fun c => !isHexDigit c) then
          .error (.schemeError "некорректный \\x escape в scheme.pb")
        else
          (chr (digitsValue 16 hexDigits)).map (fun value => (value, hexDigits.length))
      else if isOctalDigit esc then
        let more := (rest.take 2).takeWhile isOctalDigit
        (chr (digitsValue 8 (esc :: more))).map (fun value => (value, more.length))
      else if esc = 'u' ∨ esc = 'U' then
        let width := if esc = 'u' then 4 else 8
        let hexDigits := rest.take width
        if hexDigits.length ≠ width || hexDigits.any (fun c => !isHexDigit c) then
          .error (.schemeError "некорректный unicode escape в scheme.pb")
        else
          (chr (digitsValue 16 hexDigits)).map (fun value => (value, width))
      else
        .error (.schemeError ("неизвестный escape \\" ++ String.singleton esc ++ " в scheme.pb"))

/-- The loop of `_decode_proto_string` over what stands between the quotes. -/
def decodeBody : Str → Except Failure CodePoints
  | [] => .ok []
  | c :: rest =>
      if c ≠ '\\' then do
        let out ← decodeBody rest
        return c.toNat :: out
      else
        match rest with
        | [] => .error (.schemeError "оборванный escape в scheme.pb")
        | esc :: rest => do
            let (value, used) ← decodeEscape esc rest
            let out ← decodeBody (rest.drop used)
            return value :: out
termination_by s => s.length
decreasing_by
  · simp
  · simp only [List.length_drop, List.length_cons]
    omega

/-- `_decode_proto_string` -/
def decodeProtoString (literal : Str) : Except Failure CodePoints :=
  match literal with
  | quote :: _ :: _ =>
      if isQuote quote ∧ literal.getLast? = some quote then
        decodeBody ((literal.drop 1).dropLast)
      else .error (.schemeError "некорректный строковый литерал в scheme.pb")
  | _ => .error (.schemeError "некорректный строковый литерал в scheme.pb")

/-- The loop of `_read_strings` over adjacent literals. -/
def readLiterals (text : Str) (limit i : Nat) : Except Failure (List CodePoints × Nat) :=
  match _h : peek text limit i with
  | none => .ok ([], i)
  | some c =>
      if isQuote c then
        match _hs : skipString text i limit with
        | .error e => .error e
        | .ok stop => do
            let part ← decodeProtoString (slice text i stop)
            let (parts, j) ← readLiterals text limit (skipWs text stop limit)
            return (part :: parts, j)
      else .ok ([], i)
termination_by limit - i
decreasing_by
  have hlt := lt_of_peek _h
  have hstop := lt_of_skipString _hs
  have hws := le_skipWhile isWs text limit stop
  unfold skipWs
  omega

/-- `_read_strings` -/
def readStrings (text : Str) (i limit : Nat) : Except Failure (Option CodePoints × Nat) := do
  let i := skipWs text i limit
  let i := if peek text limit i = some ':' then skipWs text (i + 1) limit else i
  let (parts, j) ← readLiterals text limit i
  if parts.isEmpty then return (none, j)
  return (some parts.flatten, j)

theorem le_of_readLiterals
    {text : Str} {limit i j : Nat} {parts : List CodePoints}
    (h : readLiterals text limit i = .ok (parts, j)) :
    i ≤ j := by
  fun_induction readLiterals generalizing parts j with
  | case1 => cases h; exact Nat.le_refl _
  | case2 => cases h
  | case3 i c hpeek hquote stop hstop ih =>
      cases hpart : decodeProtoString (slice text i stop) with
      | error e => simp [hpart, bind, Except.bind] at h
      | ok part =>
          cases hmore : readLiterals text limit (skipWs text stop limit) with
          | error e => simp [hpart, hmore, bind, Except.bind] at h
          | ok more =>
              simp only [hpart, hmore, bind, Except.bind, pure, Except.pure,
                Except.ok.injEq, Prod.mk.injEq] at h
              have hrest := @ih more.2 more.1 hmore
              have hlt := lt_of_skipString hstop
              have hws := le_skipWhile isWs text limit stop
              unfold skipWs at hrest
              omega
  | case4 => cases h; exact Nat.le_refl _

theorem le_of_readStrings
    {text : Str} {limit i j : Nat} {value : Option CodePoints}
    (h : readStrings text i limit = .ok (value, j)) :
    i ≤ j := by
  have hws := le_skipWhile isWs text limit
  have hstart : i ≤
      if peek text limit (skipWs text i limit) = some ':' then
        skipWs text (skipWs text i limit + 1) limit else skipWs text i limit := by
    have h1 := hws i
    have h2 := hws (skipWs text i limit + 1)
    unfold skipWs at h2 ⊢
    split_ifs <;> omega
  unfold readStrings at h
  cases hparts : readLiterals text limit
      (if peek text limit (skipWs text i limit) = some ':' then
        skipWs text (skipWs text i limit + 1) limit else skipWs text i limit) with
  | error e => simp [hparts, bind, Except.bind] at h
  | ok parts =>
      have hle := @le_of_readLiterals _ _ _ parts.2 parts.1 hparts
      simp only [hparts, bind, Except.bind, pure, Except.pure] at h
      split_ifs at h <;>
        · cases h
          omega

end Literals

end Backup
end YdbSnippets
