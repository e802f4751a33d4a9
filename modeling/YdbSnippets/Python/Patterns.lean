import YdbSnippets.Python.Text
import YdbSnippets.Text.Search

/-!
# Literal texts in regular expressions

The patterns of the scripts are made of literal texts, compared without regard
to case, and of runs of white space.
-/

namespace YdbSnippets
namespace Python

open Text

section Patterns

/-- How `re.IGNORECASE` reads a character before it compares it with an ASCII
letter: four letters outside ASCII are taken for one. -/
def foldCase (c : Char) : Char :=
  if c.toNat = 0x130 ∨ c.toNat = 0x131 then 'i'
  else if c.toNat = 0x17f then 's'
  else if c.toNat = 0x212a then 'k'
  else asciiLower c

/-- The text after `literal`, if it stands here in any case. -/
def afterLiteral : Str → Str → Option Str
  | [], text => some text
  | _ :: _, [] => none
  | l :: literal, c :: text =>
      if foldCase c = foldCase l then afterLiteral literal text else none

/-- The texts before and after the first occurrence of `literal` in any case. -/
def splitAtLiteral (literal : Str) : Str → Option (Str × Str)
  | [] => (afterLiteral literal []).map fun rest => ([], rest)
  | c :: text =>
      match afterLiteral literal (c :: text) with
      | some rest => some ([], rest)
      | none => (splitAtLiteral literal text).map fun parts => (c :: parts.1, parts.2)

/-- `re.search(re.escape(literal), text, re.I)` -/
def containsLiteral (literal text : Str) : Bool :=
  (splitAtLiteral literal text).isSome

/-- The text after `\s*`. -/
def skipSpaces (text : Str) : Str :=
  text.dropWhile isSpace

end Patterns

end Python
end YdbSnippets
