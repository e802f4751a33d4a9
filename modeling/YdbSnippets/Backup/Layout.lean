import YdbSnippets.Backup.Slices
import YdbSnippets.Backup.Blocks

/-!
# Scheme texts

A scheme text is a tree of fields with the layout it was written in.  Every
token carries the proof that it is spelled correctly; what is left to say of a
whole text is that no two words touch.
-/

namespace YdbSnippets
namespace Backup

open Python

section Tokens

/-- A letter or `_` and then letters, digits and `_`. -/
def IsWord (w : Str) : Prop :=
  ∃ c tail, w = c :: tail ∧ isWordStart c = true ∧ ∀ d ∈ tail, isWordPart d = true

theorem isWord_attributes : IsWord attributesWord :=
  ⟨'a', "ttributes".toList, rfl, rfl, List.all_eq_true.mp rfl⟩

theorem isWord_key : IsWord keyWord :=
  ⟨'k', "ey".toList, rfl, rfl, List.all_eq_true.mp rfl⟩

/-- The text is empty or goes on with a character that ends a word. -/
def EndsWord (rest : Str) : Prop :=
  ∀ c ∈ rest.head?, isWordPart c = false

/-- Spaces, tabs and line ends between two tokens. -/
structure Blank where
  text : Str
  isWs : ∀ c ∈ text, isWs c = true

/-- The name of a field, or a bare identifier. -/
structure Name where
  text : Str
  isWord : IsWord text

/-- A quoted literal. -/
structure Literal where
  quote : Char
  body : Str
  isQuote : isQuote quote = true
  closed : closedBody quote body = true

def Literal.render (l : Literal) : Str :=
  l.quote :: (l.body ++ [l.quote])

/-- A character of a number: digits, signs, the point, and the letters of
hexadecimal digits, exponents, suffixes, `inf` and `nan`. -/
def isNumberPart (c : Char) : Bool :=
  c.isDigit || "+-.abcdefxinABCDEFXIN".toList.contains c

/-- A number starts with a digit, a sign or the point. -/
structure Number where
  first : Char
  more : Str
  isFirst : (first.isDigit || "+-.".toList.contains first) = true
  isPart : ∀ c ∈ more, isNumberPart c = true

def Number.text (n : Number) : Str :=
  n.first :: n.more

theorem Number.isNumberPart_first (n : Number) :
    isNumberPart n.first = true := by
  have hfirst := n.isFirst
  simp only [Bool.or_eq_true, List.contains_eq_mem, decide_eq_true_eq] at hfirst
  simp only [isNumberPart, Bool.or_eq_true, List.contains_eq_mem, decide_eq_true_eq]
  refine hfirst.imp_right fun hmem => ?_
  exact @List.mem_append_left _ _ "+-.".toList "abcdefxinABCDEFXIN".toList hmem

/-- What stands between the name of a field and its value. -/
inductive Separator
  | blank (between : Blank)
  | colon (before after : Blank)

def Separator.render : Separator → Str
  | .blank between => between.text
  | .colon before after => before.text ++ ':' :: after.text

/-- The value of a field that is no message. -/
inductive Value
  | strings (first : Literal) (more : List (Blank × Literal))
  | number (n : Number)
  | identifier (n : Name)

/-- Adjacent literals after the first one. -/
def renderMore : List (Blank × Literal) → Str
  | [] => []
  | (between, literal) :: more => between.text ++ literal.render ++ renderMore more

def Value.render : Value → Str
  | .strings first more => first.render ++ renderMore more
  | .number n => n.text
  | .identifier n => n.text

/-- The literals of a string value. -/
def Value.literals? : Value → Option (List Literal)
  | .strings first more => some (first :: more.map Prod.snd)
  | _ => none

/-- A field that is no message. -/
structure Scalar where
  name : Name
  separator : Separator
  value : Value
  /-- Without a separator the value starts with a character that ends the name. -/
  apart : separator.render = [] → EndsWord value.render
  notKeyword : ∀ n, value = .identifier n → n.text ≠ keyWord ∧ n.text ≠ attributesWord

def Scalar.render (f : Scalar) : Str :=
  f.name.text ++ (f.separator.render ++ f.value.render)

/-- The last character of the field is part of a word. -/
def Scalar.endsInWord (f : Scalar) : Bool :=
  f.value.render.getLast?.any isWordPart

/-- The start of a message: its name and the opening brace. -/
structure Header where
  name : Name
  separator : Separator

def Header.render (h : Header) : Str :=
  h.name.text ++ (h.separator.render ++ ['{'])

/-- Characters of one kind, and comments that run to the end of their line. -/
inductive IsFiller (kind : Char → Bool) : Str → Prop
  | nil : IsFiller kind []
  | char {c : Char} {rest : Str} :
      kind c = true → IsFiller kind rest → IsFiller kind (c :: rest)
  | comment {line rest : Str} :
      '\n' ∉ line → IsFiller kind rest → IsFiller kind ('#' :: (line ++ '\n' :: rest))

/-- What may stand between two fields: blanks and comment lines. -/
inductive IsGap : Str → Prop
  | nil : IsGap []
  | ws {c : Char} {rest : Str} :
      isWs c = true → IsGap rest → IsGap (c :: rest)
  | comment {line rest : Str} :
      '\n' ∉ line → IsGap rest → IsGap ('#' :: (line ++ '\n' :: rest))

structure Gap where
  text : Str
  isGap : IsGap text

end Tokens

section Trees

/-- The closing brace of a message, and the `;` that may follow it at once. -/
def closing (semicolon : Bool) : Str :=
  if semicolon then ['}', ';'] else ['}']

/-- A tree of fields.  Every field keeps its text. -/
inductive Fields
  | nil
  | scalar (field : Scalar) (rest : Fields)
  | message (header : Header) (inner : Fields) (semicolon : Bool) (rest : Fields)

/-- A tree of fields with what stands before, between and after them. -/
inductive Body
  | done (gap : Gap)
  | scalar (gap : Gap) (field : Scalar) (rest : Body)
  | message (gap : Gap) (header : Header) (inner : Body) (semicolon : Bool) (rest : Body)

namespace Body

/-- The text of a tree in its layout. -/
def render : Body → Str
  | done gap => gap.text
  | scalar gap field rest => gap.text ++ (field.render ++ rest.render)
  | message gap header inner semicolon rest =>
      gap.text ++ (header.render ++ (inner.render ++ (closing semicolon ++ rest.render)))

/-- The tree without the layout. -/
def fields : Body → Fields
  | done _ => .nil
  | scalar _ field rest => .scalar field rest.fields
  | message _ header inner semicolon rest =>
      .message header inner.fields semicolon rest.fields

/-- No two words touch; `touching` says that the text before ends in a word. -/
def Separated : Bool → Body → Prop
  | _, done _ => True
  | touching, scalar gap field rest =>
      (touching = true → gap.text ≠ []) ∧ rest.Separated field.endsInWord
  | touching, message gap _ inner _ rest =>
      (touching = true → gap.text ≠ []) ∧ inner.Separated false ∧ rest.Separated false

end Body

/-- The text is a rendering of the tree. -/
def Renders (text : Str) (tree : Fields) : Prop :=
  ∃ body : Body, body.Separated false ∧ body.render = text ∧ body.fields = tree

end Trees

section Keys

/-- The escapes of protobuf text: the code point, and how many characters after
the one that follows the backslash belong to it. -/
def protoEscape (esc : Char) (rest : Str) : Option (Nat × Nat) :=
  match simpleEscape esc with
  | some value => some (value, 0)
  | none =>
      if esc = 'x' then
        -- one or two hexadecimal digits
        match (rest.take 2).takeWhile isHexDigit with
        | [] => none
        | digits => some (digitsValue 16 digits, digits.length)
      else if isOctalDigit esc then
        -- up to three octal digits
        let more := (rest.take 2).takeWhile isOctalDigit
        some (digitsValue 8 (esc :: more), more.length)
      else if esc = 'u' ∨ esc = 'U' then
        -- four or eight hexadecimal digits of a code point
        let width := if esc = 'u' then 4 else 8
        let digits := (rest.take width).takeWhile isHexDigit
        if digits.length = width ∧ digitsValue 16 digits < 0x110000 then
          some (digitsValue 16 digits, width)
        else none
      else none

/-- The string between two quotes, if all its escapes are ones of protobuf
text. -/
def protoDecode : Str → Option CodePoints
  | [] => some []
  | c :: rest =>
      if c ≠ '\\' then (protoDecode rest).map (c.toNat :: ·)
      else
        match rest with
        | [] => none
        | esc :: rest =>
            match protoEscape esc rest with
            | none => none
            | some (value, used) => (protoDecode (rest.drop used)).map (value :: ·)
termination_by s => s.length
decreasing_by
  · simp
  · simp only [List.length_drop, List.length_cons]
    omega

/-- The escape is a `\x` with one hexadecimal digit and another character
behind. -/
def isShortHex (esc : Char) (rest : Str) : Bool :=
  esc == 'x' &&
    match rest with
    | digit :: next :: _ => isHexDigit digit && !isHexDigit next
    | _ => false

/-- Some escape is a short hexadecimal one. -/
def hasShortHex : Str → Bool
  | [] => false
  | c :: rest =>
      if c ≠ '\\' then hasShortHex rest
      else
        match rest with
        | [] => false
        | esc :: rest => isShortHex esc rest || hasShortHex rest

/-- The string that adjacent literals stand for. -/
def decodeLiterals (literals : List Literal) : Option CodePoints :=
  (literals.mapM (fun l => protoDecode l.body)).map List.flatten

namespace Fields

/-- The direct fields `key`: the literals of each, if it is a string. -/
def keyFields : Fields → List (Option (List Literal))
  | nil => []
  | scalar field rest =>
      if field.name.text = keyWord then field.value.literals? :: rest.keyFields
      else rest.keyFields
  | message header _ _ rest =>
      if header.name.text = keyWord then none :: rest.keyFields else rest.keyFields

/-- The decoded key of an `attributes` block with these fields. -/
def decodedKey (fields : Fields) : Option CodePoints :=
  match fields.keyFields with
  | [some literals] => decodeLiterals literals
  | _ => none

/-- Every `attributes` block has exactly one direct field `key`, and it is a
string. -/
def Keyed : Fields → Prop
  | nil => True
  | scalar _ rest => rest.Keyed
  | message header inner _ rest =>
      (header.name.text = attributesWord → ∃ literals, inner.keyFields = [some literals]) ∧
        inner.Keyed ∧ rest.Keyed

/-- The decoded keys of the `attributes` blocks, at any depth. -/
def blockKeys : Fields → List (Option CodePoints)
  | nil => []
  | scalar _ rest => rest.blockKeys
  | message header inner _ rest =>
      if header.name.text = attributesWord then
        inner.decodedKey :: (inner.blockKeys ++ rest.blockKeys)
      else inner.blockKeys ++ rest.blockKeys

/-- The block goes: it is an `attributes` block with a key of the Document API. -/
def Goes (header : Header) (inner : Fields) : Prop :=
  header.name.text = attributesWord ∧ ∃ key ∈ inner.decodedKey, attributeShouldGo key = true

instance (header : Header) (inner : Fields) : Decidable (Goes header inner) := by
  unfold Goes
  exact inferInstance

/-- The tree without the blocks that go. -/
def prune : Fields → Fields
  | nil => nil
  | scalar field rest => scalar field rest.prune
  | message header inner semicolon rest =>
      if Goes header inner then rest.prune
      else message header inner.prune semicolon rest.prune

/-- The keys of the blocks that go, leaving out blocks inside of these. -/
def prunedKeys : Fields → List CodePoints
  | nil => []
  | scalar _ rest => rest.prunedKeys
  | message header inner _ rest =>
      if Goes header inner then inner.decodedKey.toList ++ rest.prunedKeys
      else inner.prunedKeys ++ rest.prunedKeys

/-- The literals of the keys of `attributes` blocks, at any depth. -/
def keyLiterals : Fields → List Literal
  | nil => []
  | scalar _ rest => rest.keyLiterals
  | message header inner _ rest =>
      if header.name.text = attributesWord then
        inner.keyFields.flatMap (fun literals => literals.getD []) ++
          (inner.keyLiterals ++ rest.keyLiterals)
      else inner.keyLiterals ++ rest.keyLiterals

end Fields

end Keys

end Backup
end YdbSnippets
