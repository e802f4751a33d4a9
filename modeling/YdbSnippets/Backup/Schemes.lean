import YdbSnippets.Backup.Layout

/-!
# Schemes as trees of tokens

A scheme text is a sequence of tokens with whitespace and comments between any
two of them.  Only braces nest.  What the scanners make of such a text is said
here on the tokens: which blocks they recognise, and which keys they read.
-/

namespace YdbSnippets
namespace Backup

open Python

section Tokens

/-- The whitespace of protobuf text: also vertical tabs and form feeds. -/
def isSpacing (c : Char) : Bool :=
  isWs c || c.toNat == 11 || c.toNat == 12

/-- What stands between two tokens. -/
structure Spacing where
  text : Str
  isFiller : IsFiller isSpacing text

/-- Nothing but what `_skip_ws` skips. -/
def Spacing.Plain (g : Spacing) : Prop :=
  ∀ c ∈ g.text, isWs c = true

instance (g : Spacing) : Decidable g.Plain :=
  List.decidableBAll (fun c => isWs c = true) g.text

/-- The punctuation of protobuf text, except for the braces. -/
def isSymbol (c : Char) : Bool :=
  ":;,.<>[]-/".toList.contains c

inductive Token
  | word (n : Name)
  | literal (l : Literal)
  | number (n : Number)
  | symbol (c : Char) (isSymbol : isSymbol c = true)

namespace Token

def render : Token → Str
  | word n => n.text
  | literal l => l.render
  | number n => n.text
  | symbol c _ => [c]

/-- Words and numbers may not touch each other. -/
def wordy : Token → Bool
  | word _ => true
  | number _ => true
  | _ => false

def colon : Token :=
  symbol ':' (by decide)

def semicolon : Token :=
  symbol ';' (by decide)

/-- The token is a colon or a literal: it belongs to a name before it. -/
def Completes : Token → Prop
  | literal _ => True
  | symbol c _ => c = ':'
  | _ => False

/-- The token is the given word. -/
def Names (w : Str) : Token → Prop
  | word n => n.text = w
  | _ => False

instance (w : Str) (t : Token) : Decidable (t.Names w) := by
  unfold Names
  cases t <;> exact inferInstance

end Token

/-- What stands between `attributes` and its brace. -/
inductive Ahead
  | spacing (between : Spacing)
  | colon (before after : Spacing)

def Ahead.render : Ahead → Str
  | .spacing between => between.text
  | .colon before after => before.text ++ ':' :: after.text

def Ahead.Plain : Ahead → Prop
  | .spacing between => between.Plain
  | .colon before after => before.Plain ∧ after.Plain

instance : (a : Ahead) → Decidable a.Plain
  | .spacing between => inferInstanceAs (Decidable between.Plain)
  | .colon before after => inferInstanceAs (Decidable (before.Plain ∧ after.Plain))

/-- How a message starts: an `attributes` block, or the brace of another one. -/
inductive Opening
  | brace
  | attributes (ahead : Ahead)

def Opening.render : Opening → Str
  | .brace => ['{']
  | .attributes ahead => attributesWord ++ (ahead.render ++ ['{'])

/-- The block finder looks for the brace behind blanks only. -/
def Opening.Seen : Opening → Prop
  | .brace => False
  | .attributes ahead => ahead.Plain

instance : (o : Opening) → Decidable o.Seen
  | .brace => inferInstanceAs (Decidable False)
  | .attributes ahead => inferInstanceAs (Decidable ahead.Plain)

/-- A scheme: tokens and messages, with what stands before each and at the end.
`semicolon` says that one follows the closing brace at once. -/
inductive Scheme
  | done (gap : Spacing)
  | token (gap : Spacing) (tok : Token) (rest : Scheme)
  | message (gap : Spacing) (opening : Opening) (inner : Scheme) (semicolon : Bool)
      (rest : Scheme)

end Tokens

namespace Scheme

section Texts

def render : Scheme → Str
  | done gap => gap.text
  | token gap tok rest => gap.text ++ (tok.render ++ rest.render)
  | message gap opening inner semicolon rest =>
      gap.text ++ (opening.render ++ (inner.render ++ (closing semicolon ++ rest.render)))

/-- A brace is the next token. -/
def OpensBrace : Scheme → Prop
  | message _ .brace _ _ _ => True
  | _ => False

/-- A brace is the next token, or the one behind a colon. -/
def OpensMessage : Scheme → Prop
  | token _ tok rest => tok = .colon ∧ rest.OpensBrace
  | s => s.OpensBrace

/-- The next token belongs to a name before it: a colon, a literal or a brace. -/
def Completes : Scheme → Prop
  | token _ tok _ => tok.Completes
  | message _ .brace _ _ _ => True
  | _ => False

/-- The text starts with a semicolon. -/
def StartsSemicolon : Scheme → Prop
  | token gap tok _ => gap.text = [] ∧ tok = .semicolon
  | _ => False

/-- Tokens that need it are kept apart; `touching` says that a word or a number
stands before.  A slash only stands behind one of these, every block behind
`attributes` is one of the tree, and a message is no name: no value follows it. -/
def Separated : Bool → Scheme → Prop
  | _, done _ => True
  | touching, token gap tok rest =>
      (touching = true → tok.wordy = true → gap.text ≠ []) ∧
        (tok.render = ['/'] → touching = true) ∧
        (tok.Names attributesWord → ¬ rest.OpensMessage) ∧ rest.Separated tok.wordy
  | touching, message gap opening inner _ rest =>
      (touching = true → opening ≠ .brace → gap.text ≠ []) ∧
        ¬ rest.StartsSemicolon ∧ ¬ rest.Completes ∧
        inner.Separated false ∧ rest.Separated false

end Texts

section Reading

/-- The literals that follow, up to the first one behind a comment. -/
def moreLiterals : Scheme → Option CodePoints
  | token gap (.literal l) rest =>
      if gap.Plain then do
        let part ← (decodeProtoString l.render).toOption
        let more ← rest.moreLiterals
        return part ++ more
      else some []
  | _ => some []

/-- At least one literal follows, and it is not behind a comment. -/
def literals : Scheme → Option CodePoints
  | token gap (.literal l) rest =>
      if gap.Plain then do
        let part ← (decodeProtoString l.render).toOption
        let more ← rest.moreLiterals
        return part ++ more
      else none
  | _ => none

/-- What is read behind the word `key`; `none` where this raises. -/
def readValue : Scheme → Option CodePoints
  | token gap (.symbol c h) rest =>
      if c = ':' ∧ gap.Plain then rest.literals else (token gap (.symbol c h) rest).literals
  | s => s.literals

/-- The values of the direct fields `key`. -/
def keyValues : Scheme → List (Option CodePoints)
  | done _ => []
  | token _ tok rest =>
      if tok.Names keyWord then rest.readValue :: rest.keyValues else rest.keyValues
  | message _ _ _ _ rest => rest.keyValues

/-- The key after these values were read one after another; `none` if one cannot
be read, or if there are several. -/
def keepKey : Option CodePoints → List (Option CodePoints) → Option (Option CodePoints)
  | key, [] => some key
  | none, some value :: rest => keepKey (some value) rest
  | _, _ => none

/-- The key of a block with these tokens. -/
def foundKey (inner : Scheme) : Option (Option CodePoints) :=
  keepKey none inner.keyValues

/-- The text of the key; a block without a key has the empty one. -/
def keyText (inner : Scheme) : CodePoints :=
  inner.foundKey.join.getD []

/-- The keys of all recognised blocks can be read. -/
def Legible : Scheme → Prop
  | done _ => True
  | token _ _ rest => rest.Legible
  | message _ opening inner _ rest =>
      (opening.Seen → inner.foundKey ≠ none) ∧ inner.Legible ∧ rest.Legible

/-- Some recognised block has the document attribute. -/
def HasDocument : Scheme → Prop
  | done _ => False
  | token _ _ rest => rest.HasDocument
  | message _ opening inner _ rest =>
      (opening.Seen ∧ inner.keyText = documentAttribute) ∨ inner.HasDocument ∨ rest.HasDocument

/-- A recognised block with a key of the Document API. -/
def Goes (opening : Opening) (inner : Scheme) : Prop :=
  opening.Seen ∧ attributeShouldGo inner.keyText = true

instance (opening : Opening) (inner : Scheme) : Decidable (Goes opening inner) := by
  unfold Goes
  exact inferInstance

/-- The keys of the outermost blocks that go. -/
def removedNames : Scheme → List CodePoints
  | done _ => []
  | token _ _ rest => rest.removedNames
  | message _ opening inner _ rest =>
      if Goes opening inner then inner.keyText :: rest.removedNames
      else inner.removedNames ++ rest.removedNames

end Reading

end Scheme

end Backup
end YdbSnippets
