import LosslessTree.Trivia
import LosslessTree.Token.Kind

/-!
# Tokens

A token is a piece of source text of some kind, together with the trivia around it. Its full text is
leading trivia, text, trailing trivia, and its length is the length of that full text, so the full
texts of the tokens of a file concatenate to the file.

## Main definitions

* `Token`, with the constructors `Token.plain`, `Token.identifier`, `Token.punctuation` and
  `Token.ofLiteral`.
* `Token.withText`, `Token.withLeading`, `Token.withTrailing`: one part replaced.
* `Token.fullText`, `Token.byteLen`: the text with trivia, and its length if that fits a word.
-/

namespace LosslessTree

/-- A token with the trivia around it. -/
structure Token where
  kind : TokenKind
  text : String
  leading : Trivia := {}
  trailing : Trivia := {}
  deriving DecidableEq, Repr

namespace Token

/-- A token without trivia. -/
def plain (kind : TokenKind) (text : String) : Token :=
  { kind, text }

/-- An identifier without trivia. -/
def identifier (text : String) : Token :=
  plain .identifier text

/-- A punctuation mark with its canonical text; for the kind of identifiers the text is empty. -/
def punctuation (kind : TokenKind) : Token :=
  plain kind (kind.canonicalText?.getD "")

/-- The token that a literal stands for: seven punctuation marks stand for themselves, and every
other literal, a square bracket included, is an identifier. -/
def ofLiteral : String → Token
  | "." => punctuation .dot
  | ":" => punctuation .colon
  | ";" => punctuation .semicolon
  | "," => punctuation .comma
  | "<" => punctuation .less
  | ">" => punctuation .greater
  | "=" => punctuation .equals
  | text => identifier text

/-- The same token with another text. -/
def withText (token : Token) (text : String) : Token :=
  { token with text }

/-- The same token with other trivia in front. -/
def withLeading (token : Token) (leading : Trivia) : Token :=
  { token with leading }

/-- The same token with other trivia behind. -/
def withTrailing (token : Token) (trailing : Trivia) : Token :=
  { token with trailing }

/-- The text of a token with its trivia. -/
def fullText (token : Token) : String :=
  token.leading.text ++ token.text ++ token.trailing.text

/-- The length of the text in bytes, trivia not included. -/
def textLen (token : Token) : Nat :=
  token.text.utf8ByteSize

/-- The length of a token in bytes with its trivia, added up from left to right. -/
def byteLen (token : Token) : Except Overflow Nat := do
  let front ← checkedAdd (← token.leading.byteLen) token.textLen
  checkedAdd front (← token.trailing.byteLen)

end Token

end LosslessTree
