/-!
# Kinds of tokens

A token is an identifier or one of nine punctuation marks. An identifier is anything that names
something: a variable such as `r0` or `%this`, a qualified class name, a type such as `int[]`.

## Main definitions

* `TokenKind`, with `TokenKind.canonicalText?` and `TokenKind.describe`.
-/

namespace LosslessTree

/-- The kind of a token. -/
inductive TokenKind where
  | identifier
  | dot
  | colon
  | semicolon
  | comma
  | less
  | greater
  | leftSquare
  | rightSquare
  | equals
  deriving DecidableEq, Repr

namespace TokenKind

/-- The text of a punctuation mark; identifiers have no text of their own. -/
def canonicalText? : TokenKind → Option String
  | identifier => none
  | dot => some "."
  | colon => some ":"
  | semicolon => some ";"
  | comma => some ","
  | less => some "<"
  | greater => some ">"
  | leftSquare => some "["
  | rightSquare => some "]"
  | equals => some "="

/-- The kind as a message names it: a punctuation mark in single quotes, or the word for
identifiers. -/
def describe (kind : TokenKind) : String :=
  match kind.canonicalText? with
  | some text => "'" ++ text ++ "'"
  | none => "identifier"

end TokenKind

end LosslessTree
