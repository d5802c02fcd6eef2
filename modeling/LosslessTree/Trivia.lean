import LosslessTree.Length

/-!
# Trivia

Whitespace and comments carry no meaning, but a lossless tree keeps them: they are attached to the
tokens they stand next to, as a list of pieces. A run of whitespace is one piece with a count, so
its length is known without writing it out.

## Main definitions

* `Piece`: one run of whitespace or one comment.
* `Trivia`: the pieces on one side of a token, in order.
* `Piece.text`, `Trivia.text`: the source text.
* `Piece.byteLen`, `Trivia.byteLen`: its length in bytes, if that fits a word.
-/

namespace LosslessTree

/-- A run of equal whitespace characters, or a comment without its delimiters. -/
inductive Piece where
  | spaces (count : UInt64)
  | tabs (count : UInt64)
  | lineFeeds (count : UInt64)
  /-- Carriage returns, each followed by a line feed. -/
  | crlfs (count : UInt64)
  /-- A comment from two slashes to the end of the line, the line break not included. -/
  | lineComment (body : String)
  | blockComment (body : String)
  deriving DecidableEq, Repr

namespace Piece

/-- A text written `count` times in a row. -/
def repeated (unit : String) (count : Nat) : String :=
  String.join (List.replicate count unit)

/-- The source text of a piece. -/
def text : Piece → String
  | spaces count => repeated " " count.toNat
  | tabs count => repeated "\t" count.toNat
  | lineFeeds count => repeated "\n" count.toNat
  | crlfs count => repeated "\r\n" count.toNat
  | lineComment body => "//" ++ body
  | blockComment body => "/*" ++ body ++ "*/"

/-- The length of a piece in bytes, computed from its count or its body. -/
def byteLen : Piece → Except Overflow Nat
  | spaces count | tabs count | lineFeeds count => .ok count.toNat
  | crlfs count => checkedMul count.toNat 2
  | lineComment body => checkedAdd 2 body.utf8ByteSize
  | blockComment body => checkedAdd 4 body.utf8ByteSize

end Piece

/-- The whitespace and comments on one side of a token, in textual order. -/
structure Trivia where
  pieces : List Piece := []
  deriving DecidableEq, Repr, Inhabited

namespace Trivia

/-- The source text of all pieces. -/
def text (trivia : Trivia) : String :=
  String.join (trivia.pieces.map Piece.text)

/-- The length of all pieces in bytes, added up from the first piece to the last. -/
def byteLen (trivia : Trivia) : Except Overflow Nat :=
  trivia.pieces.foldlM (fun total piece => do checkedAdd total (← piece.byteLen)) 0

end Trivia

end LosslessTree
