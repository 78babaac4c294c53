/-! # Pieces of SQL text

A statement is written piece by piece, and each kind of piece is quoted in its own way: a name in
double quotes, a string in single quotes, both with the quote doubled inside; a placeholder as
`$n`; a comment on a line of its own, in which line breaks become underscores.  Plain text is the
compiler's own and is written as it is. -/

namespace ShapedQuery

/-- A piece of SQL text. -/
inductive Piece where
  | plain (text : String)
  | name (text : String)
  | literal (text : String)
  | placeholder (index : Nat)
  | comment (text : String)
  deriving DecidableEq

namespace Piece

/-- Write every `q` twice. -/
def doubled (q : Char) : List Char → List Char
  | [] => []
  | c :: cs => if c = q then q :: q :: doubled q cs else c :: doubled q cs

/-- A text between quotes `q`, with the quotes inside doubled. -/
def quotedBy (q : Char) (text : String) : List Char := q :: (doubled q text.toList ++ [q])

/-- A character of a comment: a line break would end it. -/
def commentChar (c : Char) : Char := if c = '\n' ∨ c = '\r' then '_' else c

/-- The characters of a piece. -/
def chars : Piece → List Char
  | .plain text => text.toList
  | .name text => quotedBy '"' text
  | .literal text => quotedBy '\x27' text
  | .placeholder index => '$' :: Nat.toDigits 10 index
  | .comment text => ['-', '-', ' '] ++ text.toList.map commentChar ++ ['\n']

/-- The text of a row of pieces. -/
def text (pieces : List Piece) : String := String.ofList (pieces.flatMap chars)

/-- Rows of pieces with a plain separator between them. -/
def separated (separator : String) : List (List Piece) → List Piece
  | [] => []
  | [p] => p
  | p :: ps => p ++ .plain separator :: separated separator ps

end Piece

end ShapedQuery
