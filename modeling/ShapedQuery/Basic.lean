/-! # Notions shared by metadata and statements -/

namespace ShapedQuery

/-- Does a row without a partner stay (`left`) or go (`inner`)? -/
inductive JoinKind where
  | left
  | inner
  deriving DecidableEq

/-- A sort order. -/
inductive Direction where
  | ascending
  | descending
  deriving DecidableEq

/-- The column that every table has as its key. -/
def primaryKey : String := "_id"

/-- Is a text an identifier: a letter or underscore, then letters, digits and underscores? -/
def isIdentifier (s : String) : Bool :=
  let isLetter (c : Char) : Bool := c.isAlpha || c == '_'
  match s.toList with
  | [] => false
  | c :: cs => isLetter c && cs.all fun c => isLetter c || c.isDigit

end ShapedQuery
