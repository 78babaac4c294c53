import ShapedQuery.Basic
import ShapedQuery.Json.Basic

/-! # Declared indexes -/

namespace ShapedQuery

/-- How texts are compared. -/
structure Collation where
  locale : String
  strength : UInt8
  deriving DecidableEq

/-- Up to the second strength, case makes no difference. -/
def Collation.isCaseInsensitive (c : Collation) : Bool := c.strength ≤ 2

/-- The options of an index. -/
structure IndexOptions where
  unique : Bool
  partialFilter : Option (Entries Json)
  collation : Option Collation
  concurrently : Bool

/-- No options. -/
def IndexOptions.default : IndexOptions := ⟨false, none, none, false⟩

/-- An index declared on a table: its fields in order, each with a direction. -/
structure IndexInfo where
  fields : Entries Direction
  options : IndexOptions

end ShapedQuery
