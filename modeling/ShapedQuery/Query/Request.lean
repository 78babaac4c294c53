import ShapedQuery.Metadata.Index

/-! # Requests -/

namespace ShapedQuery

/-- Which rows are asked for: the row with a key, or those that meet a filter. -/
inductive Selector where
  | id (key : String)
  | filter (entries : Entries Json)

/-- The filter of a selector. -/
def Selector.entries : Selector → Entries Json
  | .id key => [(primaryKey, .str key)]
  | .filter entries => entries

/-- A request for the rows of a fragment's table. -/
structure Request where
  fragment : String
  selector : Selector
  sort : Entries Direction
  limit : Option UInt32
  skip : Option UInt32
  collation : Option Collation
  resolverArgs : Entries Json

end ShapedQuery
