import ShapedQuery.Metadata.Join

/-! # Computed fields -/

namespace ShapedQuery

namespace Computed

/-- Operators in a computed field. -/
inductive Operator where
  | equals
  | notEquals
  | lessThan
  | lessThanOrEqualTo
  | greaterThan
  | greaterThanOrEqualTo
  | plus
  | minus
  | multiply
  | divide
  deriving DecidableEq

end Computed

/-- The expression of a computed field. -/
inductive Computed where
  | column (name : String)
  | currentUserColumn (name : String)
  | resolverArg (name : String)
  | value (j : Json)
  | joinedColumn (join : JoinSpec) (column : String)
  | joinedRow (join : JoinSpec)
  | call (function : String) (arguments : List Computed)
  | binary (left : Computed) (operator : Computed.Operator) (right : Computed)
  | isNull (e : Computed)

end ShapedQuery
