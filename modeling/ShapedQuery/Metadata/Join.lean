import ShapedQuery.Basic
import ShapedQuery.Json.Basic

/-! # Joins between tables

A `JoinSpec` says how to reach the rows of another table: each of its columns under `on` must
equal an operand.  `JoinSpec.same` tells whether two specs ask for the same join; the order of
the conditions does not matter. -/

namespace ShapedQuery

/-- What a column of the joined table is compared with. -/
inductive JoinOperand where
  /-- A column of the row that is joined from. -/
  | column (name : String)
  /-- A column of the current user's row. -/
  | currentUserColumn (name : String)
  /-- A value that the request supplies. -/
  | resolverArg (name : String)
  | value (j : Json)

/-- How to join a table. -/
structure JoinSpec where
  table : String
  kind : JoinKind
  on : Entries JoinOperand

namespace JoinOperand

def same : JoinOperand → JoinOperand → Bool
  | .column a, .column b => a == b
  | .currentUserColumn a, .currentUserColumn b => a == b
  | .resolverArg a, .resolverArg b => a == b
  | .value a, .value b => a.same b
  | _, _ => false

end JoinOperand

namespace JoinSpec

/-- The same join: same table, same kind, and the same conditions in any order. -/
def same (a b : JoinSpec) : Bool :=
  a.table == b.table && decide (a.kind = b.kind) && a.on.length == b.on.length &&
    a.on.all fun (column, operand) =>
      match b.on.get? column with
      | some other => operand.same other
      | none => false

end JoinSpec

end ShapedQuery
