import ShapedQuery.Query.Context

/-! # Computed fields as SQL -/

namespace ShapedQuery

/-- The function with a name, which must be an identifier; the compiler's own functions are known
in any case. -/
def Function.ofName (name : String) : Except QueryError Function :=
  if !isIdentifier name then .error (.invalidFunctionName name)
  else
    let upper := String.ofList (name.toList.map Char.toUpper)
    .ok <| if upper = "COALESCE" then .coalesce
      else if upper = "LOWER" then .lower
      else if upper = "ARRAY_LENGTH" then .arrayLength
      else .named name

def Computed.Operator.op : Computed.Operator → BinaryOp
  | .equals => .eq
  | .notEquals => .ne
  | .lessThan => .lt
  | .lessThanOrEqualTo => .le
  | .greaterThan => .gt
  | .greaterThanOrEqualTo => .ge
  | .plus => .add
  | .minus => .sub
  | .multiply => .mul
  | .divide => .div

namespace Compile

mutual

/-- The expression of a computed field; the tables it reads from are joined. -/
def computed : Computed → Compile (Expr Placeholder)
  | .column name => joinOperand (.column name)
  | .currentUserColumn name => joinOperand (.currentUserColumn name)
  | .resolverArg name => joinOperand (.resolverArg name)
  | .value j => joinOperand (.value j)
  | .joinedColumn join column => do
    let label ← addJoin join
    return .columnOf label column
  | .joinedRow join => do
    let label ← addJoin join
    return .relatedRow label primaryKey (some label) []
  | .call name arguments => do
    let function ← ofExcept (Function.ofName name)
    let args ← computedAll arguments
    return .call function args
  | .binary left operator right => do
    let l ← computed left
    let r ← computed right
    return .binary l operator.op r
  | .isNull e => do
    let e ← computed e
    return .test e .null

def computedAll : List Computed → Compile (List (Expr Placeholder))
  | [] => pure []
  | e :: es => do
    let a ← computed e
    let as ← computedAll es
    return a :: as

end

end Compile

end ShapedQuery
