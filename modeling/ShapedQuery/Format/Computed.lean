import ShapedQuery.Json.Reader
import ShapedQuery.Metadata.Computed

/-! # Joins and computed fields in JSON

Operands and expressions are objects with one key, which says what they are. -/

namespace ShapedQuery

namespace JoinKind

def names : List (String × JoinKind) := [("left", .left), ("inner", .inner)]

def name : JoinKind → String
  | .left => "left"
  | .inner => "inner"

end JoinKind

namespace JoinOperand

def read (d : Doc) : Read JoinOperand :=
  match d.single with
  | .error f => .error f
  | .ok (key, body) =>
    if key = "column" then body.string.map .column
    else if key = "current_user_column" then body.string.map .currentUserColumn
    else if key = "resolver_arg" then body.string.map .resolverArg
    else if key = "value" then body.json.map .value
    else d.reject

def json : JoinOperand → Json
  | .column name => .obj [("column", .str name)]
  | .currentUserColumn name => .obj [("current_user_column", .str name)]
  | .resolverArg name => .obj [("resolver_arg", .str name)]
  | .value j => .obj [("value", j)]

end JoinOperand

namespace JoinSpec

def fields : Fields [String, JoinKind, Entries JoinOperand] :=
  .field "table" Doc.string <| .field "join_type" (Doc.oneOf JoinKind.names) <|
    .field "on" (Doc.entries JoinOperand.read) .done

def read (d : Doc) : Read JoinSpec := do
  let (line, table, kind, on, _) ← d.record fields
  return ⟨← required line table, kind.getD .left, ← required line on⟩

def json (s : JoinSpec) : Json :=
  .obj [("table", .str s.table), ("join_type", .str s.kind.name),
    ("on", .obj (s.on.map fun (column, operand) => (column, operand.json)))]

end JoinSpec

namespace Computed

namespace Operator

def names : List (String × Operator) :=
  [("equals", .equals), ("not_equals", .notEquals), ("less_than", .lessThan),
    ("less_than_or_equal_to", .lessThanOrEqualTo), ("greater_than", .greaterThan),
    ("greater_than_or_equal_to", .greaterThanOrEqualTo), ("plus", .plus), ("minus", .minus),
    ("multiply", .multiply), ("divide", .divide)]

def name : Operator → String
  | .equals => "equals"
  | .notEquals => "not_equals"
  | .lessThan => "less_than"
  | .lessThanOrEqualTo => "less_than_or_equal_to"
  | .greaterThan => "greater_than"
  | .greaterThanOrEqualTo => "greater_than_or_equal_to"
  | .plus => "plus"
  | .minus => "minus"
  | .multiply => "multiply"
  | .divide => "divide"

theorem get?_names_name (op : Operator) : Entries.get? names op.name = some op := by
  cases op <;> rfl

end Operator

def joinedColumnFields : Fields [JoinSpec, String] :=
  .field "join" JoinSpec.read <| .field "column" Doc.string .done

def joinedRowFields : Fields [JoinSpec] := .field "join" JoinSpec.read .done

def callFields (read : Doc → Read Computed) : Fields [String, List Computed] :=
  .field "function" Doc.string <| .field "arguments" (Doc.list read) .done

def binaryFields (read : Doc → Read Computed) : Fields [Computed, Operator, Computed] :=
  .field "left" read <| .field "operator" (Doc.oneOf Operator.names) <| .field "right" read .done

/-- Read an expression whose document is nested at most `depth` deep.  The records in it may be
written as arrays if `listed` holds. -/
def readWithin (listed : Bool) : Nat → Doc → Read Computed
  | 0, d => d.reject
  | depth + 1, d => do
    let (key, body) ← d.single
    if key = "column" then return .column (← body.string)
    else if key = "current_user_column" then return .currentUserColumn (← body.string)
    else if key = "resolver_arg" then return .resolverArg (← body.string)
    else if key = "value" then return .value (← body.json)
    else if key = "joined_column" then
      let (line, join, name, _) ← body.recordIn listed joinedColumnFields
      return .joinedColumn (← required line join) (← required line name)
    else if key = "joined_row" then
      let (line, join, _) ← body.recordIn listed joinedRowFields
      return .joinedRow (← required line join)
    else if key = "function_call" then
      let (line, function, arguments, _) ←
        body.recordIn listed (callFields (readWithin listed depth))
      return .call (← required line function) (arguments.getD [])
    else if key = "binary_operation" then
      let (line, left, operator, right, _) ←
        body.recordIn listed (binaryFields (readWithin listed depth))
      return .binary (← required line left) (← required line operator) (← required line right)
    else if key = "is_null" then return .isNull (← readWithin listed depth body)
    else d.reject

def read (d : Doc) : Read Computed := readWithin true d.depth d

/-- Read an expression from a value that stands alone: its records must be objects. -/
def ofJson (j : Json) : Read Computed :=
  let d := Doc.ofJson j
  readWithin false d.depth d

mutual

def json : Computed → Json
  | .column name => .obj [("column", .str name)]
  | .currentUserColumn name => .obj [("current_user_column", .str name)]
  | .resolverArg name => .obj [("resolver_arg", .str name)]
  | .value j => .obj [("value", j)]
  | .joinedColumn join name =>
    .obj [("joined_column", .obj [("join", join.json), ("column", .str name)])]
  | .joinedRow join => .obj [("joined_row", .obj [("join", join.json)])]
  | .call function arguments =>
    .obj [("function_call",
      .obj [("function", .str function), ("arguments", .arr (jsons arguments))])]
  | .binary left operator right =>
    .obj [("binary_operation", .obj [("left", json left), ("operator", .str operator.name),
      ("right", json right)])]
  | .isNull e => .obj [("is_null", json e)]

def jsons : List Computed → List Json
  | [] => []
  | e :: es => json e :: jsons es

end

end Computed

end ShapedQuery
