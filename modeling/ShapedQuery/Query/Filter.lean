import ShapedQuery.Query.Operand
import ShapedQuery.Query.Request
import ShapedQuery.Sql.Statement

/-! # Selectors

A filter is an object: all of its entries must hold.  `$and` and `$or` combine further filters,
`$comment` says nothing, and any other key names a field, with a value it must equal or an object
of operators.  Values are bound in the order of the text. -/

namespace ShapedQuery

/-- Does a key name an operator? -/
def isOperatorName (key : String) : Bool := key.toList.head? == some '$'

/-- Is an object made of operators? -/
def isOperatorObject (entries : Entries Json) : Bool :=
  !entries.isEmpty && entries.all fun (key, _) => isOperatorName key

namespace Operand

variable (o : Operand)

mutual

/-- The condition of one operator. -/
def operator (name : String) (v : Json) : Bind (Expr Placeholder) :=
  if name = "$eq" then o.equals v
  else if name = "$ne" then o.notEquals v
  else if name = "$lt" then o.compare name .lt v
  else if name = "$lte" then o.compare name .le v
  else if name = "$gt" then o.compare name .gt v
  else if name = "$gte" then o.compare name .ge v
  else if name = "$in" then o.isIn v
  else if name = "$nin" then o.isNotIn v
  else if name = "$all" then o.containsAll v
  else if name = "$exists" then o.exists? v
  else if name = "$not" then
    match v with
    | .obj entries =>
      if isOperatorObject entries then do
        let es ← operators entries
        pure (.not (.allOf es))
      else throw (.invalidOperand name .operatorObject)
    | _ => throw (.invalidOperand name .operatorObject)
  else if name = "$size" then o.hasSize v
  else throw (.unsupportedOperator name)

/-- The conditions of several operators. -/
def operators : List (String × Json) → Bind (List (Expr Placeholder))
  | [] => pure []
  | (name, v) :: rest => do
    let e ← operator name v
    let es ← operators rest
    pure (e :: es)

end

end Operand

namespace Target

variable (t : Target)

/-- The condition on a field: operators, or a value to equal. -/
def field (name : String) (v : Json) : Bind (Expr Placeholder) :=
  match Operand.ofField t name with
  | .error e => throw e
  | .ok o =>
    match v with
    | .obj entries =>
      if isOperatorObject entries then do
        let es ← o.operators entries
        pure (.allOf es)
      else o.equals v
    | _ => o.equals v

mutual

/-- The condition of one entry; a comment has none.  A connective combines the items of an
array, or the entries of an object, each a filter of its own. -/
def entry (key : String) (v : Json) : Bind (Option (Expr Placeholder)) :=
  if key = "$and" ∨ key = "$or" then do
    let fs ← match v with
      | .arr items => filters key items
      | .obj es => singles es
      | _ => throw (.invalidOperand key .arrayOrObject)
    pure (some (if key = "$and" then .allOf fs else .anyOf fs))
  else if key = "$comment" then pure none
  else if isOperatorName key then throw (.unsupportedOperator key)
  else do
    let e ← t.field key v
    pure (some e)

/-- The conditions of the entries of a filter. -/
def entries : List (String × Json) → Bind (List (Expr Placeholder))
  | [] => pure []
  | (key, v) :: rest => do
    let e ← entry key v
    let es ← entries rest
    pure (e.toList ++ es)

/-- A list of filters. -/
def filters (connective : String) : List Json → Bind (List (Expr Placeholder))
  | [] => pure []
  | v :: rest =>
    match v with
    | .obj es => do
      let cs ← entries es
      let fs ← filters connective rest
      pure (.allOf cs :: fs)
    | _ => throw (.invalidOperand connective .arrayOfObjects)

/-- Each entry as a filter of its own. -/
def singles : List (String × Json) → Bind (List (Expr Placeholder))
  | [] => pure []
  | (key, v) :: rest => do
    let e ← entry key v
    let fs ← singles rest
    pure (.allOf e.toList :: fs)

end

/-- The condition of a filter. -/
def filter (es : Entries Json) : Bind (Expr Placeholder) := do
  let cs ← t.entries es
  pure (.allOf cs)

/-- The condition of a selector. -/
def selector (s : Selector) : Bind (Expr Placeholder) := t.filter s.entries

end Target

/-! ### Sorting -/

/-- The terms of a sort: null counts as the smallest value. -/
def NamedTable.orderBy (t : NamedTable) (label : String) :
    Entries Direction → Except QueryError (List (OrderTerm Placeholder))
  | [] => .ok []
  | (field, direction) :: rest =>
    match t.lookupColumn field with
    | .error e => .error e
    | .ok column =>
      match t.orderBy label rest with
      | .error e => .error e
      | .ok terms =>
        let nulls : NullsOrder := match direction with
          | .ascending => .first
          | .descending => .last
        .ok (⟨.columnOf label field, direction, if column.nullable then some nulls else none⟩ ::
          terms)

end ShapedQuery
