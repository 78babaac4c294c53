import ShapedQuery.Query.FieldPath
import ShapedQuery.Query.Lookup

/-! # Operands of selectors

The field that a condition of a selector is about, and the single conditions on it.  Values are
bound as they come up, so a condition is a step on an argument list (`Bind`). -/

namespace ShapedQuery

/-- The table that a selector is about, and how its columns are named and compared. -/
structure Target where
  table : NamedTable
  /-- Columns stand without an alias in the definition of an index. -/
  label : Option String
  caseInsensitive : Bool

/-- A step that binds values and may fail; values that are bound stay bound. -/
abbrev Bind := EStateM QueryError Arguments

/-- Bind a value. -/
def bindValue (j : Json) : Bind (Expr Placeholder) := fun args =>
  let (p, args) := args.bind (Param.ofJson j)
  .ok (.bound p) args

/-- Bind each of the values in turn. -/
def bindEach (f : Json → Bind (Expr Placeholder)) : List Json → Bind (List (Expr Placeholder))
  | [] => pure []
  | j :: js => do
    let e ← f j
    let es ← bindEach f js
    pure (e :: es)

/-- The field of a condition: a column, or a place inside a JSON column. -/
structure Operand where
  column : Column
  expr : Expr Placeholder
  steps : List PathStep
  caseInsensitive : Bool

namespace Operand

/-- The field with a name. -/
def ofField (t : Target) (field : String) : Except QueryError Operand :=
  let path := FieldPath.split field
  match t.table.lookupColumn path.column with
  | .error e => .error e
  | .ok column =>
    if !path.steps.isEmpty && !column.isJson then
      .error (.notAJsonColumn t.table.name path.column)
    else
      let ref : ColumnRef := match t.label with
        | some label => .qualified label path.column
        | none => .bare path.column
      .ok ⟨column, .column ref, path.steps, t.caseInsensitive⟩

variable (o : Operand)

/-- Is the field a whole column? -/
def isPlain : Bool := o.steps.isEmpty

def isArray : Bool := o.isPlain && o.column.type.isArray

/-- The type of the items of an array column. -/
def itemType? : Option ScalarType := if o.isPlain then o.column.type.item? else none

def isNullable : Bool := !o.isPlain || o.column.nullable

/-- Is the value a text that is compared with texts? -/
def isTextual (v : Json) : Bool := v.isString && (!o.isPlain || o.column.isTextual)

/-- Does case not matter for the value? -/
def ignoresCase (v : Json) : Bool := o.caseInsensitive && o.isTextual v

/-- An expression in lower case. -/
def lower (e : Expr Placeholder) : Expr Placeholder := .call .lower [e]

/-- A place inside a JSON column, with the type that a comparison with the value needs: as text
for strings and null, and cast for numbers and booleans. -/
def extracted (v : Json) : Expr Placeholder :=
  let path (asText : Bool) : Expr Placeholder := .path o.expr o.steps asText
  match v with
  | .null => path true
  | .str _ => path true
  | .int _ => .cast (path false) ScalarType.integer.sqlName
  | .float _ => .cast (path false) ScalarType.doublePrecision.sqlName
  | .bool _ => .cast (path false) ScalarType.boolean.sqlName
  | .arr _ => path false
  | .obj _ => path false

/-- The left side of a comparison with the value. -/
def left (v : Json) : Expr Placeholder :=
  let e := if o.isPlain then o.expr else o.extracted v
  if o.ignoresCase v then lower e else e

/-- The right side of a comparison: the value, bound. -/
def right (v : Json) : Bind (Expr Placeholder) := do
  let e ← bindValue v
  if !o.isPlain && v.isContainer then pure (.cast e ScalarType.jsonb.sqlName)
  else if o.ignoresCase v then pure (lower e)
  else pure e

/-- A value as an item of an array, bound and cast to the type of the column's items. -/
def item (v : Json) : Bind (Expr Placeholder) := do
  let e ← bindValue v
  match o.itemType? with
  | some type => pure (.cast e type.sqlName)
  | none => pure e

/-- The field equals the value; an array column contains a value that is no array. -/
def equals (v : Json) : Bind (Expr Placeholder) :=
  match v with
  | .null => pure (.test (o.left v) .null)
  | .bool true => pure (.test (o.left v) .true)
  | .bool false => pure (.test (o.left v) .false)
  | _ =>
    if o.isArray && !v.isArray then do
      let e ← o.item v
      pure (.binary (o.left v) .contains (.array [e]))
    else do
      let e ← o.right v
      pure (.binary (o.left v) .eq e)

/-- The field does not equal the value. -/
def notEquals (v : Json) : Bind (Expr Placeholder) :=
  match v with
  | .null => pure (.test (o.left v) .notNull)
  | .bool true => pure (.test (o.left v) .notTrue)
  | .bool false => pure (.test (o.left v) .notFalse)
  | _ =>
    if o.isArray && !v.isArray then do
      let e ← o.equals v
      pure (.not e)
    else do
      let e ← o.right v
      pure (.binary (o.left v) (if o.isNullable then .distinctFrom else .ne) e)

/-- The field compares with a single value. -/
def compare (name : String) (op : BinaryOp) (v : Json) : Bind (Expr Placeholder) :=
  match v with
  | .null => throw (.invalidOperand name .scalar)
  | .arr _ => throw (.invalidOperand name .scalar)
  | .obj _ => throw (.invalidOperand name .scalar)
  | _ => do
    let e ← o.right v
    pure (.binary (o.left v) op e)

/-- The field is one of the values, which are not empty; an array column shares an item with
them. -/
def isOneOf (first : Json) (rest : List Json) : Bind (Expr Placeholder) :=
  if o.isArray then do
    let items ← bindEach o.item (first :: rest)
    pure (.binary (o.left first) .overlaps (.array items))
  else do
    let items ← bindEach o.right (first :: rest)
    pure (.isIn (o.left first) items)

/-- The field is one of the values of a list. -/
def isIn (v : Json) : Bind (Expr Placeholder) :=
  match v with
  | .arr [] => pure .isFalse
  | .arr (first :: rest) => o.isOneOf first rest
  | _ => throw (.invalidOperand "$in" .array)

/-- The field is none of the values of a list. -/
def isNotIn (v : Json) : Bind (Expr Placeholder) :=
  match v with
  | .arr [] => pure .isTrue
  | .arr (first :: rest) => do
    let e ← o.isOneOf first rest
    pure (.not e)
  | _ => throw (.invalidOperand "$nin" .array)

/-- The field contains all values of a list; none are never contained. -/
def containsAll (v : Json) : Bind (Expr Placeholder) :=
  match v with
  | .arr values =>
    if !o.isArray && o.isPlain then throw (.invalidOperand "$all" .arrayOrJsonField)
    else if values.isEmpty then pure .isFalse
    else if o.isArray then do
      let items ← bindEach o.item values
      pure (.binary (o.left v) .contains (.array items))
    else do
      let e ← o.right v
      pure (.binary (o.left v) .contains e)
  | _ => throw (.invalidOperand "$all" .array)

/-- The field has a value, or has none. -/
def exists? (v : Json) : Bind (Expr Placeholder) :=
  match v with
  | .bool b => pure (.test (o.left .null) (if b then .notNull else .null))
  | _ => throw (.invalidOperand "$exists" .boolean)

/-- The array column has so many items. -/
def hasSize (v : Json) : Bind (Expr Placeholder) :=
  if !o.isArray then throw (.invalidOperand "$size" .arrayField)
  else match v with
    | .int n =>
      if 0 ≤ n then do
        let e ← o.right v
        pure (.binary (.call .arrayLength [o.expr, .constant (.int 1)]) .eq e)
      else throw (.invalidOperand "$size" .nonNegativeInteger)
    | _ => throw (.invalidOperand "$size" .nonNegativeInteger)

end Operand

end ShapedQuery
