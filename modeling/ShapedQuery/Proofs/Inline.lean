import ShapedQuery.Proofs.JsonShape
import ShapedQuery.Proofs.Scope
import ShapedQuery.Query.Compile

/-! # Compilation with the values in place

A second compiler, without numbers: what stands at a placeholder is the value itself, written
where it is used.  There is no argument list, so nothing is bound, continued or absorbed, and a
resolver argument is looked up anew at each use.

`Inline.selector` compiles a selector and `Inline.compile` a whole request.  Both follow the
compiler step by step, so that the two can be compared: a request in the numbered form says the
same as in this one. -/

namespace ShapedQuery

namespace Inline

/-- A value, where it is used. -/
def value (j : Json) : Expr Param := .bound (Param.ofJson j)

/-! ### Conditions on a field -/

section operand

variable (o : Operand)

/-- The left side of a comparison.  It holds no values. -/
def left (v : Json) : Expr Param := (o.left v).map Placeholder.value

/-- The right side of a comparison. -/
def right (v : Json) : Expr Param :=
  if !o.isPlain && v.isContainer then .cast (value v) ScalarType.jsonb.sqlName
  else if o.ignoresCase v then .call .lower [value v]
  else value v

/-- A value as an item of an array, cast to the type of the column's items. -/
def item (v : Json) : Expr Param :=
  match o.itemType? with
  | some type => .cast (value v) type.sqlName
  | none => value v

def equals (v : Json) : Expr Param :=
  match v with
  | .null => .test (left o v) .null
  | .bool true => .test (left o v) .true
  | .bool false => .test (left o v) .false
  | _ =>
    if o.isArray && !v.isArray then .binary (left o v) .contains (.array [item o v])
    else .binary (left o v) .eq (right o v)

def notEquals (v : Json) : Expr Param :=
  match v with
  | .null => .test (left o v) .notNull
  | .bool true => .test (left o v) .notTrue
  | .bool false => .test (left o v) .notFalse
  | _ =>
    if o.isArray && !v.isArray then .not (equals o v)
    else .binary (left o v) (if o.isNullable then .distinctFrom else .ne) (right o v)

def compare (name : String) (op : BinaryOp) (v : Json) : Except QueryError (Expr Param) :=
  match v with
  | .null => .error (.invalidOperand name .scalar)
  | .arr _ => .error (.invalidOperand name .scalar)
  | .obj _ => .error (.invalidOperand name .scalar)
  | _ => .ok (.binary (left o v) op (right o v))

def isOneOf (first : Json) (rest : List Json) : Expr Param :=
  if o.isArray then .binary (left o first) .overlaps (.array ((first :: rest).map (item o)))
  else .isIn (left o first) ((first :: rest).map (right o))

def isIn (v : Json) : Except QueryError (Expr Param) :=
  match v with
  | .arr [] => .ok .isFalse
  | .arr (first :: rest) => .ok (isOneOf o first rest)
  | _ => .error (.invalidOperand "$in" .array)

def isNotIn (v : Json) : Except QueryError (Expr Param) :=
  match v with
  | .arr [] => .ok .isTrue
  | .arr (first :: rest) => .ok (.not (isOneOf o first rest))
  | _ => .error (.invalidOperand "$nin" .array)

def containsAll (v : Json) : Except QueryError (Expr Param) :=
  match v with
  | .arr values =>
    if !o.isArray && o.isPlain then .error (.invalidOperand "$all" .arrayOrJsonField)
    else if values.isEmpty then .ok .isFalse
    else if o.isArray then .ok (.binary (left o v) .contains (.array (values.map (item o))))
    else .ok (.binary (left o v) .contains (right o v))
  | _ => .error (.invalidOperand "$all" .array)

def exists? (v : Json) : Except QueryError (Expr Param) :=
  match v with
  | .bool b => .ok (.test (left o .null) (if b then .notNull else .null))
  | _ => .error (.invalidOperand "$exists" .boolean)

def hasSize (v : Json) : Except QueryError (Expr Param) :=
  if !o.isArray then .error (.invalidOperand "$size" .arrayField)
  else match v with
    | .int n =>
      if 0 ≤ n then
        .ok (.binary (.call .arrayLength [o.expr.map Placeholder.value, .constant (.int 1)]) .eq
          (right o v))
      else .error (.invalidOperand "$size" .nonNegativeInteger)
    | _ => .error (.invalidOperand "$size" .nonNegativeInteger)

mutual

/-- The condition of one operator. -/
def operator (name : String) (v : Json) : Except QueryError (Expr Param) :=
  if name = "$eq" then .ok (equals o v)
  else if name = "$ne" then .ok (notEquals o v)
  else if name = "$lt" then compare o name .lt v
  else if name = "$lte" then compare o name .le v
  else if name = "$gt" then compare o name .gt v
  else if name = "$gte" then compare o name .ge v
  else if name = "$in" then isIn o v
  else if name = "$nin" then isNotIn o v
  else if name = "$all" then containsAll o v
  else if name = "$exists" then exists? o v
  else if name = "$not" then
    match v with
    | .obj entries =>
      if isOperatorObject entries then do
        let es ← operators entries
        pure (.not (.allOf es))
      else .error (.invalidOperand name .operatorObject)
    | _ => .error (.invalidOperand name .operatorObject)
  else if name = "$size" then hasSize o v
  else .error (.unsupportedOperator name)

def operators : List (String × Json) → Except QueryError (List (Expr Param))
  | [] => .ok []
  | (name, v) :: rest => do
    let e ← operator name v
    let es ← operators rest
    pure (e :: es)

end

end operand

/-! ### Selectors -/

section selector

variable (t : Target)

/-- The condition on a field: operators, or a value to equal. -/
def field (name : String) (v : Json) : Except QueryError (Expr Param) := do
  let o ← Operand.ofField t name
  match v with
  | .obj entries =>
    if isOperatorObject entries then do
      let es ← operators o entries
      pure (.allOf es)
    else pure (equals o v)
  | _ => pure (equals o v)

mutual

/-- The condition of one entry; a comment has none. -/
def entry (key : String) (v : Json) : Except QueryError (Option (Expr Param)) :=
  if key = "$and" ∨ key = "$or" then do
    let fs ← match v with
      | .arr items => filters key items
      | .obj es => singles es
      | _ => .error (.invalidOperand key .arrayOrObject)
    pure (some (if key = "$and" then .allOf fs else .anyOf fs))
  else if key = "$comment" then pure none
  else if isOperatorName key then .error (.unsupportedOperator key)
  else do
    let e ← field t key v
    pure (some e)

def entries : List (String × Json) → Except QueryError (List (Expr Param))
  | [] => .ok []
  | (key, v) :: rest => do
    let e ← entry key v
    let es ← entries rest
    pure (e.toList ++ es)

/-- A list of filters. -/
def filters (connective : String) : List Json → Except QueryError (List (Expr Param))
  | [] => .ok []
  | v :: rest =>
    match v with
    | .obj es => do
      let cs ← entries es
      let fs ← filters connective rest
      pure (.allOf cs :: fs)
    | _ => .error (.invalidOperand connective .arrayOfObjects)

/-- Each entry as a filter of its own. -/
def singles : List (String × Json) → Except QueryError (List (Expr Param))
  | [] => .ok []
  | (key, v) :: rest => do
    let e ← entry key v
    let fs ← singles rest
    pure (.allOf e.toList :: fs)

end

/-- The condition of a filter. -/
def filter (es : Entries Json) : Except QueryError (Expr Param) := do
  let cs ← entries t es
  pure (.allOf cs)

/-- The condition of a selector. -/
def selector (s : Selector) : Except QueryError (Expr Param) := filter t s.entries

end selector

/-! ### Joins and computed fields -/

/-- What compiling works on: a scope in place of a context. -/
structure Work where
  scope : Scope Param
  aliases : Aliases
  dropped : List Dropped

/-- A step that may fail. -/
abbrev Step := EStateM QueryError Work

def ofExcept {α : Type} : Except QueryError α → Step α
  | .ok a => pure a
  | .error e => throw e

def modifyScope (f : Scope Param → Scope Param) : Step Unit := fun w =>
  .ok () { w with scope := f w.scope }

def drawAlias : Step String := fun w =>
  let (label, aliases) := w.aliases.next
  .ok label { w with aliases := aliases }

section joins

variable (args : Entries Json)

/-- The value of a resolver argument; null if the request does not supply it. -/
def resolverArg (name : String) : Expr Param :=
  match args.get? name with
  | none => .constant .null
  | some j => value j

/-- What a column of a joined table is compared with. -/
def joinOperand : JoinOperand → Step (Expr Param)
  | .column name => do
    let s := (← get).scope
    let _ ← ofExcept (s.table.lookupColumn name)
    return s.column name
  | .currentUserColumn name => do
    ofExcept ((← get).scope.currentUserColumn name)
  | .resolverArg name => return resolverArg args name
  | .value j => return value j

def joinConditions (label : String) : Entries JoinOperand → Step (List (Expr Param))
  | [] => pure []
  | (column, operand) :: rest => do
    let value ← joinOperand args operand
    let conditions ← joinConditions label rest
    return .binary (.columnOf label column) .eq value :: conditions

/-- Join a table and give its alias; a join that the scope has is used again. -/
def addJoin (spec : JoinSpec) : Step String := do
  match (← get).scope.joinFor? spec with
  | some label => return label
  | none =>
    let label ← drawAlias
    let on ← joinConditions args label spec.on
    modifyScope fun s => s.addJoin spec label on
    return label

mutual

/-- The expression of a computed field; the tables it reads from are joined. -/
def computed : Computed → Step (Expr Param)
  | .column name => joinOperand args (.column name)
  | .currentUserColumn name => joinOperand args (.currentUserColumn name)
  | .resolverArg name => joinOperand args (.resolverArg name)
  | .value j => joinOperand args (.value j)
  | .joinedColumn join column => do
    let label ← addJoin args join
    return .columnOf label column
  | .joinedRow join => do
    let label ← addJoin args join
    return .relatedRow label primaryKey (some label) []
  | .call name arguments => do
    let function ← ofExcept (Function.ofName name)
    let es ← computedAll arguments
    return .call function es
  | .binary left operator right => do
    let l ← computed left
    let r ← computed right
    return .binary l operator.op r
  | .isNull e => do
    let e ← computed e
    return .test e .null

def computedAll : List Computed → Step (List (Expr Param))
  | [] => pure []
  | e :: es => do
    let a ← computed e
    let as ← computedAll es
    return a :: as

end

end joins

/-! ### Fragments -/

section fragments

variable (env : Env) (args : Entries Json)

/-- Run a step on a nested scope and give back that scope. -/
def inChild (child : Scope Param) (step : Step Unit) : Step (Scope Param) := fun w =>
  match step { w with scope := child } with
  | .ok _ w' => .ok w'.scope { w' with scope := w.scope }
  | .error e w' => .error e { w' with scope := w.scope }

/-- The field of a relation: `nest` resolves a fragment in a nested scope. -/
def relation (nest : String → Fragment → Step Unit) (selection : Selection) (join : JoinSpec) :
    Step Unit := do
  let label ← addJoin args join
  let table ← ofExcept (env.metadata.lookupTable join.table)
  let child := (← get).scope.child table label
  match selection with
  | .field name => modifyScope fun s => s.aggregate (child.baseRow env true).2 name
  | .nested name fragmentName =>
    let fragment ← ofExcept (env.metadata.lookupFragment fragmentName)
    if fragment.table ≠ join.table then
      throw (.fragmentTableMismatch fragmentName fragment.table name join.table)
    let child ← inChild child (nest fragmentName fragment)
    modifyScope fun s => s.aggregate child name

/-- One field that the user may read. -/
def readableField (nest : String → Fragment → Step Unit) (wholeRow : Bool) (table : String)
    (selection : Selection) (kind : FieldKind) : Step Unit :=
  match kind, selection with
  | .column _, .field name =>
    if !wholeRow && name != primaryKey then modifyScope fun s => s.addColumn name else pure ()
  | .computed e, .field name => do
    let e ← computed args e
    modifyScope fun s => s.addNamed name e
  | .relation join, selection => relation env args nest selection join
  | _, .nested name _ => throw (.unexpectedSubFragment table name)

/-- Note a field that is left out. -/
def drop (d : Dropped) : Step Unit := fun w => .ok () { w with dropped := w.dropped ++ [d] }

/-- The fields of a fragment, after those already seen. -/
def selections (nest : String → Fragment → Step Unit) (fragment : String) (wholeRow : Bool)
    (table : NamedTable) : List String → List Selection → Step Unit
  | _, [] => pure ()
  | seen, selection :: rest => do
    let name := selection.name
    if seen.contains name then throw (.duplicateField fragment name)
    let field ← ofExcept (table.lookupField name)
    if canRead env.user field.rules then
      readableField env args nest wholeRow table.name selection field.kind
    else drop ⟨fragment, table.name, name⟩
    selections nest fragment wholeRow table (name :: seen) rest

/-- Resolve a fragment in the scope, with room for `room` more fragments on the path. -/
def fragment : (room : Nat) → FragmentPath → String → Fragment → Step Unit
  | 0, path, name, _ => do
    let path ← ofExcept (path.enter name)
    throw (.maxDepthExceeded path.maxDepth)
  | room + 1, path, name, f => do
    let path ← ofExcept (path.enter name)
    let wholeRow ← fun w =>
      let (b, s) := w.scope.baseRow env false
      .ok b { w with scope := s }
    let table := (← get).scope.table
    selections env args (fragment room path) name wholeRow table [] f.selections

/-- Resolve the fragment with a name in the scope. -/
def namedFragment (name : String) : Step Unit := do
  let f ← ofExcept (env.metadata.lookupFragment name)
  let maxDepth := env.settings.maxFragmentDepth.toNat
  fragment env args (maxDepth + 1) (.empty maxDepth) name f

end fragments

/-! ### Requests -/

section requests

variable (env : Env) (r : Request)

/-- The key of the current user; null for a user who is logged out. -/
def setCurrentUser (user : Option User) : Step Unit := do
  let s ← ofExcept ((← get).scope.setCurrentUser (Context.userKey user))
  modifyScope fun _ => s

/-- A number of rows. -/
def count (n : UInt32) : Param := .int n.toNat

/-- The select statement of a request, in the scope of its table. -/
def compileIn (table : NamedTable) : Step (Select Param) := do
  setCurrentUser env.user
  namedFragment env r.resolverArgs r.fragment
  let label := (← get).scope.label
  let condition ← ofExcept (selector ⟨table, some label, r.caseInsensitive⟩ r.selector)
  let order ← ofExcept (table.orderBy label r.sort)
  let select ← ofExcept ((← get).scope.select condition
    (order.map (OrderTerm.map Placeholder.value)) (r.limit.map count) (r.skip.map count))
  return { select with comment := some ("Fragment " ++ r.fragment) }

/-- Compile a request, with its values in place. -/
def compile (aliases : Aliases) : Except QueryError (Select Param) := do
  let fragment ← env.metadata.lookupFragment r.fragment
  let table ← env.metadata.lookupTable fragment.table
  match compileIn env r table ⟨Scope.root table env.settings.currentUserTable, aliases, []⟩ with
  | .ok select _ => .ok select
  | .error e _ => .error e

end requests

end Inline

end ShapedQuery
