import ShapedQuery.Query.Aliases
import ShapedQuery.Query.Lookup
import ShapedQuery.Sql.Statement

/-! # Projections under construction

A `Context` gathers what a query over one table needs: the joins, the bound values and the
projected fields.  The outermost context becomes a select statement (`Context.select`); a nested
one builds the JSON object of a related row and is folded back into its parent
(`Context.aggregate`).

Compiling is a step on a context and a sequence of aliases that may fail (`Compile`).  A step that
fails leaves behind what it did before. -/

namespace ShapedQuery

/-- A projected field: an item of the select list, or a field of a JSON object. -/
inductive Projection where
  | item (i : SelectItem Placeholder)
  | field (key : String) (value : Expr Placeholder)

/-- A join and the alias it was asked for by.  The join to the current user has no spec. -/
structure OwnedJoin where
  owner : String
  spec : Option JoinSpec
  join : Join Placeholder

namespace OwnedJoin

/-- Was the join asked for by this owner, with this spec? -/
def serves (j : OwnedJoin) (owner : String) (spec : JoinSpec) : Bool :=
  j.owner == owner && j.spec.any fun s => s.same spec

/-- The same join for the same owner. -/
def same (a b : OwnedJoin) : Bool :=
  a.owner == b.owner &&
    (match a.spec, b.spec with
      | none, none => true
      | some s, some t => s.same t
      | _, _ => false) &&
    (a.join.map Placeholder.index).beq (b.join.map Placeholder.index)

end OwnedJoin

/-- A projection under construction. -/
structure Context where
  table : NamedTable
  label : String
  /-- Does the context build a JSON object? -/
  nested : Bool
  wholeRow : Bool
  arguments : Arguments
  projections : List Projection
  joins : List OwnedJoin
  currentUserJoined : Bool
  currentUserTable : String
  /-- The values that the request supplies. -/
  resolverArgs : Entries Json
  /-- Those of them that are bound. -/
  boundArgs : Entries Placeholder

namespace Context

/-- The context of the outermost query. -/
def root (table : NamedTable) (currentUserTable : String) (resolverArgs : Entries Json) :
    Context where
  table := table
  label := rootAlias table.name
  nested := false
  wholeRow := false
  arguments := .empty
  projections := []
  joins := []
  currentUserJoined := false
  currentUserTable := currentUserTable
  resolverArgs := resolverArgs
  boundArgs := []

variable (c : Context)

/-- A context for a related row.  Its values continue the numbering. -/
def child (table : NamedTable) (label : String) : Context :=
  { c with
    table := table
    label := label
    nested := true
    wholeRow := false
    arguments := c.arguments.nested
    projections := []
    joins := [] }

/-! ### Columns and values -/

/-- A column of the context's table. -/
def column (name : String) : Expr Placeholder := .columnOf c.label name

/-- A column of the current user. -/
def currentUserColumn (name : String) : Except QueryError (Expr Placeholder) :=
  if c.currentUserJoined then .ok (.columnOf currentUserAlias name)
  else .error .currentUserNotSet

/-- Bind a value. -/
def bind (value : Param) : Placeholder × Context :=
  let (p, args) := c.arguments.bind value
  (p, { c with arguments := args })

/-- The value of a resolver argument, bound where it is first used; null if the request does not
supply it. -/
def resolverArg (name : String) : Expr Placeholder × Context :=
  match c.boundArgs.get? name with
  | some p => (.bound p, c)
  | none =>
    match c.resolverArgs.get? name with
    | none => (.constant .null, c)
    | some value =>
      let (p, c) := c.bind (Param.ofJson value)
      (.bound p, { c with boundArgs := c.boundArgs.insert name p })

/-! ### Projections -/

/-- A column under its own name. -/
def fieldProjection (name : String) : Projection :=
  if c.nested then .field name (c.column name)
  else .item (.column (.qualified c.label name))

/-- An expression under a name. -/
def namedProjection (name : String) (e : Expr Placeholder) : Projection :=
  if c.nested then .field name e else .item (.named e name)

/-- Project the whole row. -/
def addRow : Context := { c with wholeRow := true }

/-- Project a column. -/
def addColumn (name : String) : Context :=
  { c with projections := c.projections ++ [c.fieldProjection name] }

/-- Project an expression. -/
def addNamed (name : String) (e : Expr Placeholder) : Context :=
  { c with projections := c.projections ++ [c.namedProjection name e] }

/-! ### Joins -/

/-- Join the row of the current user, if there is one: the key of a user who is logged out is
null and matches nothing. -/
def setCurrentUser (user : Option User) : Except QueryError Context :=
  if c.nested then .error .currentUserInNestedContext
  else if c.currentUserJoined then .error .currentUserAlreadySet
  else
    let id : Param := match user with
      | some user => .str user.id
      | none => .null
    let (p, c) := c.bind id
    let join : Join Placeholder :=
      ⟨.left, c.currentUserTable, currentUserAlias,
        [.binary (.columnOf currentUserAlias primaryKey) .eq (.bound p)]⟩
    .ok { c with joins := c.joins ++ [⟨c.label, none, join⟩], currentUserJoined := true }

/-- The joins of `more` that are not there yet go to the end. -/
def mergeJoins (joins : List OwnedJoin) : List OwnedJoin → List OwnedJoin
  | [] => joins
  | j :: more =>
    if joins.any fun k => k.same j then mergeJoins joins more
    else mergeJoins (joins ++ [j]) more

/-- The fields of the JSON object that a nested context builds. -/
def objectFields : List (String × Expr Placeholder) :=
  c.projections.filterMap fun
    | .field key value => some (key, value)
    | .item _ => none

/-- The related row of a nested context as a JSON object, or null. -/
def relatedRow : Expr Placeholder :=
  .relatedRow c.label primaryKey (if c.wholeRow then some c.label else none) c.objectFields

/-- Fold a nested context into this one, as a field with a name. -/
def aggregate (child : Context) (name : String) : EStateM.Result QueryError Context Unit :=
  let c := c.addNamed name child.relatedRow
  let c := { c with joins := mergeJoins c.joins child.joins }
  match c.arguments.absorb child.arguments with
  | .error m => .error (.offsetMismatch m) c
  | .ok arguments =>
    .ok () { c with
      arguments := arguments
      boundArgs := child.boundArgs.foldl (fun bound (name, p) => bound.insert name p) c.boundArgs }

/-! ### The select statement -/

/-- The first alias that was seen before. -/
def repeatedAlias? (seen : List String) : List String → Option String
  | [] => none
  | label :: rest =>
    if seen.contains label then some label else repeatedAlias? (label :: seen) rest

/-- The items of the select list. -/
def selectItems : List (SelectItem Placeholder) :=
  (if c.wholeRow then [.star c.label] else []) ++ c.projections.filterMap fun
    | .item i => some i
    | .field _ _ => none

/-- The select statement of the outermost query. -/
def select (condition : Expr Placeholder) (order : List (OrderTerm Placeholder))
    (limit offset : Option Placeholder) : Except QueryError (Select Placeholder) :=
  let joins := c.joins.map OwnedJoin.join
  match repeatedAlias? [c.label] (joins.map Join.label) with
  | some label => .error (.duplicateAlias label)
  | none => .ok {
      comment := none
      items := c.selectItems
      source := some ⟨c.table.name, c.label⟩
      joins := joins
      condition := condition
      order := order
      limit := limit
      offset := offset }

end Context

/-! ### Steps -/

/-- A field that was left out because the user may not read it. -/
structure Dropped where
  fragment : String
  table : String
  field : String
  deriving DecidableEq

/-- What compiling works on. -/
structure Work where
  context : Context
  aliases : Aliases
  /-- The fields left out so far. -/
  dropped : List Dropped

/-- A step that may fail, and then leaves behind what it did before. -/
abbrev Compile := EStateM QueryError Work

namespace Compile

variable {α : Type}

def ofExcept : Except QueryError α → Compile α
  | .ok a => pure a
  | .error e => throw e

/-- Change the context. -/
def onContext (f : Context → α × Context) : Compile α := fun w =>
  let (a, c) := f w.context
  .ok a { w with context := c }

/-- Change the context without a result. -/
def modifyContext (f : Context → Context) : Compile Unit := fun w =>
  .ok () { w with context := f w.context }

/-- Run a step on the context's argument list. -/
def onArguments (step : EStateM QueryError Arguments α) : Compile α := fun w =>
  match step w.context.arguments with
  | .ok a args => .ok a { w with context := { w.context with arguments := args } }
  | .error e args => .error e { w with context := { w.context with arguments := args } }

/-- Draw the next alias. -/
def drawAlias : Compile String := fun w =>
  let (label, aliases) := w.aliases.next
  .ok label { w with aliases := aliases }

/-- Bind a value. -/
def bindParam (value : Param) : Compile Placeholder := onContext fun c => c.bind value

def setCurrentUser (user : Option User) : Compile Unit := fun w =>
  match w.context.setCurrentUser user with
  | .ok c => .ok () { w with context := c }
  | .error e => .error e w

/-- What a column of a joined table is compared with. -/
def joinOperand : JoinOperand → Compile (Expr Placeholder)
  | .column name => do
    let c := (← get).context
    let _ ← ofExcept (c.table.lookupColumn name)
    return c.column name
  | .currentUserColumn name => do
    ofExcept ((← get).context.currentUserColumn name)
  | .resolverArg name => onContext fun c => c.resolverArg name
  | .value j => do return .bound (← bindParam (Param.ofJson j))

/-- The conditions of a join under an alias. -/
def joinConditions (label : String) : Entries JoinOperand → Compile (List (Expr Placeholder))
  | [] => pure []
  | (column, operand) :: rest => do
    let value ← joinOperand operand
    let conditions ← joinConditions label rest
    return .binary (.columnOf label column) .eq value :: conditions

/-- Join a table and give its alias; a join that the context has is used again. -/
def addJoin (spec : JoinSpec) : Compile String := do
  let c := (← get).context
  match c.joins.find? fun j => j.serves c.label spec with
  | some j => return j.join.label
  | none =>
    let label ← drawAlias
    let on ← joinConditions label spec.on
    modifyContext fun c =>
      { c with joins := c.joins ++ [⟨c.label, some spec, ⟨spec.kind, spec.table, label, on⟩⟩] }
    return label

/-- Fold a nested context into the context. -/
def aggregate (child : Context) (name : String) : Compile Unit := fun w =>
  match w.context.aggregate child name with
  | .ok _ c => .ok () { w with context := c }
  | .error e c => .error e { w with context := c }

end Compile

end ShapedQuery
