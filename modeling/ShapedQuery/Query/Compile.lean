import ShapedQuery.Query.Filter
import ShapedQuery.Query.Fragment
import ShapedQuery.Sql.Render

/-! # Queries

`Request.compile` turns a request into one select statement.  Values are bound in this order: the
key of the current user, what the fragment's fields need in the order of the fields, the selector,
the limit and the number of rows to skip. -/

namespace ShapedQuery

/-- A statement as it is sent: its text and the values for its placeholders. -/
structure Statement where
  sql : String
  params : List Param

/-- A compiled request. -/
structure Query where
  select : Select Placeholder
  params : List Param
  /-- The fields left out because the user may not read them, in order. -/
  dropped : List Dropped

def Query.statement (q : Query) : Statement := ⟨q.select.sql, q.params⟩

namespace Request

variable (env : Env) (r : Request)

/-- Does case not matter? -/
def caseInsensitive : Bool := r.collation.any Collation.isCaseInsensitive

/-- Bind a number of rows, if there is one. -/
def bindCount : Option UInt32 → Compile (Option Placeholder)
  | none => pure none
  | some n => do return some (← Compile.bindParam (.int n.toNat))

/-- The select statement of a request, in the context of its table. -/
def compileIn (table : NamedTable) : Compile (Select Placeholder) := do
  Compile.setCurrentUser env.user
  Compile.namedFragment env r.fragment
  let label := (← get).context.label
  let target : Target := ⟨table, some label, r.caseInsensitive⟩
  let condition ← Compile.onArguments (target.selector r.selector)
  let order ← Compile.ofExcept (table.orderBy label r.sort)
  let limit ← bindCount r.limit
  let offset ← bindCount r.skip
  let select ← Compile.ofExcept ((← get).context.select condition order limit offset)
  return { select with comment := some ("Fragment " ++ r.fragment) }

/-- Compile a request. -/
def compile (aliases : Aliases) : Except QueryError Query := do
  let fragment ← env.metadata.lookupFragment r.fragment
  let table ← env.metadata.lookupTable fragment.table
  let context := Context.root table env.settings.currentUserTable r.resolverArgs
  match compileIn env r table ⟨context, aliases, []⟩ with
  | .ok select w => .ok ⟨select, w.context.arguments.values, w.dropped⟩
  | .error e _ => .error e

end Request

end ShapedQuery
