import ShapedQuery.Config.Basic
import ShapedQuery.Query.Expression

/-! # Fragments as projections

A fragment is resolved field by field into the projections of a context.  A user who may read all
columns of a table gets its whole row; otherwise only its key and the fields asked for.  Fields
the user may not read are left out.  A relation becomes the JSON object of the related row, which
may be resolved by a fragment of its own.

Fragments may refer to each other in cycles.  The path of fragments being resolved ends the
recursion: no fragment comes twice, and no more than a given number may be nested. -/

namespace ShapedQuery

/-- The fragments that are being resolved, innermost first. -/
structure FragmentPath where
  maxDepth : Nat
  names : List String

namespace FragmentPath

def empty (maxDepth : Nat) : FragmentPath := ⟨maxDepth, []⟩

/-- Go into a fragment; the outermost one is at depth zero. -/
def enter (p : FragmentPath) (name : String) : Except QueryError FragmentPath :=
  if p.names.contains name then .error (.fragmentCycle name)
  else if p.maxDepth < p.names.length then .error (.maxDepthExceeded p.maxDepth)
  else .ok { p with names := name :: p.names }

/-- Come out of the innermost fragment. -/
def leave (p : FragmentPath) : FragmentPath := { p with names := p.names.tail }

end FragmentPath

/-- What stays the same while a query is compiled. -/
structure Env where
  metadata : Metadata
  settings : Settings
  user : Option User

namespace Compile

variable (env : Env)

/-- The columns of the context's table that the user may read, in order. -/
def readableColumns (t : Table) : List String :=
  t.columns.filterMap fun (name, _, rules) => if canRead env.user rules then some name else none

/-- May the user read all columns of a table? -/
def readsWholeRow (t : Table) : Bool := t.columns.all fun (_, _, rules) => canRead env.user rules

/-- Project the whole row if the user may read it, else the key, and if asked also the other
columns that the user may read.  Tells whether the whole row is projected. -/
def baseRow (allReadable : Bool) (c : Context) : Bool × Context :=
  if readsWholeRow env c.table.table then (true, c.addRow)
  else
    let c := c.addColumn primaryKey
    let others := (readableColumns env c.table.table).filter fun name => name != primaryKey
    (false, if allReadable then others.foldl Context.addColumn c else c)

/-- Run a step on a nested context and give back that context. -/
def inChild (child : Context) (step : Compile Unit) : Compile Context := fun w =>
  match step { w with context := child } with
  | .ok _ w' => .ok w'.context { w' with context := w.context }
  | .error e w' => .error e { w' with context := w.context }

/-- The field of a relation: `nest` resolves a fragment in a nested context. -/
def relation (nest : String → Fragment → Compile Unit) (selection : Selection) (join : JoinSpec) :
    Compile Unit := do
  let label ← addJoin join
  let table ← ofExcept (env.metadata.lookupTable join.table)
  let child := (← get).context.child table label
  match selection with
  | .field name => aggregate (baseRow env true child).2 name
  | .nested name fragmentName =>
    let fragment ← ofExcept (env.metadata.lookupFragment fragmentName)
    if fragment.table ≠ join.table then
      throw (.fragmentTableMismatch fragmentName fragment.table name join.table)
    let child ← inChild child (nest fragmentName fragment)
    aggregate child name

/-- One field that the user may read. -/
def readableField (nest : String → Fragment → Compile Unit) (wholeRow : Bool) (table : String)
    (selection : Selection) (kind : FieldKind) : Compile Unit :=
  match kind, selection with
  | .column _, .field name =>
    if !wholeRow && name != primaryKey then modifyContext fun c => c.addColumn name
    else pure ()
  | .computed e, .field name => do
    let e ← computed e
    modifyContext fun c => c.addNamed name e
  | .relation join, selection => relation env nest selection join
  | _, .nested name _ => throw (.unexpectedSubFragment table name)

/-- Note a field that is left out. -/
def drop (d : Dropped) : Compile Unit := fun w => .ok () { w with dropped := w.dropped ++ [d] }

/-- The fields of a fragment, after those already seen. -/
def selections (nest : String → Fragment → Compile Unit) (fragment : String) (wholeRow : Bool)
    (table : NamedTable) : List String → List Selection → Compile Unit
  | _, [] => pure ()
  | seen, selection :: rest => do
    let name := selection.name
    if seen.contains name then throw (.duplicateField fragment name)
    let field ← ofExcept (table.lookupField name)
    if canRead env.user field.rules then
      readableField env nest wholeRow table.name selection field.kind
    else drop ⟨fragment, table.name, name⟩
    selections nest fragment wholeRow table (name :: seen) rest

/-- Resolve a fragment in the context, with room for `room` more fragments on the path. -/
def fragment : (room : Nat) → FragmentPath → String → Fragment → Compile Unit
  | 0, path, name, _ => do
    let path ← ofExcept (path.enter name)
    throw (.maxDepthExceeded path.maxDepth)
  | room + 1, path, name, f => do
    let path ← ofExcept (path.enter name)
    let wholeRow ← onContext (baseRow env false)
    let table := (← get).context.table
    selections env (fragment room path) name wholeRow table [] f.selections

/-- Resolve the fragment with a name in the context. -/
def namedFragment (name : String) : Compile Unit := do
  let f ← ofExcept (env.metadata.lookupFragment name)
  let maxDepth := env.settings.maxFragmentDepth.toNat
  fragment env (maxDepth + 1) (.empty maxDepth) name f

end Compile

end ShapedQuery
