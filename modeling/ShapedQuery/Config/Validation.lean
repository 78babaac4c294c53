import ShapedQuery.Config.Basic
import ShapedQuery.Query.FieldPath

/-! # Checking configurations

`Configuration.issues` finds every reference in a configuration that leads nowhere: first table
by table, each field and then each index in order, then fragment by fragment, and last the table
of the current user. -/

namespace ShapedQuery

/-- Something wrong in a configuration. -/
inductive Issue where
  | missingPrimaryKey (table : String)
  | unknownTable (table field referenced : String)
  | unknownColumn (table field referencedTable column : String)
  | invalidFunctionName (table field function : String)
  | unknownIndexColumn (table column : String)
  | unknownFragmentTable (fragment table : String)
  | unknownFragmentField (fragment field : String)
  | unknownNestedFragment (fragment field nested : String)
  | nestedFragmentOnNonRelation (fragment field : String)
  | unknownCurrentUserTable (table : String)
  deriving DecidableEq

/-- The words for an issue. -/
def Issue.message : Issue → String
  | .missingPrimaryKey table => s!"table '{table}' has no '_id' column"
  | .unknownTable table field referenced =>
    s!"field '{table}.{field}' refers to unknown table '{referenced}'"
  | .unknownColumn table field referencedTable column =>
    s!"field '{table}.{field}' refers to unknown column '{referencedTable}.{column}'"
  | .invalidFunctionName table field function =>
    s!"field '{table}.{field}' calls '{function}', which is not a valid function name"
  | .unknownIndexColumn table column =>
    s!"index on table '{table}' refers to unknown column '{column}'"
  | .unknownFragmentTable fragment table =>
    s!"fragment '{fragment}' is defined on unknown table '{table}'"
  | .unknownFragmentField fragment field =>
    s!"fragment '{fragment}' requests unknown field '{field}'"
  | .unknownNestedFragment fragment field nested =>
    s!"fragment '{fragment}' nests unknown fragment '{nested}' in field '{field}'"
  | .nestedFragmentOnNonRelation fragment field =>
    s!"fragment '{fragment}' nests a fragment in '{field}', which is not a relation"
  | .unknownCurrentUserTable table => s!"the current user table '{table}' is not a known table"

/-- The words for several issues together. -/
def Issue.report (issues : List Issue) : String :=
  "invalid metadata:" ++ String.join (issues.map fun i => "\n  - " ++ i.message)

/-! ### Fields -/

/-- A field whose definition is looked at. -/
structure FieldSite where
  metadata : Metadata
  tableName : String
  table : Table
  field : String

namespace FieldSite

variable (s : FieldSite)

/-- A column that a table should have. -/
def columnIssues (tableName : String) (table : Table) (column : String) : List Issue :=
  if (table.column? column).isSome then []
  else [.unknownColumn s.tableName s.field tableName column]

/-- A column of the field's own table. -/
def ownColumnIssues (column : String) : List Issue := s.columnIssues s.tableName s.table column

/-- A join: its operands, its table, the columns it compares, and one more column if asked. -/
def joinIssues (join : JoinSpec) (columns : List String) : List Issue :=
  (join.on.flatMap fun (_, operand) =>
    match operand with
    | .column name => s.ownColumnIssues name
    | _ => []) ++
  match s.metadata.tables.get? join.table with
  | none => [.unknownTable s.tableName s.field join.table]
  | some joined => (join.on.keys ++ columns).flatMap (s.columnIssues join.table joined)

mutual

def computedIssues : Computed → List Issue
  | .column name => s.ownColumnIssues name
  | .currentUserColumn _ => []
  | .resolverArg _ => []
  | .value _ => []
  | .joinedColumn join column => s.joinIssues join [column]
  | .joinedRow join => s.joinIssues join []
  | .call function arguments =>
    (if isIdentifier function then []
      else [.invalidFunctionName s.tableName s.field function]) ++ computedIssuesAll arguments
  | .binary left _ right => computedIssues left ++ computedIssues right
  | .isNull e => computedIssues e

def computedIssuesAll : List Computed → List Issue
  | [] => []
  | e :: es => computedIssues e ++ computedIssuesAll es

end

def kindIssues : FieldKind → List Issue
  | .column _ => []
  | .computed e => s.computedIssues e
  | .relation join => s.joinIssues join []

end FieldSite

/-! ### Tables and fragments -/

namespace Metadata

variable (m : Metadata)

/-- A field of an index names a column, or a place inside one. -/
def indexIssues (name : String) (table : Table) (index : IndexInfo) : List Issue :=
  index.fields.keys.flatMap fun field =>
    let column := (FieldPath.split field).column
    if (table.column? column).isSome then [] else [.unknownIndexColumn name column]

def tableIssues (name : String) (table : Table) : List Issue :=
  (if (table.column? primaryKey).isSome then [] else [.missingPrimaryKey name]) ++
    (table.fields.flatMap fun (field, info) =>
      FieldSite.kindIssues ⟨m, name, table, field⟩ info.kind) ++
    table.indexes.flatMap (indexIssues name table)

def selectionIssues (fragment : String) (table : Table) (selection : Selection) : List Issue :=
  match table.fields.get? selection.name, selection with
  | none, _ => [.unknownFragmentField fragment selection.name]
  | some _, .field _ => []
  | some field, .nested name nested =>
    (match field.kind with
      | .relation _ => []
      | _ => [.nestedFragmentOnNonRelation fragment name]) ++
    if m.fragments.has nested then [] else [.unknownNestedFragment fragment name nested]

def fragmentIssues (name : String) (fragment : Fragment) : List Issue :=
  match m.tables.get? fragment.table with
  | none => [.unknownFragmentTable name fragment.table]
  | some table => fragment.selections.flatMap (m.selectionIssues name table)

/-- What is wrong in the metadata. -/
def issues : List Issue :=
  (m.tables.flatMap fun (name, table) => m.tableIssues name table) ++
    m.fragments.flatMap fun (name, fragment) => m.fragmentIssues name fragment

end Metadata

/-- What is wrong in a configuration. -/
def Configuration.issues (c : Configuration) : List Issue :=
  c.metadata.issues ++
    if c.metadata.tables.has c.settings.currentUserTable then []
    else [.unknownCurrentUserTable c.settings.currentUserTable]

/-- A configuration that can be used: its references all lead somewhere. -/
structure RuntimeConfiguration where
  metadata : Metadata
  settings : Settings

/-- Check a configuration; if it cannot be used, all that is wrong is told. -/
def Configuration.validate (c : Configuration) : Except (List Issue) RuntimeConfiguration :=
  match c.issues with
  | [] => .ok ⟨c.metadata, c.settings⟩
  | issues => .error issues

end ShapedQuery
