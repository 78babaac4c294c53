import ShapedQuery.Query.Compile

/-! # Indexes as statements

An index that is made concurrently cannot be built inside a transaction; whoever runs the
statement must see to that. -/

namespace ShapedQuery

/-- An index on a table. -/
structure TableIndex where
  table : String
  info : IndexInfo

namespace TableIndex

/-- A field in the name of an index: a dot becomes two underscores. -/
def fieldName (field : String) : String :=
  String.ofList (field.toList.flatMap fun c => if c = '.' then ['_', '_'] else [c])

variable (i : TableIndex)

/-- The name of an index says its table, its fields, and whether it is filtered or collated. -/
def name : String :=
  "idx_" ++ i.table ++ String.join (i.info.fields.keys.map fun f => "_" ++ fieldName f) ++
    (if i.info.options.partialFilter.isSome then "_filtered" else "") ++
    (if i.info.options.collation.isSome then "_ci" else "")

/-- An index over a place inside a JSON value needs another method. -/
def method : IndexMethod := if i.info.fields.keys.any isDotted then .gin else .btree

/-- An expression as text, unless it is one already. -/
def asText (textual : Bool) (e : Expr Placeholder) : Expr Placeholder :=
  if textual then e else .cast e ScalarType.text.sqlName

/-- What is indexed for a field.  Nulls never collide in a unique index, so there they count as
the empty text; with a collation case does not matter. -/
def element (table : NamedTable) (options : IndexOptions) (field : String) :
    Except QueryError (Expr Placeholder) :=
  let path := FieldPath.split field
  match table.lookupColumn path.column with
  | .error e => .error e
  | .ok column =>
    if !path.steps.isEmpty && !column.isJson then
      .error (.notAJsonColumn table.name path.column)
    else
      let plain : Expr Placeholder := .column (.bare path.column)
      let (e, textual) : Expr Placeholder × Bool :=
        if path.steps.isEmpty then (plain, column.isTextual)
        else (.path plain path.steps false, false)
      let (e, textual) : Expr Placeholder × Bool :=
        if options.unique && column.nullable then
          (.call .coalesce [asText textual e, .constant .emptyText], true)
        else (e, textual)
      .ok (if options.collation.isSome then .call .lower [asText textual e] else e)

/-- What is indexed for each of the fields. -/
def elements (table : NamedTable) (options : IndexOptions) :
    List String → Except QueryError (List (Expr Placeholder))
  | [] => .ok []
  | field :: rest =>
    match element table options field with
    | .error e => .error e
    | .ok e =>
      match elements table options rest with
      | .error e => .error e
      | .ok es => .ok (e :: es)

/-- The condition of a filtered index. -/
def condition (table : NamedTable) : Bind (Expr Placeholder) :=
  match i.info.options.partialFilter with
  | none => pure .isTrue
  | some filter => Target.filter ⟨table, none, false⟩ filter

/-- The statement that creates an index, and its values. -/
def create (m : Metadata) : Except QueryError (CreateIndex Placeholder × List Param) := do
  let table ← m.lookupTable i.table
  if i.info.options.unique ∧ i.method = .gin then throw (.uniqueJsonIndex i.name)
  let elements ← elements table i.info.options i.info.fields.keys
  match i.condition table .empty with
  | .error e _ => throw e
  | .ok condition args =>
    return ({
      name := i.name
      table := table.name
      unique := i.info.options.unique
      concurrently := i.info.options.concurrently
      ifNotExists := true
      method := i.method
      elements := elements
      condition := condition }, args.values)

/-- The statement that creates an index, as it is sent. -/
def createStatement (m : Metadata) : Except QueryError Statement :=
  (i.create m).map fun (c, params) => ⟨c.sql, params⟩

/-- The statement that drops an index. -/
def drop : DropIndex := ⟨i.name, false⟩

end TableIndex

/-- The statements that create the given indexes of a table. -/
def Metadata.createIndexes (m : Metadata) (table : String) :
    List IndexInfo → Except QueryError (List Statement)
  | [] => .ok []
  | info :: rest =>
    match TableIndex.createStatement ⟨table, info⟩ m with
    | .error e => .error e
    | .ok s =>
      match m.createIndexes table rest with
      | .error e => .error e
      | .ok ss => .ok (s :: ss)

/-- The statements that create all indexes declared on a table. -/
def Metadata.tableIndexes (m : Metadata) (table : String) : Except QueryError (List Statement) :=
  match m.lookupTable table with
  | .error e => .error e
  | .ok t => m.createIndexes table t.table.indexes

end ShapedQuery
