import ShapedQuery.Metadata.Column
import ShapedQuery.Metadata.Computed
import ShapedQuery.Metadata.Index
import ShapedQuery.Metadata.Permission

/-! # Tables, fragments and the metadata

A table has named fields: its columns, expressions computed from them, and relations to rows of
other tables.  A fragment is a list of fields of a table that may be asked for by name; in a
relation it may go on with another fragment. -/

namespace ShapedQuery

/-- What a field is. -/
inductive FieldKind where
  | column (c : Column)
  | computed (e : Computed)
  | relation (join : JoinSpec)

/-- A field, and who may read it. -/
structure Field where
  kind : FieldKind
  rules : List Permission

/-- A table: its fields and indexes. -/
structure Table where
  fields : Entries Field
  indexes : List IndexInfo

namespace Table

/-- The column with a name; other kinds of fields do not count. -/
def column? (t : Table) (name : String) : Option Column :=
  match t.fields.get? name with
  | some ⟨.column c, _⟩ => some c
  | _ => none

/-- The columns in order, with their rules. -/
def columns (t : Table) : List (String × Column × List Permission) :=
  t.fields.filterMap fun (name, field) =>
    match field.kind with
    | .column c => some (name, c, field.rules)
    | _ => none

end Table

/-- A field that a fragment asks for, in a relation with a fragment of its own. -/
inductive Selection where
  | field (name : String)
  | nested (name fragment : String)
  deriving DecidableEq

def Selection.name : Selection → String
  | .field name => name
  | .nested name _ => name

/-- The fields asked for from a table. -/
structure Fragment where
  table : String
  selections : List Selection
  deriving DecidableEq

/-- All tables and fragments, by name. -/
structure Metadata where
  tables : Entries Table
  fragments : Entries Fragment

/-- No tables and no fragments. -/
def Metadata.empty : Metadata := ⟨[], []⟩

end ShapedQuery
