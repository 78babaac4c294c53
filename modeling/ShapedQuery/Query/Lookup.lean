import ShapedQuery.Metadata.Table
import ShapedQuery.Query.Error

/-! # Looking up names in the metadata -/

namespace ShapedQuery

/-- A table and its name. -/
structure NamedTable where
  name : String
  table : Table

namespace Metadata

variable (m : Metadata)

def lookupTable (name : String) : Except QueryError NamedTable :=
  match m.tables.get? name with
  | some table => .ok ⟨name, table⟩
  | none => .error (.tableNotFound name)

def lookupFragment (name : String) : Except QueryError Fragment :=
  match m.fragments.get? name with
  | some fragment => .ok fragment
  | none => .error (.fragmentNotFound name)

end Metadata

namespace NamedTable

variable (t : NamedTable)

def lookupField (name : String) : Except QueryError Field :=
  match t.table.fields.get? name with
  | some field => .ok field
  | none => .error (.fieldNotFound t.name name)

def lookupColumn (name : String) : Except QueryError Column :=
  match t.table.column? name with
  | some column => .ok column
  | none => .error (.columnNotFound t.name name)

end NamedTable

end ShapedQuery
