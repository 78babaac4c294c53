import ShapedQuery.Json.Reader
import ShapedQuery.Metadata.Column

/-! # Columns in JSON

A type is an object with one key, `scalar_type` or `array_type`.  A column is written with its
type and with `Nullable` or `NonNullable`; the first is meant if neither is there. -/

namespace ShapedQuery

namespace ScalarType

/-- The name of each type. -/
def names : List (String × ScalarType) :=
  [("boolean", .boolean), ("smallint", .smallint), ("integer", .integer), ("bigint", .bigint),
    ("real", .real), ("double precision", .doublePrecision), ("numeric", .numeric),
    ("character", .character), ("character varying", .varchar), ("text", .text),
    ("json", .json), ("jsonb", .jsonb), ("date", .date),
    ("timestamp with time zone", .timestamptz), ("timestamp without time zone", .timestamp),
    ("uuid", .uuid)]

def name : ScalarType → String
  | .boolean => "boolean"
  | .smallint => "smallint"
  | .integer => "integer"
  | .bigint => "bigint"
  | .real => "real"
  | .doublePrecision => "double precision"
  | .numeric => "numeric"
  | .character => "character"
  | .varchar => "character varying"
  | .text => "text"
  | .json => "json"
  | .jsonb => "jsonb"
  | .date => "date"
  | .timestamptz => "timestamp with time zone"
  | .timestamp => "timestamp without time zone"
  | .uuid => "uuid"

def read (d : Doc) : Read ScalarType := d.oneOf names

theorem get?_names_name (t : ScalarType) : Entries.get? names t.name = some t := by
  cases t <;> rfl

end ScalarType

namespace ColumnType

/-- Read a type whose document is nested at most `depth` deep. -/
def readWithin : Nat → Doc → Read ColumnType
  | 0, d => d.reject
  | depth + 1, d =>
    match d.single with
    | .error f => .error f
    | .ok (key, value) =>
      if key = "scalar_type" then (ScalarType.read value).map .scalar
      else if key = "array_type" then (readWithin depth value).map .array
      else d.reject

def read (d : Doc) : Read ColumnType := readWithin d.depth d

def json : ColumnType → Json
  | .scalar type => .obj [("scalar_type", .str type.name)]
  | .array items => .obj [("array_type", items.json)]

end ColumnType

namespace Column

/-- The words for whether a column may be null. -/
def nullableNames : List (String × Bool) := [("Nullable", true), ("NonNullable", false)]

def fields : Fields [ColumnType, Bool] :=
  .field "type" ColumnType.read <| .field "nullable" (Doc.oneOf nullableNames) .done

/-- The column with these fields, closing on `line`. -/
def ofSlots (line : Nat) : Slots [ColumnType, Bool] → Read Column
  | (type, nullable, _) => (required line type).map fun type => ⟨type, nullable.getD true⟩

def entries (c : Column) : Entries Json :=
  [("type", c.type.json), ("nullable", .str (if c.nullable then "Nullable" else "NonNullable"))]

def json (c : Column) : Json := .obj c.entries

end Column

end ShapedQuery
