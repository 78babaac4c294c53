/-! # Column types -/

namespace ShapedQuery

/-- The types of single values. -/
inductive ScalarType where
  | boolean
  | smallint
  | integer
  | bigint
  | real
  | doublePrecision
  | numeric
  | character
  | varchar
  | text
  | json
  | jsonb
  | date
  | timestamptz
  | timestamp
  | uuid
  deriving DecidableEq

namespace ScalarType

/-- The name of a type in a cast. -/
def sqlName : ScalarType → String
  | .boolean => "BOOLEAN"
  | .smallint => "SMALLINT"
  | .integer => "INTEGER"
  | .bigint => "BIGINT"
  | .real => "REAL"
  | .doublePrecision => "DOUBLE PRECISION"
  | .numeric => "NUMERIC"
  | .character => "CHARACTER"
  | .varchar => "VARCHAR"
  | .text => "TEXT"
  | .json => "JSON"
  | .jsonb => "JSONB"
  | .date => "DATE"
  | .timestamptz => "TIMESTAMPTZ"
  | .timestamp => "TIMESTAMP"
  | .uuid => "UUID"

/-- Is a value of the type a text? -/
def isTextual : ScalarType → Bool
  | .character => true
  | .varchar => true
  | .text => true
  | _ => false

/-- Is a value of the type a JSON value? -/
def isJson : ScalarType → Bool
  | .json => true
  | .jsonb => true
  | _ => false

end ScalarType

/-- The type of a column: of one value, or an array. -/
inductive ColumnType where
  | scalar (type : ScalarType)
  | array (items : ColumnType)
  deriving DecidableEq

namespace ColumnType

def scalar? : ColumnType → Option ScalarType
  | .scalar type => some type
  | .array _ => none

def isArray : ColumnType → Bool
  | .array _ => true
  | .scalar _ => false

/-- The type of an array's items, if they are single values. -/
def item? : ColumnType → Option ScalarType
  | .array items => items.scalar?
  | .scalar _ => none

end ColumnType

/-- A column of a table. -/
structure Column where
  type : ColumnType
  nullable : Bool
  deriving DecidableEq

namespace Column

/-- Does the column hold single texts? -/
def isTextual (c : Column) : Bool := c.type.scalar?.any ScalarType.isTextual

/-- Does the column hold single JSON values? -/
def isJson (c : Column) : Bool := c.type.scalar?.any ScalarType.isJson

end Column

end ShapedQuery
