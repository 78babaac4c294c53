import ShapedQuery.Sql.Arguments

/-! # Why a query cannot be compiled -/

namespace ShapedQuery

/-- What an operator of a selector asks of its operand. -/
inductive Expectation where
  | arrayOfObjects
  | arrayOrObject
  | scalar
  | array
  | arrayOrJsonField
  | boolean
  | operatorObject
  | arrayField
  | nonNegativeInteger
  deriving DecidableEq

def Expectation.message : Expectation → String
  | .arrayOfObjects => "expected an array of objects"
  | .arrayOrObject => "expected an array or an object"
  | .scalar => "expected a scalar value"
  | .array => "expected an array"
  | .arrayOrJsonField => "expected an array or JSON field"
  | .boolean => "expected a boolean"
  | .operatorObject => "expected an operator object"
  | .arrayField => "expected an array field"
  | .nonNegativeInteger => "expected a non-negative integer"

/-- Why a query or an index cannot be compiled. -/
inductive QueryError where
  | tableNotFound (table : String)
  | fragmentNotFound (fragment : String)
  | fieldNotFound (table field : String)
  | columnNotFound (table column : String)
  | duplicateField (fragment field : String)
  | unexpectedSubFragment (table field : String)
  | fragmentTableMismatch (fragment fragmentTable field table : String)
  | fragmentCycle (fragment : String)
  | maxDepthExceeded (limit : Nat)
  | duplicateAlias (label : String)
  | currentUserNotSet
  | currentUserAlreadySet
  | currentUserInNestedContext
  | invalidFunctionName (name : String)
  | unsupportedOperator (operator : String)
  | invalidOperand (operator : String) (expectation : Expectation)
  | notAJsonColumn (table column : String)
  | uniqueJsonIndex (index : String)
  | offsetMismatch (m : OffsetMismatch)
  deriving DecidableEq

def OffsetMismatch.message (m : OffsetMismatch) : String :=
  s!"argument offset mismatch: expected nested arguments to start after {m.expected}, " ++
    s!"but they start after {m.found}"

/-- The words for an error. -/
def QueryError.message : QueryError → String
  | .tableNotFound table => s!"table '{table}' not found"
  | .fragmentNotFound fragment => s!"fragment '{fragment}' not found"
  | .fieldNotFound table field => s!"field '{field}' not found in table '{table}'"
  | .columnNotFound table column => s!"column '{column}' not found in table '{table}'"
  | .duplicateField fragment field =>
    s!"field '{field}' is requested more than once in fragment '{fragment}'"
  | .unexpectedSubFragment table field =>
    s!"field '{field}' of table '{table}' is not a relation and cannot take a sub-fragment"
  | .fragmentTableMismatch fragment fragmentTable field table =>
    s!"fragment '{fragment}' is defined on table '{fragmentTable}', " ++
      s!"but field '{field}' relates to table '{table}'"
  | .fragmentCycle fragment => s!"fragment '{fragment}' nests itself"
  | .maxDepthExceeded limit =>
    s!"fragments are nested deeper than the maximum depth of {limit}"
  | .duplicateAlias label => s!"table alias '{label}' is used more than once"
  | .currentUserNotSet => "the current user has not been set"
  | .currentUserAlreadySet => "the current user has already been set"
  | .currentUserInNestedContext => "the current user can only be set on the outermost query"
  | .invalidFunctionName name => s!"'{name}' is not a valid function name"
  | .unsupportedOperator operator => s!"unsupported operator '{operator}'"
  | .invalidOperand operator expectation =>
    s!"invalid operand for '{operator}': {expectation.message}"
  | .notAJsonColumn table column =>
    s!"column '{column}' of table '{table}' is not a JSON column"
  | .uniqueJsonIndex index => s!"not supported: unique index '{index}' over a JSON path"
  | .offsetMismatch m => m.message

end ShapedQuery
