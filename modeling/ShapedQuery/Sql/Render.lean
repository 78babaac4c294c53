import ShapedQuery.Sql.Arguments
import ShapedQuery.Sql.Piece
import ShapedQuery.Sql.Statement

/-! # Statements as text

How expressions and statements are written, as rows of pieces.  An operand that is itself an
operation stands in parentheses, so no precedence of operators is relied on.  A JSON object is
put together from calls that take at most 100 arguments each, hence at most 50 fields. -/

namespace ShapedQuery

open Piece (separated)

/-! ### Words -/

def BinaryOp.text : BinaryOp → String
  | .eq => " = "
  | .ne => " <> "
  | .distinctFrom => " IS DISTINCT FROM "
  | .lt => " < "
  | .le => " <= "
  | .gt => " > "
  | .ge => " >= "
  | .contains => " @> "
  | .overlaps => " && "
  | .add => " + "
  | .sub => " - "
  | .mul => " * "
  | .div => " / "

def Test.text : Test → String
  | .null => " IS NULL"
  | .notNull => " IS NOT NULL"
  | .true => " IS TRUE"
  | .notTrue => " IS NOT TRUE"
  | .false => " IS FALSE"
  | .notFalse => " IS NOT FALSE"

def Function.text : Function → String
  | .coalesce => "COALESCE"
  | .lower => "LOWER"
  | .arrayLength => "ARRAY_LENGTH"
  | .named name => name

def Direction.text : Direction → String
  | .ascending => " ASC"
  | .descending => " DESC"

def NullsOrder.text : NullsOrder → String
  | .first => " NULLS FIRST"
  | .last => " NULLS LAST"

def IndexMethod.text : IndexMethod → String
  | .btree => "btree"
  | .gin => "gin"

def JoinKind.text : JoinKind → String
  | .left => "LEFT JOIN "
  | .inner => "INNER JOIN "

/-! ### Expressions -/

def Constant.pieces : Constant → List Piece
  | .null => [.plain "NULL"]
  | .bool true => [.plain "TRUE"]
  | .bool false => [.plain "FALSE"]
  | .int n => [.plain (toString n)]
  | .emptyText => [.literal ""]

def ColumnRef.pieces : ColumnRef → List Piece
  | .qualified table name => [.name table, .plain ".", .name name]
  | .bare name => [.name name]

def PathStep.piece : PathStep → Piece
  | .key name => .literal name
  | .index n => .plain (toString n)

/-- The steps of a JSON path; the last one may ask for text. -/
def pathPieces (asText : Bool) : List PathStep → List Piece
  | [] => []
  | [step] => [.plain (if asText then "->>" else "->"), step.piece]
  | step :: steps => .plain "->" :: step.piece :: pathPieces asText steps

/-- How many fields one call takes. -/
def maxFieldsPerCall : Nat := 50

/-- Cut a list into pieces of at most 50. -/
def chunks {α : Type} (xs : List α) : List (List α) :=
  if xs.isEmpty then [] else xs.take maxFieldsPerCall :: chunks (xs.drop maxFieldsPerCall)
termination_by xs.length
decreasing_by
  rename_i h
  cases xs with
  | nil => exact absurd rfl h
  | cons x xs =>
    simp only [maxFieldsPerCall, List.length_drop, List.length_cons]
    omega

/-- A row and fields, each already written, as one JSON object. -/
def objectPieces (row : Option String) (fields : List (List Piece)) : List Piece :=
  let rowPart : List (List Piece) := match row with
    | some label => [[.plain "TO_JSONB(", .name label, .plain ".*)"]]
    | none => []
  let calls := (chunks fields).map fun chunk =>
    .plain "JSONB_BUILD_OBJECT( " :: (separated ", " chunk ++ [.plain " )"])
  match rowPart ++ calls with
  | [] => [.plain "(", .literal "\x7b\x7d", .plain "::JSONB", .plain ")"]
  | parts => .plain "(" :: (separated " || " parts ++ [.plain ")"])

/-- Conditions joined by a word; `unit` stands for no conditions at all. -/
def connective (word unit : String) : List (List Piece) → List Piece
  | [] => [.plain unit]
  | conditions => .plain "( " :: (separated word conditions ++ [.plain " )"])

/-- An operand, given how it is written on its own. -/
def grouped {π : Type} (e : Expr π) (pieces : List Piece) : List Piece :=
  if e.isOperation then .plain "( " :: (pieces ++ [.plain " )"]) else pieces

namespace Expr

mutual

/-- How an expression is written. -/
def pieces : Expr Nat → List Piece
  | .all es => connective " AND " "TRUE" (piecesAll es)
  | .any es => connective " OR " "FALSE" (piecesAll es)
  | .not e => .plain "NOT ( " :: (pieces e ++ [.plain " )"])
  | .binary l op r => grouped l (pieces l) ++ .plain op.text :: grouped r (pieces r)
  | .isIn l es =>
    pieces l ++ .plain " IN " :: .plain "( " :: (separated " , " (piecesAll es) ++ [.plain " )"])
  | .test e t => grouped e (pieces e) ++ [.plain t.text]
  | .call f es => .plain f.text :: .plain "(" :: (separated ", " (piecesAll es) ++ [.plain ")"])
  | .array es => .plain "ARRAY[ " :: (separated " , " (piecesAll es) ++ [.plain " ]"])
  | .column c => c.pieces
  | .path e steps asText => .plain "(" :: (pieces e ++ pathPieces asText steps ++ [.plain ")"])
  | .cases c y n =>
    .plain "CASE WHEN " :: (pieces c ++ .plain " THEN " :: (pieces y ++
      .plain " ELSE " :: (pieces n ++ [.plain " END"])))
  | .object row fields => objectPieces row (piecesFields fields)
  | .cast e type => grouped e (pieces e) ++ [.plain "::", .plain type]
  | .constant c => c.pieces
  | .bound index => [.placeholder index]

def piecesAll : List (Expr Nat) → List (List Piece)
  | [] => []
  | e :: es => pieces e :: piecesAll es

/-- Each field as its key and its value. -/
def piecesFields : List (String × Expr Nat) → List (List Piece)
  | [] => []
  | (k, e) :: es => (.literal k :: .plain ", " :: pieces e) :: piecesFields es

end

end Expr

/-! ### Statements -/

def SelectItem.pieces : SelectItem Nat → List Piece
  | .star table => [.name table, .plain ".*"]
  | .column c => c.pieces
  | .named e name => e.pieces ++ [.plain " ", .name name]

def Join.pieces (j : Join Nat) : List Piece :=
  [.plain j.kind.text, .name j.table, .plain " ", .name j.label, .plain " ON "] ++
    match j.on with
    | [] => [.plain "TRUE"]
    | on => separated " AND " (on.map Expr.pieces)

/-- A condition that is always true is not written. -/
def wherePieces (condition : Expr Nat) : List Piece :=
  if condition.isTrueConstant then [] else .plain " WHERE " :: condition.pieces

def OrderTerm.pieces (t : OrderTerm Nat) : List Piece :=
  t.target.pieces ++ .plain t.direction.text ::
    match t.nulls with
    | some nulls => [.plain nulls.text]
    | none => []

def orderPieces : List (OrderTerm Nat) → List Piece
  | [] => []
  | terms => .plain " ORDER BY " :: separated ", " (terms.map OrderTerm.pieces)

/-- A word and the number behind it, if there is one. -/
def boundPieces (word : String) : Option Nat → List Piece
  | some index => [.plain word, .placeholder index]
  | none => []

def Select.pieces (s : Select Nat) : List Piece :=
  (match s.comment with
    | some comment => [.comment comment]
    | none => []) ++
  .plain "SELECT " :: separated ", " (s.items.map SelectItem.pieces) ++
  (match s.source with
    | some source => [.plain " FROM ", .name source.table, .plain " ", .name source.label]
    | none => []) ++
  s.joins.flatMap (fun j => .plain " " :: j.pieces) ++
  wherePieces s.condition ++ orderPieces s.order ++
  boundPieces " LIMIT " s.limit ++ boundPieces " OFFSET " s.offset

/-- A word that is written or not. -/
def optionalWord (b : Bool) (word : String) : List Piece := if b then [.plain word] else []

def CreateIndex.pieces (c : CreateIndex Nat) : List Piece :=
  .plain "CREATE " :: optionalWord c.unique "UNIQUE " ++ .plain "INDEX " ::
    optionalWord c.concurrently "CONCURRENTLY " ++ optionalWord c.ifNotExists "IF NOT EXISTS " ++
  [.name c.name, .plain " ON ", .name c.table, .plain " USING ", .plain c.method.text,
    .plain " ( "] ++ separated " , " (c.elements.map Expr.pieces) ++ [.plain " )"] ++
  wherePieces c.condition

def DropIndex.pieces (d : DropIndex) : List Piece :=
  .plain "DROP INDEX " :: optionalWord d.ifExists "IF EXISTS " ++ [.name d.name]

/-! ### Text -/

def Expr.sql (e : Expr Placeholder) : String := Piece.text (e.map Placeholder.index).pieces

def SelectItem.sql (i : SelectItem Placeholder) : String :=
  Piece.text (i.map Placeholder.index).pieces

def Join.sql (j : Join Placeholder) : String := Piece.text (j.map Placeholder.index).pieces

def Select.sql (s : Select Placeholder) : String := Piece.text (s.map Placeholder.index).pieces

def CreateIndex.sql (c : CreateIndex Placeholder) : String :=
  Piece.text (c.map Placeholder.index).pieces

def DropIndex.sql (d : DropIndex) : String := Piece.text d.pieces

/-- The text of an `ORDER BY` clause, with a blank in front unless it is empty. -/
def orderSql (terms : List (OrderTerm Placeholder)) : String :=
  Piece.text (orderPieces (terms.map (OrderTerm.map Placeholder.index)))

end ShapedQuery
