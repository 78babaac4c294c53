import ShapedQuery.Sql.Expr

/-! # Dotted field names

A selector or an index may name a place inside a JSON column: `c.d.0` is the item `0` of the
value under `d` in the column `c`. -/

namespace ShapedQuery

namespace FieldPath

/-- The parts between the dots, at least one. -/
def segments : List Char → List (List Char)
  | [] => [[]]
  | c :: cs =>
    if c = '.' then [] :: segments cs
    else match segments cs with
      | [] => [[c]]
      | s :: ss => (c :: s) :: ss

/-- The largest position in an array. -/
def maxIndex : Nat := 4294967295

/-- A position in an array: digits, perhaps after a plus sign. -/
def index? (cs : List Char) : Option Nat :=
  let digits := match cs with
    | '+' :: ds => ds
    | ds => ds
  if !digits.isEmpty && digits.all Char.isDigit then
    let n := digits.foldl (fun n c => n * 10 + (c.toNat - '0'.toNat)) 0
    if n ≤ maxIndex then some n else none
  else none

/-- A step into a JSON value. -/
def step (cs : List Char) : PathStep :=
  match index? cs with
  | some n => .index n
  | none => .key (String.ofList cs)

end FieldPath

/-- Does a name lead to a place inside a column? -/
def isDotted (field : String) : Bool := field.toList.contains '.'

/-- A column and the way to a place inside it. -/
structure FieldPath where
  column : String
  steps : List PathStep
  deriving DecidableEq

/-- Split a dotted name. -/
def FieldPath.split (field : String) : FieldPath :=
  match segments field.toList with
  | [] => ⟨field, []⟩
  | column :: rest => ⟨String.ofList column, rest.map step⟩

end ShapedQuery
