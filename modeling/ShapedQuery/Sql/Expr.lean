/-! # SQL expressions

The scalar expressions of a statement.  What stands at a placeholder is a parameter of the type:
the placeholders themselves while a query is compiled, and only their numbers when it is written.
`Expr.map` changes it. -/

namespace ShapedQuery

/-- A column, of an aliased table or of the only table there is. -/
inductive ColumnRef where
  | qualified (table name : String)
  | bare (name : String)
  deriving DecidableEq

/-- Operators between two expressions. -/
inductive BinaryOp where
  | eq
  | ne
  | distinctFrom
  | lt
  | le
  | gt
  | ge
  | contains
  | overlaps
  | add
  | sub
  | mul
  | div
  deriving DecidableEq

/-- Tests behind an expression. -/
inductive Test where
  | null
  | notNull
  | true
  | notTrue
  | false
  | notFalse
  deriving DecidableEq

/-- Functions: the compiler's own, and those that the metadata names. -/
inductive Function where
  | coalesce
  | lower
  | arrayLength
  | named (name : String)
  deriving DecidableEq

/-- A step into a JSON value. -/
inductive PathStep where
  | key (name : String)
  | index (n : Nat)
  deriving DecidableEq

/-- The constants that the compiler itself writes.  No string of a caller is among them. -/
inductive Constant where
  | null
  | bool (b : Bool)
  | int (n : Int)
  | emptyText
  deriving DecidableEq

/-- A scalar expression with placeholders in `π`. -/
inductive Expr (π : Type) where
  | all (es : List (Expr π))
  | any (es : List (Expr π))
  | not (e : Expr π)
  | binary (left : Expr π) (op : BinaryOp) (right : Expr π)
  | isIn (left : Expr π) (items : List (Expr π))
  | test (e : Expr π) (test : Test)
  | call (function : Function) (args : List (Expr π))
  | array (items : List (Expr π))
  | column (c : ColumnRef)
  | path (e : Expr π) (steps : List PathStep) (asText : Bool)
  | cases (condition yes no : Expr π)
  | object (row : Option String) (fields : List (String × Expr π))
  | cast (e : Expr π) (type : String)
  | constant (c : Constant)
  | bound (p : π)

namespace Expr

variable {π ρ : Type}

instance : Inhabited (Expr π) := ⟨.constant .null⟩

/-! ### Building expressions -/

def isTrue : Expr π := .constant (.bool true)

def isFalse : Expr π := .constant (.bool false)

/-- All of the conditions: true for none, the condition itself for one. -/
def allOf : List (Expr π) → Expr π
  | [] => isTrue
  | [e] => e
  | es => .all es

/-- One of the conditions: false for none, the condition itself for one. -/
def anyOf : List (Expr π) → Expr π
  | [] => isFalse
  | [e] => e
  | es => .any es

/-- The column of an aliased table. -/
def columnOf (table name : String) : Expr π := .column (.qualified table name)

/-- A related row as a JSON object, or null if there is no such row, which shows in its key. -/
def relatedRow (table key : String) (row : Option String) (fields : List (String × Expr π)) :
    Expr π :=
  .cases (.test (columnOf table key) .null) (.constant .null) (.object row fields)

/-- An operation: as an operand it is written in parentheses. -/
def isOperation : Expr π → Bool
  | .binary .. => true
  | .isIn .. => true
  | .test .. => true
  | .not _ => true
  | _ => false

/-! ### Changing what stands at placeholders -/

mutual

/-- Replace what stands at each placeholder. -/
def map (f : π → ρ) : Expr π → Expr ρ
  | .all es => .all (mapAll f es)
  | .any es => .any (mapAll f es)
  | .not e => .not (map f e)
  | .binary l op r => .binary (map f l) op (map f r)
  | .isIn l es => .isIn (map f l) (mapAll f es)
  | .test e t => .test (map f e) t
  | .call g es => .call g (mapAll f es)
  | .array es => .array (mapAll f es)
  | .column c => .column c
  | .path e steps asText => .path (map f e) steps asText
  | .cases c y n => .cases (map f c) (map f y) (map f n)
  | .object row fields => .object row (mapFields f fields)
  | .cast e type => .cast (map f e) type
  | .constant c => .constant c
  | .bound p => .bound (f p)

def mapAll (f : π → ρ) : List (Expr π) → List (Expr ρ)
  | [] => []
  | e :: es => map f e :: mapAll f es

def mapFields (f : π → ρ) : List (String × Expr π) → List (String × Expr ρ)
  | [] => []
  | (k, e) :: es => (k, map f e) :: mapFields f es

end

theorem mapAll_eq (f : π → ρ) (es : List (Expr π)) : mapAll f es = es.map (map f) := by
  induction es with
  | nil => rfl
  | cons e es ih => simp [mapAll, ih]

theorem mapFields_eq (f : π → ρ) (es : List (String × Expr π)) :
    mapFields f es = es.map fun (k, e) => (k, map f e) := by
  induction es with
  | nil => rfl
  | cons e es ih => simp [mapFields, ih]

/-! ### Equality -/

section equality

variable [DecidableEq π]

mutual

/-- Are two expressions the same? -/
def beq : Expr π → Expr π → Bool
  | .all es, .all fs => beqAll es fs
  | .any es, .any fs => beqAll es fs
  | .not e, .not f => beq e f
  | .binary l op r, .binary l' op' r' => beq l l' && decide (op = op') && beq r r'
  | .isIn l es, .isIn l' fs => beq l l' && beqAll es fs
  | .test e t, .test f t' => beq e f && decide (t = t')
  | .call g es, .call g' fs => decide (g = g') && beqAll es fs
  | .array es, .array fs => beqAll es fs
  | .column c, .column c' => decide (c = c')
  | .path e steps asText, .path f steps' asText' =>
    beq e f && decide (steps = steps') && decide (asText = asText')
  | .cases c y n, .cases c' y' n' => beq c c' && beq y y' && beq n n'
  | .object row fields, .object row' fields' => decide (row = row') && beqFields fields fields'
  | .cast e type, .cast f type' => beq e f && decide (type = type')
  | .constant c, .constant c' => decide (c = c')
  | .bound p, .bound p' => decide (p = p')
  | _, _ => false

def beqAll : List (Expr π) → List (Expr π) → Bool
  | [], [] => true
  | e :: es, f :: fs => beq e f && beqAll es fs
  | _, _ => false

def beqFields : List (String × Expr π) → List (String × Expr π) → Bool
  | [], [] => true
  | (k, e) :: es, (k', f) :: fs => decide (k = k') && beq e f && beqFields es fs
  | _, _ => false

end

end equality

/-- Is it the constant true? -/
def isTrueConstant : Expr π → Bool
  | .constant (.bool b) => b
  | _ => false

end Expr

end ShapedQuery
