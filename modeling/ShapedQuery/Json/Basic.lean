import ShapedQuery.Entries

/-! # JSON values

A JSON value with objects in order and whole numbers kept apart from the others: `1` and `1.0`
are different values.  A number that is not whole is a double, held as its 64 bits.

`Json.same` compares two values without regard to the order of object keys. -/

namespace ShapedQuery

/-- A finite IEEE 754 double, as its bits. -/
structure Double where
  bits : UInt64
  deriving DecidableEq, Inhabited

namespace Double

def ofFloat (x : Float) : Double := ⟨x.toBits⟩

/-- Zero of either sign. -/
def isZero (x : Double) : Bool := x.bits == 0 || x.bits == 0x8000000000000000

/-- Equal as numbers: the two zeros are one number. -/
def same (x y : Double) : Bool := x == y || (x.isZero && y.isZero)

end Double

/-- A JSON value; the entries of an object are in order. -/
inductive Json where
  | null
  | bool (b : Bool)
  | int (n : Int)
  | float (x : Double)
  | str (s : String)
  | arr (items : List Json)
  | obj (entries : List (String × Json))
  deriving Inhabited

namespace Json

/-! ### Views -/

def isString : Json → Bool
  | .str _ => true
  | _ => false

def isArray : Json → Bool
  | .arr _ => true
  | _ => false

/-- An array or an object. -/
def isContainer : Json → Bool
  | .arr _ => true
  | .obj _ => true
  | _ => false

def string? : Json → Option String
  | .str s => some s
  | _ => none

def int? : Json → Option Int
  | .int n => some n
  | _ => none

def bool? : Json → Option Bool
  | .bool b => some b
  | _ => none

def items? : Json → Option (List Json)
  | .arr items => some items
  | _ => none

def entries? : Json → Option (Entries Json)
  | .obj entries => some entries
  | _ => none

/-- The value of an object's key; nothing for a missing key or a value that is no object. -/
def get? (j : Json) (key : String) : Option Json :=
  match j with
  | .obj entries => Entries.get? entries key
  | _ => none

/-! ### Equality up to the order of keys -/

mutual

/-- Equal values, where objects with the same entries in another order are equal. -/
def same : Json → Json → Bool
  | .null, .null => true
  | .bool a, .bool b => a == b
  | .int a, .int b => a == b
  | .float a, .float b => a.same b
  | .str a, .str b => a == b
  | .arr as, .arr bs => sameItems as bs
  | .obj as, .obj bs => as.length == bs.length && sameEntries as bs
  | _, _ => false

def sameItems : List Json → List Json → Bool
  | [], [] => true
  | a :: as, b :: bs => same a b && sameItems as bs
  | _, _ => false

/-- Every entry on the left has an equal one on the right. -/
def sameEntries : List (String × Json) → List (String × Json) → Bool
  | [], _ => true
  | (k, a) :: as, bs =>
    (match Entries.get? bs k with
      | some b => same a b
      | none => false) && sameEntries as bs

end

/-! ### Whole numbers that fit a word -/

/-- The range of whole numbers: those of a signed or an unsigned 64-bit word. -/
def IntRange (n : Int) : Prop := -9223372036854775808 ≤ n ∧ n ≤ 18446744073709551615

instance (n : Int) : Decidable (IntRange n) := inferInstanceAs (Decidable (_ ∧ _))

/-- The largest whole number of a signed 64-bit word. -/
def maxSigned : Int := 9223372036854775807

end Json

end ShapedQuery
