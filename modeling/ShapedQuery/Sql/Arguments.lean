import ShapedQuery.Json.Basic

/-! # Bound values

Values never stand in the text of a statement: they are bound to numbered placeholders and sent
beside it.  An argument list hands out the numbers; it may continue the numbering of another list
(`Arguments.nested`) and be put back behind it later (`Arguments.absorb`), which works only if the
other list has gained no value in between. -/

namespace ShapedQuery

/-- A value as it is sent with a statement. -/
inductive Param where
  | null
  | bool (b : Bool)
  | int (n : Int)
  | float (x : Double)
  /-- A whole number above those of a signed 64-bit word, sent in decimal. -/
  | numeric (n : Int)
  | str (s : String)
  /-- An array or an object. -/
  | json (j : Json)
  deriving Inhabited

/-- How a JSON value is sent. -/
def Param.ofJson : Json → Param
  | .null => .null
  | .bool b => .bool b
  | .int n => if n ≤ Json.maxSigned then .int n else .numeric n
  | .float x => .float x
  | .str s => .str s
  | .arr items => .json (.arr items)
  | .obj entries => .json (.obj entries)

/-- The place of a bound value: the number written in the text, and the value it stands for. -/
structure Placeholder where
  index : Nat
  value : Param
  deriving Inhabited

/-- Values bound after `offset` others. -/
structure Arguments where
  offset : Nat
  values : List Param
  deriving Inhabited

/-- The values of two lists do not meet: the second should start after `expected` values. -/
structure OffsetMismatch where
  expected : Nat
  found : Nat
  deriving DecidableEq

namespace Arguments

/-- No values yet. -/
def empty : Arguments := ⟨0, []⟩

/-- No values yet, after `offset` others. -/
def startingAt (offset : Nat) : Arguments := ⟨offset, []⟩

/-- How many values are bound, those before the list included. -/
def size (args : Arguments) : Nat := args.offset + args.values.length

/-- Does the list itself hold no value? -/
def isEmpty (args : Arguments) : Bool := args.values.isEmpty

/-- Bind a value to the next number. -/
def bind (args : Arguments) (value : Param) : Placeholder × Arguments :=
  (⟨args.size + 1, value⟩, { args with values := args.values ++ [value] })

/-- A list that continues the numbering. -/
def nested (args : Arguments) : Arguments := startingAt args.size

/-- Put a list that continues the numbering behind its parent. -/
def absorb (args child : Arguments) : Except OffsetMismatch Arguments :=
  if child.offset = args.size then .ok { args with values := args.values ++ child.values }
  else .error ⟨args.size, child.offset⟩

/-- The value with a number. -/
def value? (args : Arguments) (index : Nat) : Option Param :=
  if args.offset < index then args.values[index - args.offset - 1]? else none

/-! ### Sizes -/

@[simp] theorem size_bind (args : Arguments) (value : Param) :
    (args.bind value).2.size = args.size + 1 := by
  simp only [bind, size, List.length_append, List.length_singleton]
  omega

@[simp] theorem size_nested (args : Arguments) : args.nested.size = args.size := by
  simp [nested, startingAt, size]

theorem index_bind (args : Arguments) (value : Param) :
    (args.bind value).1.index = (args.bind value).2.size := by
  simp only [size_bind]; rfl

theorem absorb_eq_ok {args child result : Arguments} (h : args.absorb child = .ok result) :
    child.offset = args.size ∧ result.offset = args.offset ∧
      result.values = args.values ++ child.values := by
  unfold absorb at h
  split at h
  · rename_i hc
    injection h with h
    subst h
    exact ⟨hc, rfl, rfl⟩
  · exact nomatch h

end Arguments

end ShapedQuery
