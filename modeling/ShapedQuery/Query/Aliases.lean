import ShapedQuery.Text.Lowercase

/-! # Table aliases

The outermost table is named after its first letter; joined tables take their names from a
sequence, one after the other. -/

namespace ShapedQuery

/-- A sequence of aliases, and how many have been drawn. -/
structure Aliases where
  name : Nat → String
  drawn : Nat

namespace Aliases

/-- The aliases `j1`, `j2` and so on. -/
def sequential : Aliases := ⟨fun n => s!"j{n + 1}", 0⟩

/-- Always the same alias. -/
def constant (label : String) : Aliases := ⟨fun _ => label, 0⟩

/-- The aliases of a list, over and over. -/
def cyclic (names : List String) : Aliases := ⟨fun n => names.getD (n % names.length) "", 0⟩

/-- The next alias. -/
def next (a : Aliases) : String × Aliases := (a.name a.drawn, { a with drawn := a.drawn + 1 })

/-- The next few aliases. -/
def take (a : Aliases) (count : Nat) : List String :=
  (List.range count).map fun i => a.name (a.drawn + i)

end Aliases

/-- The alias of the outermost table: its first letter in lower case. -/
def rootAlias (table : String) : String :=
  match table.toList with
  | [] => "t"
  | c :: _ => String.ofList (lowercase c)

/-- The alias of the current user's row. -/
def currentUserAlias : String := "currentUser"

end ShapedQuery
