import ShapedQuery.Basic
import ShapedQuery.Sql.Expr

/-! # SQL statements

A select over one table with joins, and the statements that create and drop an index. -/

namespace ShapedQuery

/-- An item of a select list. -/
inductive SelectItem (π : Type) where
  | star (table : String)
  | column (c : ColumnRef)
  | named (e : Expr π) (name : String)

/-- A table joined under an alias, on all of the conditions. -/
structure Join (π : Type) where
  kind : JoinKind
  table : String
  label : String
  on : List (Expr π)

/-- Where nulls go. -/
inductive NullsOrder where
  | first
  | last
  deriving DecidableEq

/-- A term of an `ORDER BY` clause. -/
structure OrderTerm (π : Type) where
  target : Expr π
  direction : Direction
  nulls : Option NullsOrder

/-- A table and its alias. -/
structure Source where
  table : String
  label : String
  deriving DecidableEq

/-- A select statement. -/
structure Select (π : Type) where
  comment : Option String
  items : List (SelectItem π)
  source : Option Source
  joins : List (Join π)
  condition : Expr π
  order : List (OrderTerm π)
  limit : Option π
  offset : Option π

/-- How an index is kept. -/
inductive IndexMethod where
  | btree
  | gin
  deriving DecidableEq

/-- A statement that creates an index. -/
structure CreateIndex (π : Type) where
  name : String
  table : String
  unique : Bool
  concurrently : Bool
  ifNotExists : Bool
  method : IndexMethod
  elements : List (Expr π)
  condition : Expr π

/-- A statement that drops an index. -/
structure DropIndex where
  name : String
  ifExists : Bool
  deriving DecidableEq

/-! ### Changing what stands at placeholders -/

section map

variable {π ρ : Type} (f : π → ρ)

def SelectItem.map : SelectItem π → SelectItem ρ
  | .star table => .star table
  | .column c => .column c
  | .named e name => .named (e.map f) name

def Join.map (j : Join π) : Join ρ := ⟨j.kind, j.table, j.label, j.on.map (Expr.map f)⟩

def OrderTerm.map (t : OrderTerm π) : OrderTerm ρ := ⟨t.target.map f, t.direction, t.nulls⟩

def Select.map (s : Select π) : Select ρ where
  comment := s.comment
  items := s.items.map (SelectItem.map f)
  source := s.source
  joins := s.joins.map (Join.map f)
  condition := s.condition.map f
  order := s.order.map (OrderTerm.map f)
  limit := s.limit.map f
  offset := s.offset.map f

def CreateIndex.map (c : CreateIndex π) : CreateIndex ρ where
  name := c.name
  table := c.table
  unique := c.unique
  concurrently := c.concurrently
  ifNotExists := c.ifNotExists
  method := c.method
  elements := c.elements.map (Expr.map f)
  condition := c.condition.map f

end map

/-- Are two joins the same? -/
def Join.beq {π : Type} [DecidableEq π] (a b : Join π) : Bool :=
  decide (a.kind = b.kind) && decide (a.table = b.table) && decide (a.label = b.label) &&
    Expr.beqAll a.on b.on

end ShapedQuery
