import ShapedQuery.Proofs.Placeholders
import ShapedQuery.Query.Fragment

/-! # Scopes

A `Scope` is what a context shows and joins, apart from its values: what stands at a placeholder
is a parameter, and there is no argument list.  `Context.scope f` is the scope of a context, with
each placeholder replaced by `f`.

The operations on contexts are operations on scopes, whatever stands at the placeholders
(`scope_addNamed` and so on).  Only folding a nested context back looks at placeholders, and only
at their numbers (`scope_folded`). -/

namespace ShapedQuery

/-- A projected field: an item of the select list, or a field of a JSON object. -/
inductive Shown (π : Type) where
  | item (i : SelectItem π)
  | field (key : String) (value : Expr π)

def Shown.item? {π : Type} : Shown π → Option (SelectItem π)
  | .item i => some i
  | .field _ _ => none

def Shown.field? {π : Type} : Shown π → Option (String × Expr π)
  | .item _ => none
  | .field key value => some (key, value)

/-- A join and the alias it was asked for by. -/
structure Joined (π : Type) where
  owner : String
  spec : Option JoinSpec
  join : Join π

/-- What a context shows and joins. -/
structure Scope (π : Type) where
  table : NamedTable
  label : String
  nested : Bool
  wholeRow : Bool
  shown : List (Shown π)
  joins : List (Joined π)
  currentUserJoined : Bool
  currentUserTable : String

variable {π ρ : Type}

namespace Joined

/-- Was the join asked for by this owner, with this spec? -/
def serves (j : Joined π) (owner : String) (spec : JoinSpec) : Bool :=
  j.owner == owner && j.spec.any fun s => s.same spec

/-- The same join for the same owner. -/
def same [DecidableEq π] (a b : Joined π) : Bool :=
  a.owner == b.owner &&
    (match a.spec, b.spec with
      | none, none => true
      | some s, some t => s.same t
      | _, _ => false) &&
    a.join.beq b.join

/-- The joins of `more` that are not there yet go to the end. -/
def merge [DecidableEq π] (joins : List (Joined π)) : List (Joined π) → List (Joined π)
  | [] => joins
  | j :: more =>
    if joins.any fun k => k.same j then merge joins more else merge (joins ++ [j]) more

end Joined

namespace Scope

/-- The scope of the outermost query. -/
def root (table : NamedTable) (currentUserTable : String) : Scope π where
  table := table
  label := rootAlias table.name
  nested := false
  wholeRow := false
  shown := []
  joins := []
  currentUserJoined := false
  currentUserTable := currentUserTable

variable (s : Scope π)

/-- The scope of a related row. -/
def child (table : NamedTable) (label : String) : Scope π :=
  { s with
    table := table, label := label, nested := true, wholeRow := false, shown := [], joins := [] }

/-- A column of the scope's table. -/
def column (name : String) : Expr π := .columnOf s.label name

/-- A column of the current user. -/
def currentUserColumn (name : String) : Except QueryError (Expr π) :=
  if s.currentUserJoined then .ok (.columnOf currentUserAlias name) else .error .currentUserNotSet

/-- Show the whole row. -/
def addRow : Scope π := { s with wholeRow := true }

/-- Show a column under its own name. -/
def addColumn (name : String) : Scope π :=
  { s with shown := s.shown ++ [if s.nested then .field name (s.column name)
      else .item (.column (.qualified s.label name))] }

/-- Show an expression under a name. -/
def addNamed (name : String) (e : Expr π) : Scope π :=
  { s with shown := s.shown ++ [if s.nested then .field name e else .item (.named e name)] }

/-- Join the row of the current user, whose key is `id`. -/
def setCurrentUser (id : π) : Except QueryError (Scope π) :=
  if s.nested then .error .currentUserInNestedContext
  else if s.currentUserJoined then .error .currentUserAlreadySet
  else
    let join : Join π := ⟨.left, s.currentUserTable, currentUserAlias,
      [.binary (.columnOf currentUserAlias primaryKey) .eq (.bound id)]⟩
    .ok { s with joins := s.joins ++ [⟨s.label, none, join⟩], currentUserJoined := true }

/-- The alias of a join that is there already. -/
def joinFor? (spec : JoinSpec) : Option String :=
  (s.joins.find? fun j => j.serves s.label spec).map fun j => j.join.label

/-- Add a join. -/
def addJoin (spec : JoinSpec) (label : String) (on : List (Expr π)) : Scope π :=
  { s with joins := s.joins ++ [⟨s.label, some spec, ⟨spec.kind, spec.table, label, on⟩⟩] }

/-- The related row of a nested scope as a JSON object, or null. -/
def relatedRow : Expr π :=
  .relatedRow s.label primaryKey (if s.wholeRow then some s.label else none)
    (s.shown.filterMap Shown.field?)

/-- Fold a nested scope into this one, as a field with a name. -/
def aggregate [DecidableEq π] (child : Scope π) (name : String) : Scope π :=
  let s := s.addNamed name child.relatedRow
  { s with joins := Joined.merge s.joins child.joins }

/-- The items of the select list. -/
def selectItems : List (SelectItem π) :=
  (if s.wholeRow then [.star s.label] else []) ++ s.shown.filterMap Shown.item?

/-- The select statement of the outermost query. -/
def select (condition : Expr π) (order : List (OrderTerm π)) (limit offset : Option π) :
    Except QueryError (Select π) :=
  let joins := s.joins.map Joined.join
  match Context.repeatedAlias? [s.label] (joins.map Join.label) with
  | some label => .error (.duplicateAlias label)
  | none => .ok {
      comment := none
      items := s.selectItems
      source := some ⟨s.table.name, s.label⟩
      joins := joins
      condition := condition
      order := order
      limit := limit
      offset := offset }

/-- Show the whole row if the user may read it, else the key, and if asked also the other columns
that the user may read. -/
def baseRow (env : Env) (allReadable : Bool) : Bool × Scope π :=
  if Compile.readsWholeRow env s.table.table then (true, s.addRow)
  else
    let s := s.addColumn primaryKey
    let others := (Compile.readableColumns env s.table.table).filter fun name => name != primaryKey
    (false, if allReadable then others.foldl addColumn s else s)

end Scope

/-! ### The scope of a context -/

def Projection.shown (f : Placeholder → π) : Projection → Shown π
  | .item i => .item (i.map f)
  | .field key value => .field key (value.map f)

def OwnedJoin.joined (f : Placeholder → π) (j : OwnedJoin) : Joined π :=
  ⟨j.owner, j.spec, j.join.map f⟩

namespace Context

/-- The scope of a context, with `f` for its placeholders. -/
def scope (f : Placeholder → π) (c : Context) : Scope π where
  table := c.table
  label := c.label
  nested := c.nested
  wholeRow := c.wholeRow
  shown := c.projections.map (Projection.shown f)
  joins := c.joins.map (OwnedJoin.joined f)
  currentUserJoined := c.currentUserJoined
  currentUserTable := c.currentUserTable

variable (f : Placeholder → π) (c : Context)

@[simp] theorem scope_child (table : NamedTable) (label : String) :
    (c.child table label).scope f = (c.scope f).child table label := rfl

@[simp] theorem map_column (name : String) : (c.column name).map f = (c.scope f).column name := rfl

theorem map_currentUserColumn (name : String) :
    (c.currentUserColumn name).map (Expr.map f) = (c.scope f).currentUserColumn name := by
  cases h : c.currentUserJoined <;> simp [currentUserColumn, Scope.currentUserColumn, scope, h,
    Except.map, Expr.columnOf, Expr.map]

@[simp] theorem scope_resolverArg (name : String) :
    (c.resolverArg name).2.scope f = c.scope f := by
  unfold resolverArg
  split
  · rfl
  · split <;> rfl

@[simp] theorem scope_addColumn (name : String) :
    (c.addColumn name).scope f = (c.scope f).addColumn name := by
  cases h : c.nested <;> simp [addColumn, Scope.addColumn, scope, fieldProjection, h,
    Projection.shown, SelectItem.map, column, Scope.column, Expr.columnOf, Expr.map]

@[simp] theorem scope_addNamed (name : String) (e : Expr Placeholder) :
    (c.addNamed name e).scope f = (c.scope f).addNamed name (e.map f) := by
  cases h : c.nested <;> simp [addNamed, Scope.addNamed, scope, namedProjection, h,
    Projection.shown, SelectItem.map]

@[simp] theorem scope_foldl_addColumn (names : List String) :
    (names.foldl addColumn c).scope f = names.foldl Scope.addColumn (c.scope f) := by
  induction names generalizing c with
  | nil => rfl
  | cons name names ih => simp only [List.foldl_cons, ih, scope_addColumn]

theorem scope_baseRow (env : Env) (allReadable : Bool) :
    ((Compile.baseRow env allReadable c).1, (Compile.baseRow env allReadable c).2.scope f) =
      (c.scope f).baseRow env allReadable := by
  have ht : (c.scope f).table = c.table := rfl
  have ht' : ∀ name, ((c.scope f).addColumn name).table = c.table := fun _ => rfl
  have hc : ∀ name, (c.addColumn name).table = c.table := fun _ => rfl
  simp only [Compile.baseRow, Scope.baseRow, ht, ht', hc]
  split
  · rfl
  · split <;> simp

theorem map_objectFields :
    Expr.mapFields f c.objectFields = (c.scope f).shown.filterMap Shown.field? := by
  simp only [Expr.mapFields_eq, objectFields, scope, List.map_filterMap, List.filterMap_map]
  congr 1
  funext p
  cases p <;> rfl

theorem map_relatedRow : c.relatedRow.map f = (c.scope f).relatedRow := by
  simp only [relatedRow, Scope.relatedRow, Expr.relatedRow, Expr.columnOf, Expr.map,
    map_objectFields]
  rfl

/-- The key of the current user, as it is bound. -/
def userKey : Option User → Param
  | some user => .str user.id
  | none => .null

theorem scope_setCurrentUser (user : Option User) :
    (c.setCurrentUser user).map (scope f) =
      (c.scope f).setCurrentUser (f ⟨c.arguments.size + 1, userKey user⟩) := by
  cases hn : c.nested <;> cases hu : c.currentUserJoined <;> cases user <;>
    simp [setCurrentUser, Scope.setCurrentUser, scope, hn, hu, Except.map, bind, Arguments.bind,
      OwnedJoin.joined, Join.map, Expr.map, Expr.columnOf, userKey]

theorem scope_joinFor? (spec : JoinSpec) :
    (c.scope f).joinFor? spec =
      (c.joins.find? fun j => j.serves c.label spec).map fun j => j.join.label := by
  simp only [Scope.joinFor?, scope, List.find?_map, Option.map_map]
  rfl

theorem scope_addJoin (spec : JoinSpec) (label : String) (on : List (Expr Placeholder)) :
    Context.scope f { c with
      joins := c.joins ++ [⟨c.label, some spec, ⟨spec.kind, spec.table, label, on⟩⟩] } =
      (c.scope f).addJoin spec label (Expr.mapAll f on) := by
  simp [scope, Scope.addJoin, OwnedJoin.joined, Join.map, Expr.mapAll_eq]

theorem map_selectItems : c.selectItems.map (SelectItem.map f) = (c.scope f).selectItems := by
  simp only [selectItems, Scope.selectItems, scope, List.map_append, List.map_filterMap,
    List.filterMap_map]
  congr 1
  · by_cases h : c.wholeRow = true <;> simp [h, SelectItem.map]
  · congr 1
    funext p
    cases p <;> rfl

theorem scope_select (condition : Expr Placeholder) (order : List (OrderTerm Placeholder))
    (limit offset : Option Placeholder) :
    (c.select condition order limit offset).map (Select.map f) =
      (c.scope f).select (condition.map f) (order.map (OrderTerm.map f)) (limit.map f)
        (offset.map f) := by
  have hj : (c.scope f).joins.map Joined.join = (c.joins.map OwnedJoin.join).map (Join.map f) := by
    simp only [scope, List.map_map]
    rfl
  have hl : (((c.joins.map OwnedJoin.join).map (Join.map f)).map Join.label) =
      (c.joins.map OwnedJoin.join).map Join.label := by
    simp only [List.map_map]
    rfl
  have hlabel : (c.scope f).label = c.label := rfl
  simp only [select, Scope.select, hj, hl, hlabel, ← map_selectItems]
  cases repeatedAlias? [c.label] ((c.joins.map OwnedJoin.join).map Join.label) <;> rfl

/-! ### Folding a nested context back -/

/-- The context with a nested one folded in, as a field with a name. -/
def folded (child : Context) (name : String) : Context :=
  { c.addNamed name child.relatedRow with
    joins := mergeJoins c.joins child.joins
    arguments := { c.arguments with values := c.arguments.values ++ child.arguments.values }
    boundArgs := child.boundArgs.foldl (fun bound (name, p) => bound.insert name p) c.boundArgs }

theorem aggregate_eq (child : Context) (name : String) :
    c.aggregate child name =
      if child.arguments.offset = c.arguments.size then .ok () (c.folded child name)
      else .error (.offsetMismatch ⟨c.arguments.size, child.arguments.offset⟩)
        { c.addNamed name child.relatedRow with joins := mergeJoins c.joins child.joins } := by
  have ha : (c.addNamed name child.relatedRow).arguments = c.arguments := rfl
  by_cases h : child.arguments.offset = c.arguments.size
  · simp only [aggregate, Arguments.absorb, ha, if_pos h]
    rfl
  · simp only [aggregate, Arguments.absorb, ha, if_neg h]
    rfl

theorem joined_mergeJoins (joins more : List OwnedJoin) :
    (mergeJoins joins more).map (OwnedJoin.joined Placeholder.index) =
      Joined.merge (joins.map (OwnedJoin.joined Placeholder.index))
        (more.map (OwnedJoin.joined Placeholder.index)) := by
  induction more generalizing joins with
  | nil => rfl
  | cons j more ih =>
      have hany : ((joins.map (OwnedJoin.joined Placeholder.index)).any fun k =>
          k.same (j.joined Placeholder.index)) = joins.any fun k => k.same j := by
        rw [List.any_map]
        rfl
      simp only [mergeJoins, List.map_cons, Joined.merge, hany]
      split
      · exact ih joins
      · rw [ih (joins ++ [j]), List.map_append, List.map_singleton]

theorem scope_folded_of [DecidableEq π] (child : Context) (name : String)
    (h : (mergeJoins c.joins child.joins).map (OwnedJoin.joined f) =
      Joined.merge (c.joins.map (OwnedJoin.joined f)) (child.joins.map (OwnedJoin.joined f))) :
    (c.folded child name).scope f = (c.scope f).aggregate (child.scope f) name := by
  have hs := scope_addNamed f c name child.relatedRow
  rw [map_relatedRow] at hs
  simp only [Scope.aggregate, ← hs]
  simp only [folded, scope, h]
  rfl

/-- Folding a nested context back only looks at the numbers of placeholders. -/
theorem scope_folded (child : Context) (name : String) :
    (c.folded child name).scope Placeholder.index =
      (c.scope Placeholder.index).aggregate (child.scope Placeholder.index) name :=
  scope_folded_of _ _ _ _ (joined_mergeJoins c.joins child.joins)

end Context

end ShapedQuery
