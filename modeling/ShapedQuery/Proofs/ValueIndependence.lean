import ShapedQuery.Proofs.Binding
import ShapedQuery.Proofs.SelectorShape

/-! # The text of a statement does not depend on values

Two requests that differ only in their values, for users who differ only in their keys, are
compiled to the same text with equally many parameters, or fail with the same error
(`Request.compile_same_text`).

The proof follows the two runs side by side.  `Work.Alike` relates what they work on: the same
context up to the values of its placeholders, with equally many values bound.  `Agree R x x'` says
that the steps `x` and `x'` keep this and give results related by `R`, or both fail with one
error.  It is kept by sequencing (`Agree.bind`) and holds of every step of the compiler. -/

namespace ShapedQuery

/-! ### Contexts that differ in values -/

/-- Two options that are there both or neither. -/
theorem option_isSome_eq_cases {α β : Type} {x : Option α} {y : Option β}
    (h : x.isSome = y.isSome) : (x = none ∧ y = none) ∨ ∃ a b, x = some a ∧ y = some b := by
  cases x with
  | none =>
      cases y with
      | none => exact .inl ⟨rfl, rfl⟩
      | some b => cases h
  | some a =>
      cases y with
      | none => cases h
      | some b => exact .inr ⟨a, b, rfl, rfl⟩

theorem option_map_eq_cases {α β γ : Type} {f : α → γ} {g : β → γ} {x : Option α} {y : Option β}
    (h : x.map f = y.map g) :
    (x = none ∧ y = none) ∨ ∃ a b, x = some a ∧ y = some b ∧ f a = g b := by
  have hs : x.isSome = y.isSome := by simpa using congrArg Option.isSome h
  obtain hnone | ⟨a, b, rfl, rfl⟩ := option_isSome_eq_cases hs
  · exact .inl hnone
  · exact .inr ⟨a, b, rfl, rfl, Option.some.inj h⟩

namespace Entries

/-- The numbers of the placeholders. -/
def numbers (es : Entries Placeholder) : Entries Nat := es.map fun k => (k.1, k.2.index)

theorem get?_numbers (es : Entries Placeholder) (name : String) :
    es.numbers.get? name = (es.get? name).map Placeholder.index := by
  induction es with
  | nil => rfl
  | cons k es ih =>
      simp only [numbers, List.map_cons, get?] at ih ⊢
      split
      · rfl
      · exact ih

theorem numbers_insert (es : Entries Placeholder) (name : String) (p : Placeholder) :
    (es.insert name p).numbers = es.numbers.insert name p.index := by
  induction es with
  | nil => rfl
  | cons k es ih =>
      simp only [numbers, List.map_cons, insert] at ih ⊢
      split
      · rfl
      · rw [List.map_cons, ih]

theorem numbers_foldl_insert (es more : Entries Placeholder) :
    (more.foldl (fun bound (name, p) => bound.insert name p) es).numbers =
      more.numbers.foldl (fun bound (name, n) => bound.insert name n) es.numbers := by
  induction more generalizing es with
  | nil => rfl
  | cons k more ih =>
      rw [List.foldl_cons, ih, numbers_insert]
      rfl

end Entries

namespace Context

/-- Contexts that are the same up to values. -/
structure Alike (c c' : Context) : Prop where
  scope : c.scope Placeholder.index = c'.scope Placeholder.index
  offset : c.arguments.offset = c'.arguments.offset
  count : c.arguments.values.length = c'.arguments.values.length
  bound : c.boundArgs.numbers = c'.boundArgs.numbers
  args : ∀ name, c.resolverArgs.has name = c'.resolverArgs.has name

/-- The second context has the values of the first. -/
structure Keeps (c d : Context) : Prop where
  arguments : d.arguments = c.arguments
  boundArgs : d.boundArgs = c.boundArgs
  resolverArgs : d.resolverArgs = c.resolverArgs

theorem keeps_addNamed (c : Context) (name : String) (e : Expr Placeholder) :
    c.Keeps (c.addNamed name e) := ⟨rfl, rfl, rfl⟩

theorem keeps_addColumn (c : Context) (name : String) : c.Keeps (c.addColumn name) :=
  ⟨rfl, rfl, rfl⟩

theorem keeps_foldl_addColumn (c : Context) (names : List String) :
    c.Keeps (names.foldl addColumn c) := by
  induction names generalizing c with
  | nil => exact ⟨rfl, rfl, rfl⟩
  | cons name names ih =>
      obtain ⟨h₁, h₂, h₃⟩ := ih (c.addColumn name)
      exact ⟨h₁, h₂, h₃⟩

theorem keeps_baseRow (env : Env) (allReadable : Bool) (c : Context) :
    c.Keeps (Compile.baseRow env allReadable c).2 := by
  unfold Compile.baseRow
  split
  · exact ⟨rfl, rfl, rfl⟩
  · obtain ⟨h₁, h₂, h₃⟩ := keeps_foldl_addColumn (c.addColumn primaryKey)
      ((Compile.readableColumns env c.table.table).filter fun name => name != primaryKey)
    split
    · exact ⟨h₁, h₂, h₃⟩
    · exact ⟨rfl, rfl, rfl⟩

namespace Alike

variable {c c' : Context}

theorem size_eq (h : c.Alike c') : c.arguments.size = c'.arguments.size := by
  rw [Arguments.size, Arguments.size, h.offset, h.count]

theorem table_eq (h : c.Alike c') : c.table = c'.table := congrArg Scope.table h.scope

theorem label_eq (h : c.Alike c') : c.label = c'.label := congrArg Scope.label h.scope

/-- More values, equally many. -/
theorem extend (h : c.Alike c') {vs vs' : List Param} (hl : vs.length = vs'.length) :
    Context.Alike { c with arguments := c.arguments.extend vs }
      { c' with arguments := c'.arguments.extend vs' } :=
  { h with
    scope := h.scope
    count := by rw [Arguments.extend, Arguments.extend, List.length_append, List.length_append,
      h.count, hl] }

theorem bind (h : c.Alike c') (v v' : Param) : (c.bind v).2.Alike (c'.bind v').2 :=
  h.extend rfl

theorem index_bind (h : c.Alike c') (v v' : Param) :
    (c.bind v).1.index = (c'.bind v').1.index := congrArg (· + 1) h.size_eq

theorem resolverArg (h : c.Alike c') (name : String) :
    (c.resolverArg name).1.map Placeholder.index = (c'.resolverArg name).1.map Placeholder.index ∧
      (c.resolverArg name).2.Alike (c'.resolverArg name).2 := by
  have hb : (c.boundArgs.get? name).map Placeholder.index =
      (c'.boundArgs.get? name).map Placeholder.index := by
    rw [← Entries.get?_numbers, ← Entries.get?_numbers, h.bound]
  unfold Context.resolverArg
  obtain ⟨hc, hc'⟩ | ⟨p, p', hc, hc', hp⟩ := option_map_eq_cases hb
  · rw [hc, hc']
    obtain ⟨hr, hr'⟩ | ⟨j, j', hr, hr'⟩ := option_isSome_eq_cases (h.args name)
    · rw [hr, hr']
      exact ⟨rfl, h⟩
    · rw [hr, hr']
      have hi := h.index_bind (Param.ofJson j) (Param.ofJson j')
      have hbind := h.bind (Param.ofJson j) (Param.ofJson j')
      refine ⟨congrArg Expr.bound hi, { hbind with bound := ?_ }⟩
      rw [Entries.numbers_insert, Entries.numbers_insert, hbind.bound, hi]
  · rw [hc, hc']
    exact ⟨congrArg Expr.bound hp, h⟩

theorem child (h : c.Alike c') (table : NamedTable) (label : String) :
    (c.child table label).Alike (c'.child table label) where
  scope := by rw [scope_child, scope_child, h.scope]
  offset := h.size_eq
  count := rfl
  bound := h.bound
  args := h.args

/-- A change that leaves the values alone. -/
theorem modify {d d' : Context} (h : c.Alike c') (hd : c.Keeps d) (hd' : c'.Keeps d')
    (hs : d.scope Placeholder.index = d'.scope Placeholder.index) : d.Alike d' where
  scope := hs
  offset := by rw [hd.arguments, hd'.arguments, h.offset]
  count := by rw [hd.arguments, hd'.arguments, h.count]
  bound := by rw [hd.boundArgs, hd'.boundArgs, h.bound]
  args := by rw [hd.resolverArgs, hd'.resolverArgs]; exact h.args

theorem folded {child child' : Context} (h : c.Alike c') (hchild : child.Alike child')
    (name : String) : (c.folded child name).Alike (c'.folded child' name) where
  scope := by rw [scope_folded, scope_folded, h.scope, hchild.scope]
  offset := h.offset
  count := by
    show (c.arguments.values ++ child.arguments.values).length =
      (c'.arguments.values ++ child'.arguments.values).length
    rw [List.length_append, List.length_append, h.count, hchild.count]
  bound := by
    show (child.boundArgs.foldl _ c.boundArgs).numbers =
      (child'.boundArgs.foldl _ c'.boundArgs).numbers
    rw [Entries.numbers_foldl_insert, Entries.numbers_foldl_insert, h.bound, hchild.bound]
  args := h.args

theorem baseRow (h : c.Alike c') (env : Env) (allReadable : Bool) :
    (Compile.baseRow env allReadable c).1 = (Compile.baseRow env allReadable c').1 ∧
      (Compile.baseRow env allReadable c).2.Alike (Compile.baseRow env allReadable c').2 := by
  have hs := scope_baseRow Placeholder.index c env allReadable
  rw [h.scope, ← scope_baseRow Placeholder.index c' env allReadable] at hs
  obtain ⟨hrow, hscope⟩ := Prod.mk.inj hs
  exact ⟨hrow, h.modify (keeps_baseRow _ _ _) (keeps_baseRow _ _ _) hscope⟩

end Alike

end Context

/-! ### Steps side by side -/

/-- What two runs work on is the same up to values. -/
structure Work.Alike (w w' : Work) : Prop where
  context : w.context.Alike w'.context
  aliases : w.aliases = w'.aliases
  dropped : w.dropped = w'.dropped

section agree

variable {α β γ δ : Type}

/-- From `w` and `w'`, both steps succeed alike, or fail with the same error. -/
def AgreeAt (R : α → β → Prop) (w w' : Work) (x : Compile α) (x' : Compile β) : Prop :=
  match x w, x' w' with
  | .ok a v, .ok b v' => R a b ∧ v.Alike v'
  | .error e _, .error e' _ => e = e'
  | _, _ => False

/-- The two steps succeed alike or fail with the same error. -/
def Agree (R : α → β → Prop) (x : Compile α) (x' : Compile β) : Prop :=
  ∀ w w', w.Alike w' → AgreeAt R w w' x x'

/-- Steps without a result that agree. -/
abbrev AgreeUnit (x x' : Compile Unit) : Prop := Agree (fun _ _ => True) x x'

/-- Expressions that are the same up to values. -/
def SameExpr (e e' : Expr Placeholder) : Prop := e.map Placeholder.index = e'.map Placeholder.index

def SameExprs (es es' : List (Expr Placeholder)) : Prop :=
  Expr.mapAll Placeholder.index es = Expr.mapAll Placeholder.index es'

variable {R : α → β → Prop} {S : γ → δ → Prop} {x : Compile α} {x' : Compile β}
  {k : α → Compile γ} {k' : β → Compile δ} {w w' : Work}

/-- What two steps that agree can do. -/
theorem AgreeAt.cases (h : AgreeAt R w w' x x') :
    (∃ a v b v', x w = .ok a v ∧ x' w' = .ok b v' ∧ R a b ∧ v.Alike v') ∨
      ∃ e v v', x w = .error e v ∧ x' w' = .error e v' := by
  unfold AgreeAt at h
  split at h
  · rename_i a v b v' hx hx'
    exact .inl ⟨a, v, b, v', hx, hx', h.1, h.2⟩
  · rename_i e v e' v' hx hx'
    exact .inr ⟨e, v, v', hx, h ▸ hx'⟩
  · exact h.elim

theorem AgreeAt.bind (hx : AgreeAt R w w' x x') (hk : ∀ a b, R a b → Agree S (k a) (k' b)) :
    AgreeAt S w w' (x >>= k) (x' >>= k') := by
  obtain ⟨a, v, b, v', h, h', hab, hv⟩ | ⟨e, v, v', h, h'⟩ := hx.cases
  · have hrest := hk a b hab v v' hv
    simpa only [AgreeAt, Bind.bind, EStateM.bind, h, h'] using hrest
  · simp only [AgreeAt, Bind.bind, EStateM.bind, h, h']

theorem Agree.bind (hx : Agree R x x') (hk : ∀ a b, R a b → Agree S (k a) (k' b)) :
    Agree S (x >>= k) (x' >>= k') :=
  fun w w' h => (hx w w' h).bind hk

theorem Agree.pure {a : α} {b : β} (h : R a b) : Agree R (Pure.pure a) (Pure.pure b) :=
  fun _ _ hw => ⟨h, hw⟩

theorem Agree.throw (e : QueryError) : Agree R (MonadExcept.throw e) (MonadExcept.throw e) :=
  fun _ _ _ => rfl

theorem Agree.ite {p : Prop} [Decidable p] {y : Compile α} {y' : Compile β} (h : Agree R x x')
    (h' : Agree R y y') : Agree R (if p then x else y) (if p then x' else y') := by
  split
  · exact h
  · exact h'

theorem Agree.get {k : Work → Compile α} {k' : Work → Compile β}
    (h : ∀ w w', w.Alike w' → AgreeAt R w w' (k w) (k' w')) :
    Agree R (MonadState.get >>= k) (MonadState.get >>= k') :=
  fun w w' hw => h w w' hw

theorem Agree.ofExcept {ρ : Type} {f : α → ρ} {r r' : Except QueryError α}
    (h : r.map f = r'.map f) :
    Agree (fun a b => f a = f b) (Compile.ofExcept r) (Compile.ofExcept r') := by
  intro w w' hw
  obtain ⟨e, rfl, rfl⟩ | ⟨a, b, rfl, rfl, hab⟩ := except_map_eq_cases h
  · exact rfl
  · exact ⟨hab, hw⟩

/-- What both runs look up. -/
theorem AgreeAt.lookup {ρ : Type} {r : Except QueryError ρ} {k : ρ → Compile α}
    {k' : ρ → Compile β} (h : ∀ a, AgreeAt R w w' (k a) (k' a)) :
    AgreeAt R w w' (Compile.ofExcept r >>= k) (Compile.ofExcept r >>= k') := by
  cases r with
  | error e => exact rfl
  | ok a => exact h a

theorem Agree.lookup {ρ : Type} {r : Except QueryError ρ} {k : ρ → Compile α}
    {k' : ρ → Compile β} (h : ∀ a, Agree R (k a) (k' a)) :
    Agree R (Compile.ofExcept r >>= k) (Compile.ofExcept r >>= k') :=
  fun w w' hw => AgreeAt.lookup fun a => h a w w' hw

theorem Agree.modify {f f' : Context → Context}
    (h : ∀ c c', c.Alike c' → (f c).Alike (f' c')) :
    AgreeUnit (Compile.modifyContext f) (Compile.modifyContext f') :=
  fun w w' hw => ⟨trivial, { hw with context := h w.context w'.context hw.context }⟩

theorem Agree.onContext {f : Context → α × Context} {f' : Context → β × Context}
    (h : ∀ c c', c.Alike c' → R (f c).1 (f' c').1 ∧ (f c).2.Alike (f' c').2) :
    Agree R (Compile.onContext f) (Compile.onContext f') := by
  intro w w' hw
  obtain ⟨hr, hc⟩ := h w.context w'.context hw.context
  exact ⟨hr, { hw with context := hc }⟩

end agree

/-! ### The steps of the compiler -/

namespace Compile

theorem bindParam_agree (v v' : Param) :
    Agree (fun p p' => p.index = p'.index) (bindParam v) (bindParam v') :=
  Agree.onContext fun _ _ h => ⟨h.index_bind v v', h.bind v v'⟩

theorem joinOperand_agree (o : JoinOperand) : Agree SameExpr (joinOperand o) (joinOperand o) := by
  cases o with
  | column name =>
      refine Agree.get fun w w' hw => ?_
      dsimp only
      rw [hw.context.table_eq]
      refine AgreeAt.lookup fun _ => Agree.pure ?_ w w' hw
      rw [SameExpr, Context.map_column, Context.map_column, hw.context.scope]
  | currentUserColumn name =>
      refine Agree.get fun w w' hw => Agree.ofExcept ?_ w w' hw
      rw [Context.map_currentUserColumn, Context.map_currentUserColumn, hw.context.scope]
  | resolverArg name =>
      have h : Agree SameExpr (onContext fun c => c.resolverArg name)
          (onContext fun c => c.resolverArg name) :=
        Agree.onContext fun _ _ h => h.resolverArg name
      exact h
  | value j => exact (bindParam_agree _ _).bind fun p p' h => Agree.pure (congrArg Expr.bound h)

theorem joinConditions_agree (label : String) (es : Entries JoinOperand) :
    Agree SameExprs (joinConditions label es) (joinConditions label es) := by
  induction es with
  | nil => exact Agree.pure rfl
  | cons e es ih =>
      refine (joinOperand_agree e.2).bind fun v v' hv => ?_
      refine ih.bind fun cs cs' hcs => Agree.pure ?_
      simp only [SameExpr, SameExprs] at hv hcs
      simp only [SameExprs, Expr.mapAll, Expr.map, hv, hcs]

theorem drawAlias_agree : Agree Eq drawAlias drawAlias := by
  intro w w' hw
  have ha := hw.aliases
  unfold AgreeAt drawAlias
  rw [ha]
  exact ⟨rfl, { hw with aliases := rfl }⟩

theorem addJoin_agree (spec : JoinSpec) : Agree Eq (addJoin spec) (addJoin spec) := by
  refine Agree.get fun w w' hw => ?_
  have hfind := Context.scope_joinFor? Placeholder.index w.context spec
  rw [hw.context.scope, Context.scope_joinFor? Placeholder.index w'.context spec] at hfind
  have hnew : Agree Eq
      (do
        let label ← drawAlias
        let on ← joinConditions label spec.on
        modifyContext fun c =>
          { c with joins := c.joins ++ [⟨c.label, some spec, ⟨spec.kind, spec.table, label, on⟩⟩] }
        return label)
      (do
        let label ← drawAlias
        let on ← joinConditions label spec.on
        modifyContext fun c =>
          { c with joins := c.joins ++ [⟨c.label, some spec, ⟨spec.kind, spec.table, label, on⟩⟩] }
        return label) := by
    refine drawAlias_agree.bind fun label label' hl => ?_
    subst hl
    refine (joinConditions_agree label spec.on).bind fun on on' hon => ?_
    refine (Agree.modify fun c c' h => ?_).bind fun _ _ _ => Agree.pure rfl
    refine h.modify ⟨rfl, rfl, rfl⟩ ⟨rfl, rfl, rfl⟩ ?_
    rw [Context.scope_addJoin, Context.scope_addJoin, h.scope, hon]
  dsimp only
  -- which join serves is decided without values: both runs find one, or both add one
  obtain ⟨hc', hc⟩ | ⟨j', j, hc', hc, hj⟩ := option_map_eq_cases hfind
  · rw [hc, hc']
    exact hnew w w' hw
  · rw [hc, hc']
    exact Agree.pure hj.symm w w' hw

mutual

theorem computed_agree : ∀ e : Computed, Agree SameExpr (computed e) (computed e)
  | .column name => joinOperand_agree (.column name)
  | .currentUserColumn name => joinOperand_agree (.currentUserColumn name)
  | .resolverArg name => joinOperand_agree (.resolverArg name)
  | .value j => joinOperand_agree (.value j)
  | .joinedColumn join _ =>
      (addJoin_agree join).bind fun _ _ h => Agree.pure (h ▸ rfl)
  | .joinedRow join =>
      (addJoin_agree join).bind fun _ _ h => Agree.pure (h ▸ rfl)
  | .call _ arguments =>
      Agree.lookup fun function => (computedAll_agree arguments).bind fun _ _ h =>
        Agree.pure (congrArg (Expr.call function) h)
  | .binary left operator right =>
      (computed_agree left).bind fun _ _ hl => (computed_agree right).bind fun _ _ hr =>
        Agree.pure (congrArg₂ (fun l r => Expr.binary l operator.op r) hl hr)
  | .isNull e =>
      (computed_agree e).bind fun _ _ h => Agree.pure (congrArg (fun e => Expr.test e .null) h)

theorem computedAll_agree : ∀ es : List Computed,
    Agree SameExprs (computedAll es) (computedAll es)
  | [] => Agree.pure rfl
  | e :: es =>
      (computed_agree e).bind fun _ _ he => (computedAll_agree es).bind fun _ _ hes =>
        Agree.pure (congrArg₂ List.cons he hes)

end

theorem aggregate_agree {child child' : Context} (hchild : child.Alike child') (name : String) :
    AgreeUnit (aggregate child name) (aggregate child' name) := by
  intro w w' hw
  unfold AgreeAt aggregate
  rw [Context.aggregate_eq, Context.aggregate_eq, hchild.offset, hw.context.size_eq]
  by_cases ho : child'.arguments.offset = w'.context.arguments.size
  · rw [if_pos ho, if_pos ho]
    exact ⟨trivial, { hw with context := hw.context.folded hchild name }⟩
  · rw [if_neg ho, if_neg ho]

theorem inChild_agree {w w' : Work} {child child' : Context} {step step' : Compile Unit}
    (hchild : child.Alike child') (hstep : AgreeUnit step step') (hw : w.Alike w') :
    AgreeAt Context.Alike w w' (inChild child step) (inChild child' step') := by
  have h := hstep { w with context := child } { w' with context := child' }
    { hw with context := hchild }
  unfold AgreeAt inChild
  obtain ⟨a, v, b, v', hrun, hrun', -, hv⟩ | ⟨e, v, v', hrun, hrun'⟩ := h.cases
  · rw [hrun, hrun']
    exact ⟨hv.context, { hv with context := hw.context }⟩
  · rw [hrun, hrun']

theorem drop_agree (d : Dropped) : AgreeUnit (drop d) (drop d) := by
  intro w w' hw
  refine ⟨trivial, { hw with dropped := ?_ }⟩
  rw [hw.dropped]

section fragments

variable {env : Env} {user : Option User}
  (hread : ∀ rules, canRead user rules = canRead env.user rules)

include hread

/-- Users with the same rights see the same of a row. -/
theorem baseRow_user (allReadable : Bool) :
    baseRow { env with user := user } allReadable = baseRow env allReadable := by
  funext c
  simp only [baseRow, readsWholeRow, readableColumns, hread]

section nest

variable {nest nest' : String → Fragment → Compile Unit}
  (hnest : ∀ name f, AgreeUnit (nest name f) (nest' name f))

include hnest

theorem relation_agree (selection : Selection) (join : JoinSpec) :
    AgreeUnit (relation env nest selection join)
      (relation { env with user := user } nest' selection join) := by
  refine (addJoin_agree join).bind fun label label' hl => ?_
  subst hl
  refine Agree.lookup fun table => ?_
  refine Agree.get fun w w' hw => ?_
  have hchild := hw.context.child table label
  cases selection with
  | field name =>
      rw [baseRow_user hread]
      exact aggregate_agree (hchild.baseRow env true).2 name w w' hw
  | nested name fragmentName =>
      refine AgreeAt.lookup fun fragment => ?_
      dsimp only
      split
      · exact rfl
      · exact (inChild_agree hchild (hnest fragmentName fragment) hw).bind
          fun _ _ h => aggregate_agree h name

theorem readableField_agree (wholeRow : Bool) (table : String) (selection : Selection)
    (kind : FieldKind) :
    AgreeUnit (readableField env nest wholeRow table selection kind)
      (readableField { env with user := user } nest' wholeRow table selection kind) := by
  cases kind with
  | column c =>
      cases selection with
      | field name =>
          refine Agree.ite (Agree.modify fun c c' h => ?_) (Agree.pure trivial)
          refine h.modify (Context.keeps_addColumn _ _) (Context.keeps_addColumn _ _) ?_
          rw [Context.scope_addColumn, Context.scope_addColumn, h.scope]
      | nested name fragment => exact Agree.throw _
  | computed e =>
      cases selection with
      | field name =>
          refine (computed_agree e).bind fun e e' he => Agree.modify fun c c' h => ?_
          refine h.modify (Context.keeps_addNamed _ _ _) (Context.keeps_addNamed _ _ _) ?_
          rw [Context.scope_addNamed, Context.scope_addNamed, h.scope, he]
      | nested name fragment => exact Agree.throw _
  | relation join => exact relation_agree hread hnest selection join

theorem selections_agree (fragment : String) (wholeRow : Bool) (table : NamedTable)
    (seen : List String) (ss : List Selection) :
    AgreeUnit (selections env nest fragment wholeRow table seen ss)
      (selections { env with user := user } nest' fragment wholeRow table seen ss) := by
  induction ss generalizing seen with
  | nil => exact Agree.pure trivial
  | cons selection rest ih =>
      unfold selections
      refine Agree.ite (fun _ _ _ => rfl) (Agree.lookup fun field => ?_)
      simp only [hread]
      refine Agree.ite ?_ ?_
      · exact (readableField_agree hread hnest wholeRow table.name selection field.kind).bind
          fun _ _ _ => ih _
      · exact (drop_agree _).bind fun _ _ _ => ih _

end nest

theorem fragment_agree (room : Nat) (path : FragmentPath) (name : String) (f : Fragment) :
    AgreeUnit (fragment env room path name f)
      (fragment { env with user := user } room path name f) := by
  induction room generalizing path name f with
  | zero => exact Agree.lookup fun _ => Agree.throw _
  | succ room ih =>
      refine Agree.lookup fun path => ?_
      rw [baseRow_user hread]
      have hrow : Agree Eq (onContext (baseRow env false)) (onContext (baseRow env false)) :=
        Agree.onContext fun _ _ h => h.baseRow env false
      refine hrow.bind fun wholeRow wholeRow' hr => ?_
      subst hr
      refine Agree.get fun w w' hw => ?_
      dsimp only
      rw [hw.context.table_eq]
      exact selections_agree hread (ih path) name wholeRow _ [] f.selections w w' hw

theorem namedFragment_agree (name : String) :
    AgreeUnit (namedFragment env name) (namedFragment { env with user := user } name) :=
  Agree.lookup fun f => fragment_agree hread _ _ name f

end fragments

theorem setCurrentUser_agree (user user' : Option User) :
    AgreeUnit (setCurrentUser user) (setCurrentUser user') := by
  intro w w' hw
  have hs := Context.scope_setCurrentUser Placeholder.index w.context user
  rw [hw.context.scope, hw.context.size_eq,
    ← Context.scope_setCurrentUser Placeholder.index w'.context user'] at hs
  unfold AgreeAt setCurrentUser
  obtain ⟨e, hc, hc'⟩ | ⟨c, c', hc, hc', hscope⟩ := except_map_eq_cases hs
  · rw [hc, hc']
  · rw [hc, hc']
    obtain rfl := Context.setCurrentUser_ok hc
    obtain rfl := Context.setCurrentUser_ok hc'
    have hb := hw.context.bind (Context.userKey user) (Context.userKey user')
    exact ⟨trivial, { hw with context := { hb with scope := hscope } }⟩

/-- A selector binds its values behind those of the context. -/
theorem selector_agree {t : Target} {s s' : Selector} (h : s.shape = s'.shape) :
    Agree SameExpr (onArguments (t.selector s)) (onArguments (t.selector s')) := by
  intro w w' hw
  unfold AgreeAt onArguments
  obtain ⟨e, rest, rest', hs, hs'⟩ | ⟨e, e', vs, vs', hs, hs', he, hl⟩ :=
    Target.selector_alike (t := t) h hw.context.size_eq
  · rw [hs, hs']
  · rw [hs, hs']
    exact ⟨he, { hw with context := hw.context.extend hl }⟩

end Compile

/-! ### Whole requests -/

/-- Users with the same rights: both logged out, or in the same groups and both admins or not. -/
def SameRights : Option User → Option User → Prop
  | none, none => True
  | some u, some v => (∀ group, group ∈ u.groups ↔ group ∈ v.groups) ∧ u.isAdmin = v.isAdmin
  | _, _ => False

theorem canRead_of_sameRights {u v : Option User} (h : SameRights u v) (rules : List Permission) :
    canRead u rules = canRead v rules := by
  have hallows : Permission.allows u = Permission.allows v := by
    funext rule
    cases u with
    | none =>
        cases v with
        | none => rfl
        | some v => exact h.elim
    | some u =>
        cases v with
        | none => exact h.elim
        | some v =>
            obtain ⟨hgroups, hadmin⟩ := h
            cases rule with
            | group name =>
                have hname : u.groups.contains name = v.groups.contains name := by
                  rw [Bool.eq_iff_iff, List.contains_iff_mem, List.contains_iff_mem, hgroups]
                simp only [Permission.allows, hadmin, hname]
            | predicate p => cases p <;> simp [Permission.allows, hadmin]
  rw [canRead, canRead, hallows]

namespace Request

/-- Requests that differ only in their values: the same fragment, sort and case, arguments with
the same names, a limit in both or none and likewise rows to skip, and selectors of one shape. -/
structure Alike (r r' : Request) : Prop where
  fragment : r.fragment = r'.fragment
  selector : r.selector.shape = r'.selector.shape
  sort : r.sort = r'.sort
  limit : r.limit.isSome = r'.limit.isSome
  skip : r.skip.isSome = r'.skip.isSome
  caseInsensitive : r.caseInsensitive = r'.caseInsensitive
  args : ∀ name, r.resolverArgs.has name = r'.resolverArgs.has name

theorem bindCount_agree {n n' : Option UInt32} (h : n.isSome = n'.isSome) :
    Agree (fun p p' => p.map Placeholder.index = p'.map Placeholder.index) (bindCount n)
      (bindCount n') := by
  obtain ⟨rfl, rfl⟩ | ⟨a, b, rfl, rfl⟩ := option_isSome_eq_cases h
  · exact Agree.pure rfl
  · exact (Compile.bindParam_agree _ _).bind fun _ _ hp => Agree.pure (congrArg some hp)

theorem compileIn_agree (env : Env) {user : Option User} {r r' : Request} (h : r.Alike r')
    (hu : SameRights env.user user) (table : NamedTable) :
    Agree (fun s s' => s.map Placeholder.index = s'.map Placeholder.index)
      (compileIn env r table) (compileIn { env with user := user } r' table) := by
  have hread : ∀ rules, canRead user rules = canRead env.user rules :=
    fun rules => (canRead_of_sameRights hu rules).symm
  unfold compileIn
  rw [← h.fragment, ← h.sort, ← h.caseInsensitive]
  refine (Compile.setCurrentUser_agree env.user user).bind fun _ _ _ => ?_
  refine (Compile.namedFragment_agree hread r.fragment).bind fun _ _ _ => ?_
  refine Agree.get fun w w' hw => ?_
  dsimp only
  rw [hw.context.label_eq]
  refine (Compile.selector_agree h.selector w w' hw).bind fun condition condition' hcondition => ?_
  refine Agree.lookup fun order => ?_
  refine (bindCount_agree h.limit).bind fun limit limit' hlimit => ?_
  refine (bindCount_agree h.skip).bind fun offset offset' hoffset => ?_
  refine Agree.get fun w w' hw => ?_
  have hs := Context.scope_select Placeholder.index w.context condition order limit offset
  rw [hcondition, hlimit, hoffset, hw.context.scope, ← Context.scope_select] at hs
  refine (Agree.ofExcept hs w w' hw).bind fun s s' hss => Agree.pure ?_
  exact congrArg (fun t : Select Nat => { t with comment := some ("Fragment " ++ r.fragment) }) hss

theorem Alike.root {r r' : Request} (h : r.Alike r') (table : NamedTable)
    (currentUserTable : String) :
    (Context.root table currentUserTable r.resolverArgs).Alike
      (Context.root table currentUserTable r'.resolverArgs) :=
  ⟨rfl, rfl, rfl, rfl, h.args⟩

end Request

namespace Sample

/-- The request with values that try to get into the text. -/
def hostile : Request where
  fragment := "Post"
  selector := .filter [("title", .str "' OR 1=1 --")]
  sort := [("title", .ascending)]
  limit := some 0
  skip := none
  collation := none
  resolverArgs := [("bonus", .obj [("$1", .null)])]

def mallory : Option User := some ⟨"\"; DROP TABLE", [], true⟩

theorem alike_hostile : request.Alike hostile where
  fragment := rfl
  selector := rfl
  sort := rfl
  limit := rfl
  skip := rfl
  caseInsensitive := rfl
  args := by
    intro name
    simp only [Entries.has, request, hostile, Entries.get?]
    split <;> rfl

theorem sameRights_mallory : SameRights env.user mallory := ⟨fun _ => Iff.rfl, rfl⟩

end Sample

namespace Request

/-- **The text of a statement does not depend on values**: requests that differ only in their
values, for users who differ only in their keys, fail with the same error or are compiled to the
same text with equally many parameters. -/
theorem compile_same_text {r r' : Request} {user user' : Option User} (h : r.Alike r')
    (hu : SameRights user user') (metadata : Metadata) (settings : Settings) (aliases : Aliases) :
    (∃ e, r.compile ⟨metadata, settings, user⟩ aliases = .error e ∧
      r'.compile ⟨metadata, settings, user'⟩ aliases = .error e) ∨
    ∃ q q', r.compile ⟨metadata, settings, user⟩ aliases = .ok q ∧
      r'.compile ⟨metadata, settings, user'⟩ aliases = .ok q' ∧
      q.statement.sql = q'.statement.sql ∧
      q.statement.params.length = q'.statement.params.length := by
  have hfragment := h.fragment
  cases hf : metadata.lookupFragment r.fragment with
  | error e =>
      refine .inl ⟨e, ?_, ?_⟩
      · simp [compile, hf, bind, Except.bind]
      · simp [compile, ← hfragment, hf, bind, Except.bind]
  | ok fragment =>
      cases ht : metadata.lookupTable fragment.table with
      | error e =>
          refine .inl ⟨e, ?_, ?_⟩
          · simp [compile, hf, ht, bind, Except.bind]
          · simp [compile, ← hfragment, hf, ht, bind, Except.bind]
      | ok table =>
          have hrun := compileIn_agree ⟨metadata, settings, user⟩ h hu table
            (r.start ⟨metadata, settings, user⟩ table aliases)
            (r'.start ⟨metadata, settings, user'⟩ table aliases)
            ⟨h.root table settings.currentUserTable, rfl, rfl⟩
          rw [compile_eq ⟨metadata, settings, user⟩ hf ht,
            compile_eq ⟨metadata, settings, user'⟩ (hfragment ▸ hf) ht]
          obtain ⟨s, w, s', w', hs, hs', hsame, hw⟩ | ⟨e, w, w', hs, hs'⟩ := hrun.cases
          · rw [hs, hs']
            refine .inr ⟨_, _, rfl, rfl, ?_, hw.context.count⟩
            exact congrArg (fun t : Select Nat => Piece.text t.pieces) hsame
          · rw [hs, hs']
            exact .inl ⟨e, rfl, rfl⟩

theorem compile_same_text_sample : Sample.request.Alike Sample.hostile ∧
    SameRights Sample.env.user Sample.mallory ∧
      ∃ q q', Sample.request.compile Sample.env .sequential = .ok q ∧
        Sample.hostile.compile { Sample.env with user := Sample.mallory } .sequential = .ok q' ∧
        q.statement.sql = q'.statement.sql ∧
        q.statement.params.length = q'.statement.params.length := by
  refine ⟨Sample.alike_hostile, Sample.sameRights_mallory, ?_⟩
  obtain ⟨q, hq, -⟩ := Sample.compile_request
  rcases compile_same_text Sample.alike_hostile Sample.sameRights_mallory Sample.env.metadata
    Sample.env.settings .sequential with ⟨e, he, -⟩ | h
  · cases hq.symm.trans he
  · exact h

end Request

end ShapedQuery
