import ShapedQuery.Proofs.Sharing
import ShapedQuery.Proofs.Writing

/-! # Arguments of a request

Fields refer to the arguments of a request in computed expressions and in the conditions of joins.
`Demand.arguments` lists the names that the fields refer to which a user gets to see.

Each of these names has one placeholder, however often it is referred to and from however many
nested contexts, if the request supplies a value for it, and it is null otherwise
(`Request.compile_binds_once`).  The other names do not matter: with any other values for them the
same query comes out, which is shown by running the compiler on both (`Unaffected`). -/

namespace ShapedQuery

/-! ### The names that are referred to -/

def JoinOperand.arguments : JoinOperand → List String
  | .resolverArg name => [name]
  | _ => []

def JoinSpec.arguments (spec : JoinSpec) : List String :=
  spec.on.flatMap fun entry => entry.2.arguments

mutual

/-- The names that a computed field refers to. -/
def Computed.arguments : Computed → List String
  | .resolverArg name => [name]
  | .joinedColumn join _ => join.arguments
  | .joinedRow join => join.arguments
  | .call _ es => argumentsAll es
  | .binary left _ right => left.arguments ++ right.arguments
  | .isNull e => e.arguments
  | _ => []

def Computed.argumentsAll : List Computed → List String
  | [] => []
  | e :: es => e.arguments ++ argumentsAll es

end

section names

variable (env : Env)

/-- The names that a field refers to which may be read; `below` tells those of a related row. -/
def FieldKind.arguments (below : Demand → String → List String) (s : Selection) :
    FieldKind → List String
  | .column _ => []
  | .computed c => c.arguments
  | .relation join => join.arguments ++ below (s.demand env.metadata) join.table

def Selection.arguments (below : Demand → String → List String) (t : Table) (s : Selection) :
    List String :=
  match t.fields.get? s.name with
  | some f => if canRead env.user f.rules then f.kind.arguments env below s else []
  | none => []

/-- The names that are referred to by what is asked for of a row, here and in related rows down to
a depth. -/
def Demand.arguments : Nat → Demand → String → List String
  | 0, _, _ => []
  | depth + 1, d, table =>
    match env.metadata.tables.get? table with
    | some t => d.selections.flatMap (Selection.arguments env (arguments depth) t)
    | none => []

end names

/-! ### What is referred to is written -/

/-- No column is named twice in the conditions of a join, which is so for joins that are read from a
document (`Doc.nodup_keys_entries`). -/
def JoinSpec.Distinct (spec : JoinSpec) : Prop := spec.on.keys.Nodup

instance (spec : JoinSpec) : Decidable spec.Distinct := inferInstanceAs (Decidable (List.Nodup _))

/-- A join refers to what an equal one refers to. -/
theorem JoinSpec.mem_arguments_of_same {s spec : JoinSpec} (hs : s.Distinct)
    (hsame : s = spec ∨ s.same spec = true) {name : String} (h : name ∈ spec.arguments) :
    name ∈ s.arguments := by
  rcases hsame with rfl | hsame
  · exact h
  · obtain ⟨-, -, hlength, hon⟩ := same_iff.mp hsame
    obtain ⟨entry, hentry, hname⟩ := List.mem_flatMap.mp h
    obtain ⟨o, ho, hsame⟩ := Entries.exists_mem_of_matches (R := fun a b => a.same b = true) hs
      hlength hon entry hentry
    refine List.mem_flatMap.mpr ⟨_, ho, ?_⟩
    obtain ⟨column, operand⟩ := entry
    cases operand with
    | resolverArg name' =>
        cases o with
        | resolverArg name'' =>
            have hnames : name'' = name' := beq_iff_eq.mp hsame
            subst hnames
            exact hname
        | column _ => cases hsame
        | currentUserColumn _ => cases hsame
        | value _ => cases hsame
    | column _ => cases hname
    | currentUserColumn _ => cases hname
    | value _ => cases hname

theorem exists_argument_of_compared {A : String → Expr Placeholder → Prop} {owner label : String}
    {on : Entries JoinOperand} {es : List (Expr Placeholder)}
    (h : List.Forall₂ (JoinOperand.Compared A owner label) on es) {name : String}
    (hname : name ∈ on.flatMap fun entry => entry.2.arguments) : ∃ e, A name e := by
  induction h with
  | nil => cases hname
  | @cons entry e on es hentry _ ih =>
      rw [List.flatMap_cons, List.mem_append] at hname
      rcases hname with hname | hname
      · obtain ⟨x, hx, -⟩ := hentry
        obtain ⟨column, operand⟩ := entry
        cases operand with
        | resolverArg name' =>
            rw [List.mem_singleton.mp hname]
            exact ⟨x, hx⟩
        | column _ => cases hname
        | currentUserColumn _ => cases hname
        | value _ => cases hname
      · exact ih hname

/-- What a join refers to is written in its conditions. -/
theorem JoinedBy.exists_argument {A : String → Expr Placeholder → Prop}
    {joins : List (Join Placeholder)} {owner label : String} {spec : JoinSpec}
    (h : JoinedBy JoinSpec.Distinct A joins owner spec label) {name : String}
    (hname : name ∈ spec.arguments) : ∃ e, A name e := by
  obtain ⟨j, -, -, s, hs, hsame, on, hon, -⟩ := h
  exact exists_argument_of_compared hon (JoinSpec.mem_arguments_of_same hs hsame hname)

/-- Something is written for every argument of a join. -/
def Legend.Answers (L : Legend) : Prop :=
  ∀ {owner spec label}, L.joined owner spec label → ∀ name ∈ spec.arguments,
    ∃ e, L.argument name e

section answers

variable {L : Legend}

mutual

theorem Computed.Written.exists_argument (hL : L.Answers) {owner name : String} :
    ∀ {c : Computed} {e : Expr Placeholder}, c.Written L owner e → name ∈ c.arguments →
      ∃ e, L.argument name e
  | .resolverArg _, e, h, hname => ⟨e, List.mem_singleton.mp hname ▸ h⟩
  | .joinedColumn _ _, _, h, hname => by
      obtain ⟨label, hjoined, -⟩ := h
      exact hL hjoined name hname
  | .joinedRow _, _, h, hname => by
      obtain ⟨label, hjoined, -⟩ := h
      exact hL hjoined name hname
  | .call _ _, _, h, hname => by
      obtain ⟨f, es, -, hes, -⟩ := h
      exact WrittenAll.exists_argument hL hes hname
  | .binary _ _ _, _, h, hname => by
      obtain ⟨l, r, hl, hr, -⟩ := h
      rcases List.mem_append.mp hname with hname | hname
      · exact Written.exists_argument hL hl hname
      · exact Written.exists_argument hL hr hname
  | .isNull _, _, h, hname => by
      obtain ⟨a, ha, -⟩ := h
      exact Written.exists_argument hL ha hname
  | .column _, _, _, hname => by cases hname
  | .currentUserColumn _, _, _, hname => by cases hname
  | .value _, _, _, hname => by cases hname

theorem Computed.WrittenAll.exists_argument (hL : L.Answers) {owner name : String} :
    ∀ {cs : List Computed} {es : List (Expr Placeholder)}, Computed.WrittenAll L owner cs es →
      name ∈ Computed.argumentsAll cs → ∃ e, L.argument name e
  | [], _, _, hname => by cases hname
  | _ :: _, _, h, hname => by
      obtain ⟨a, as, ha, has, -⟩ := h
      rcases List.mem_append.mp hname with hname | hname
      · exact Written.exists_argument hL ha hname
      · exact WrittenAll.exists_argument hL has hname

end

variable (hL : L.Answers)
include hL

variable {env : Env} {below : Demand → String → String → Output → Prop}
  {names : Demand → String → List String} {t : Table} {owner name : String}
  {es : List (String × Expr Placeholder)}

theorem Selection.Written.exists_argument
    (hbelow : ∀ d table label o, below d table label o → name ∈ names d table →
      ∃ e, L.argument name e)
    {s : Selection} (h : s.Written env L below t owner es)
    (hname : name ∈ s.arguments env names t) : ∃ e, L.argument name e := by
  obtain ⟨⟨kind, rules⟩, hfield, hes⟩ := h
  rw [Selection.arguments, hfield] at hname
  dsimp only at hname hes
  split at hname
  · rw [if_pos ‹_›] at hes
    cases kind with
    | column c => cases hname
    | computed c =>
        obtain ⟨e, he, -⟩ := hes
        exact he.exists_argument hL hname
    | relation join =>
        obtain ⟨label, o, e, hjoined, -, ho, -⟩ := hes
        rcases List.mem_append.mp hname with hname | hname
        · exact hL hjoined name hname
        · exact hbelow _ _ _ _ ho hname
  · cases hname

theorem Selection.WrittenAll.exists_argument
    (hbelow : ∀ d table label o, below d table label o → name ∈ names d table →
      ∃ e, L.argument name e)
    {ss : List Selection} (h : WrittenAll env L below t owner ss es)
    (hname : name ∈ ss.flatMap (Selection.arguments env names t)) : ∃ e, L.argument name e := by
  induction ss generalizing es with
  | nil => cases hname
  | cons s rest ih =>
      obtain ⟨first, more, hfirst, hmore, -⟩ := h
      rw [List.flatMap_cons, List.mem_append] at hname
      rcases hname with hname | hname
      · exact hfirst.exists_argument hL hbelow hname
      · exact ih hmore hname

/-- Something is written for every name that the shown fields refer to. -/
theorem Output.Written.exists_argument {depth : Nat} {d : Demand} {table : String} {o : Output}
    (h : Output.Written env L depth d table owner o) (hname : name ∈ d.arguments env depth table) :
    ∃ e, L.argument name e := by
  induction depth generalizing d table owner o with
  | zero => exact h.elim
  | succ depth ih =>
      obtain ⟨t, es, ht, -, hes, -⟩ := h
      rw [Demand.arguments, ht] at hname
      have hbelow : ∀ d table label o, Output.Written env L depth d table label o →
          name ∈ Demand.arguments env depth d table → ∃ e, L.argument name e :=
        fun _ _ _ _ => ih
      exact hes.exists_argument hL hbelow hname

end answers

/-! ### Other arguments -/

/-- The context with other arguments supplied. -/
def Context.supply (c : Context) (args : Entries Json) : Context := { c with resolverArgs := args }

def Work.supply (w : Work) (args : Entries Json) : Work :=
  { w with context := w.context.supply args }

/-- The arguments have the same values under these names. -/
def AgreeOn (names : List String) (given args : Entries Json) : Prop :=
  ∀ name ∈ names, args.get? name = given.get? name

theorem AgreeOn.mono {names names' : List String} {given args : Entries Json}
    (h : AgreeOn names given args) (hsub : names' ⊆ names) : AgreeOn names' given args :=
  fun name hname => h name (hsub hname)

namespace Entries

variable {α : Type}

/-- The entries under these names. -/
def restrict (es : Entries α) (names : List String) : Entries α :=
  es.filter fun entry => names.contains entry.1

theorem get?_restrict (es : Entries α) (names : List String) (key : String) :
    (es.restrict names).get? key = if key ∈ names then es.get? key else none := by
  induction es with
  | nil => exact (ite_self none).symm
  | cons entry es ih =>
      obtain ⟨k, v⟩ := entry
      rw [restrict, List.filter_cons]
      by_cases hk : k = key
      · subst hk
        by_cases hmem : k ∈ names
        · simp [hmem, get?]
        · rw [if_neg hmem] at ih ⊢
          rw [if_neg (by simpa using hmem)]
          exact ih
      · have hget : get? ((k, v) :: es) key = get? es key := if_neg hk
        rw [hget, ← ih]
        split
        · exact if_neg hk
        · rfl

end Entries

namespace Context

variable (c : Context) (args : Entries Json)

theorem supply_foldl_addColumn (names : List String) :
    names.foldl addColumn (c.supply args) = (names.foldl addColumn c).supply args := by
  induction names generalizing c with
  | nil => rfl
  | cons name names ih => exact ih (c.addColumn name)

theorem supply_baseRow (env : Env) (allReadable : Bool) :
    Compile.baseRow env allReadable (c.supply args) =
      ((Compile.baseRow env allReadable c).1, (Compile.baseRow env allReadable c).2.supply args) := by
  have htable : (c.supply args).table = c.table := rfl
  unfold Compile.baseRow
  rw [htable]
  split
  · rfl
  · cases allReadable with
    | false => rfl
    | true => exact congrArg (false, ·) (supply_foldl_addColumn (c.addColumn primaryKey) args _)

/-- An argument that has the same value is bound in the same way. -/
theorem supply_resolverArg {name : String} (h : args.get? name = c.resolverArgs.get? name) :
    (c.supply args).resolverArg name =
      ((c.resolverArg name).1, (c.resolverArg name).2.supply args) ∧
      (c.resolverArg name).2.resolverArgs = c.resolverArgs := by
  have hbound : (c.supply args).boundArgs = c.boundArgs := rfl
  have hargs : (c.supply args).resolverArgs = args := rfl
  unfold resolverArg
  rw [hbound, hargs, h]
  cases c.boundArgs.get? name with
  | some p => exact ⟨rfl, rfl⟩
  | none =>
      cases c.resolverArgs.get? name with
      | none => exact ⟨rfl, rfl⟩
      | some value => exact ⟨rfl, rfl⟩

end Context

section unaffected

variable {α β : Type}

/-- If `x` succeeds with `given` supplied, then `y` does the same with `args`. -/
def Unaffected (given args : Entries Json) (w : Work) (x y : Compile α) : Prop :=
  w.context.resolverArgs = given → ∀ a w', x w = .ok a w' →
    w'.context.resolverArgs = given ∧ y (w.supply args) = .ok a (w'.supply args)

namespace Unaffected

variable {given args : Entries Json} {w : Work} {x y : Compile α} {k l : α → Compile β}

theorem bind (hx : Unaffected given args w x y)
    (hk : ∀ a w', x w = .ok a w' → Unaffected given args w' (k a) (l a)) :
    Unaffected given args w (x >>= k) (y >>= l) := by
  intro hw b w'' h
  obtain ⟨a, w', hrun, hrest⟩ := Compile.bind_ok h
  obtain ⟨hw', hrun'⟩ := hx hw a w' hrun
  obtain ⟨hw'', hrest'⟩ := hk a w' hrun hw' b w'' hrest
  refine ⟨hw'', ?_⟩
  simp only [Bind.bind, EStateM.bind, hrun', hrest']

theorem pure (a : α) : Unaffected given args w (Pure.pure a) (Pure.pure a) := by
  intro hw b w' h
  cases h
  exact ⟨hw, rfl⟩

theorem throw (e : QueryError) :
    Unaffected given args w (MonadExcept.throw e : Compile α) (MonadExcept.throw e) := by
  intro _ b w' h
  cases h

theorem ite {p : Prop} [Decidable p] {x' y' : Compile α} (h : p → Unaffected given args w x y)
    (h' : ¬ p → Unaffected given args w x' y') :
    Unaffected given args w (if p then x else x') (if p then y else y') := by
  split
  · exact h ‹_›
  · exact h' ‹_›

theorem get {k l : Work → Compile α} (h : Unaffected given args w (k w) (l (w.supply args))) :
    Unaffected given args w (MonadState.get >>= k) (MonadState.get >>= l) := h

/-- Both look up the same. -/
theorem lookup {ρ : Type} {r : Except QueryError ρ} {k l : ρ → Compile α}
    (h : ∀ a, r = .ok a → Unaffected given args w (k a) (l a)) :
    Unaffected given args w (Compile.ofExcept r >>= k) (Compile.ofExcept r >>= l) := by
  cases r with
  | ok a => exact h a rfl
  | error e =>
      intro _ b w' h
      cases h

theorem ofExcept (r : Except QueryError α) :
    Unaffected given args w (Compile.ofExcept r) (Compile.ofExcept r) := by
  cases r with
  | ok a => exact pure a
  | error e => exact throw e

theorem onContext {f : Context → α × Context}
    (hkeep : (f w.context).2.resolverArgs = w.context.resolverArgs)
    (hf : f (w.context.supply args) = ((f w.context).1, (f w.context).2.supply args)) :
    Unaffected given args w (Compile.onContext f) (Compile.onContext f) := by
  intro hw a w' h
  cases h
  refine ⟨hkeep.trans hw, ?_⟩
  have hcontext : (w.supply args).context = w.context.supply args := rfl
  rw [Compile.onContext, hcontext, hf]
  rfl

theorem modify {f : Context → Context}
    (hkeep : (f w.context).resolverArgs = w.context.resolverArgs)
    (hf : f (w.context.supply args) = (f w.context).supply args) :
    Unaffected given args w (Compile.modifyContext f) (Compile.modifyContext f) := by
  intro hw a w' h
  cases h
  refine ⟨hkeep.trans hw, ?_⟩
  have hcontext : (w.supply args).context = w.context.supply args := rfl
  rw [Compile.modifyContext, hcontext, hf]
  rfl

end Unaffected

end unaffected

namespace Compile

variable {given args : Entries Json} {w : Work}

theorem bindParam_unaffected (value : Param) :
    Unaffected given args w (bindParam value) (bindParam value) := Unaffected.onContext rfl rfl

theorem joinOperand_unaffected {o : JoinOperand} (h : AgreeOn o.arguments given args) (w : Work) :
    Unaffected given args w (joinOperand o) (joinOperand o) := by
  cases o with
  | column name => exact Unaffected.get (Unaffected.lookup fun _ _ => Unaffected.pure _)
  | currentUserColumn name => exact Unaffected.get (Unaffected.ofExcept _)
  | resolverArg name =>
      intro hw
      have hname : args.get? name = w.context.resolverArgs.get? name := by
        rw [hw]
        exact h name List.mem_cons_self
      obtain ⟨hf, hkeep⟩ := w.context.supply_resolverArg args hname
      exact Unaffected.onContext (f := fun c => c.resolverArg name) hkeep hf hw
  | value j => exact (bindParam_unaffected _).bind fun _ _ _ => Unaffected.pure _

theorem joinConditions_unaffected {on : Entries JoinOperand}
    (h : AgreeOn (on.flatMap fun entry => entry.2.arguments) given args) (label : String)
    (w : Work) : Unaffected given args w (joinConditions label on) (joinConditions label on) := by
  induction on generalizing w with
  | nil => exact Unaffected.pure _
  | cons entry on ih =>
      rw [List.flatMap_cons] at h
      refine (joinOperand_unaffected (h.mono (List.subset_append_left _ _)) w).bind fun _ w₁ _ => ?_
      exact (ih (h.mono (List.subset_append_right _ _)) w₁).bind fun _ _ _ => Unaffected.pure _

theorem addJoin_unaffected {spec : JoinSpec} (h : AgreeOn spec.arguments given args) (w : Work) :
    Unaffected given args w (addJoin spec) (addJoin spec) := by
  refine Unaffected.get ?_
  have hfind : ((w.supply args).context.joins.find? fun j =>
      j.serves (w.supply args).context.label spec) =
      w.context.joins.find? fun j => j.serves w.context.label spec := rfl
  dsimp only
  rw [hfind]
  cases w.context.joins.find? fun j => j.serves w.context.label spec with
  | some j => exact Unaffected.pure _
  | none =>
      have hdraw : Unaffected given args w drawAlias drawAlias := by
        intro hw a w' hrun
        cases hrun
        exact ⟨hw, rfl⟩
      refine hdraw.bind fun label w₁ _ => ?_
      refine (joinConditions_unaffected h label w₁).bind fun on w₂ _ => ?_
      exact (Unaffected.modify rfl rfl).bind fun _ _ _ => Unaffected.pure _

mutual

theorem computed_unaffected : ∀ {c : Computed}, AgreeOn c.arguments given args → ∀ w : Work,
    Unaffected given args w (computed c) (computed c)
  | .column name, _, w => joinOperand_unaffected (o := .column name) (List.forall_mem_nil _) w
  | .currentUserColumn name, _, w =>
      joinOperand_unaffected (o := .currentUserColumn name) (List.forall_mem_nil _) w
  | .resolverArg name, h, w => joinOperand_unaffected (o := .resolverArg name) h w
  | .value j, _, w => joinOperand_unaffected (o := .value j) (List.forall_mem_nil _) w
  | .joinedColumn _ _, h, w => (addJoin_unaffected h w).bind fun _ _ _ => Unaffected.pure _
  | .joinedRow _, h, w => (addJoin_unaffected h w).bind fun _ _ _ => Unaffected.pure _
  | .call _ _, h, w =>
      Unaffected.lookup fun _ _ => (computedAll_unaffected h w).bind fun _ _ _ => Unaffected.pure _
  | .binary _ _ _, h, w => by
      refine (computed_unaffected (h.mono (List.subset_append_left _ _)) w).bind fun _ w₁ _ => ?_
      refine (computed_unaffected (h.mono (List.subset_append_right _ _)) w₁).bind fun _ _ _ => ?_
      exact Unaffected.pure _
  | .isNull e, h, w => (computed_unaffected (c := e) h w).bind fun _ _ _ => Unaffected.pure _

theorem computedAll_unaffected : ∀ {cs : List Computed},
    AgreeOn (Computed.argumentsAll cs) given args → ∀ w : Work,
    Unaffected given args w (computedAll cs) (computedAll cs)
  | [], _, _ => Unaffected.pure _
  | _ :: _, h, w => by
      refine (computed_unaffected (h.mono (List.subset_append_left _ _)) w).bind fun _ w₁ _ => ?_
      refine (computedAll_unaffected (h.mono (List.subset_append_right _ _)) w₁).bind fun _ _ _ => ?_
      exact Unaffected.pure _

end

theorem aggregate_unaffected (child : Context) (name : String) (w : Work) :
    Unaffected given args w (aggregate child name) (aggregate child name) := by
  intro hw a w' hrun
  obtain rfl := aggregate_ok hrun
  refine ⟨hw, ?_⟩
  rw [aggregate, Context.aggregate_eq] at hrun ⊢
  by_cases ho : child.arguments.offset = w.context.arguments.size
  · have ho' : child.arguments.offset = (w.supply args).context.arguments.size := ho
    rw [if_pos ho']
    rfl
  · rw [if_neg ho] at hrun
    cases hrun

/-- A nested context is run with what the outer one is supplied with, and then folded back. -/
theorem inChild_unaffected {child : Context} {step : Compile Unit}
    (h : Unaffected given args ⟨child, w.aliases, w.dropped⟩ step step)
    (hchild : child.resolverArgs = w.context.resolverArgs) (name : String) :
    Unaffected given args w (inChild child step >>= fun c => aggregate c name)
      (inChild (child.supply args) step >>= fun c => aggregate c name) := by
  intro hw a w'' hrun
  obtain ⟨c, w', hrun, hrest⟩ := bind_ok hrun
  unfold inChild at hrun
  split at hrun
  · rename_i u v hstep
    cases hrun
    obtain ⟨-, hstep'⟩ := h (hchild.trans hw) u v hstep
    have hfold : Unaffected given args { v with context := w.context } (aggregate v.context name)
        (aggregate v.context name) := aggregate_unaffected _ _ _
    obtain ⟨hw'', hrest'⟩ := hfold hw a w'' hrest
    refine ⟨hw'', ?_⟩
    have hinside : step { w.supply args with context := child.supply args } =
        .ok u (v.supply args) := hstep'
    simp only [Bind.bind, EStateM.bind, inChild, hinside]
    exact hrest'
  · cases hrun

/-! ### Fragments -/

/-- `nest` is not affected by arguments that its fragments do not refer to. -/
def NestUnaffected (env : Env) (given args : Entries Json) (depth : Nat)
    (nest : String → Fragment → Compile Unit) : Prop :=
  ∀ (name : String) (f : Fragment) (w : Work),
    env.metadata.tables.get? w.context.table.name = some w.context.table.table →
    AgreeOn (Demand.arguments env depth (.fields name f.selections) w.context.table.name) given
      args →
    Unaffected given args w (nest name f) (nest name f)

section fragments

variable {env : Env} {depth : Nat} {nest : String → Fragment → Compile Unit}

theorem relation_unaffected (hnest : NestUnaffected env given args depth nest)
    {selection : Selection} {join : JoinSpec}
    (h : AgreeOn (join.arguments ++
      Demand.arguments env depth (selection.demand env.metadata) join.table) given args) (w : Work) :
    Unaffected given args w (relation env nest selection join)
      (relation env nest selection join) := by
  refine (addJoin_unaffected (h.mono (List.subset_append_left _ _)) w).bind fun label w₁ _ => ?_
  refine Unaffected.lookup fun table htable => Unaffected.get ?_
  obtain ⟨hname, hget⟩ := Request.lookupTable_ok htable
  have hown : env.metadata.tables.get? table.name = some table.table := by
    rw [hname]
    exact hget
  have hchild : (w₁.supply args).context.child table label =
      (w₁.context.child table label).supply args := rfl
  dsimp only
  rw [hchild]
  cases selection with
  | field name =>
      have hrow := (w₁.context.child table label).supply_baseRow args env true
      dsimp only
      rw [hrow]
      exact aggregate_unaffected _ name w₁
  | nested name fragmentName =>
      refine Unaffected.lookup fun f hf => ?_
      refine Unaffected.ite (fun _ => Unaffected.throw _) fun _ => ?_
      have hdemand : (Selection.nested name fragmentName).demand env.metadata =
          .fields fragmentName f.selections := by
        rw [Selection.demand, Request.lookupFragment_ok hf]
      rw [hdemand, ← hname] at h
      have hinside := hnest fragmentName f ⟨w₁.context.child table label, w₁.aliases, w₁.dropped⟩
        hown (h.mono (List.subset_append_right _ _))
      exact inChild_unaffected hinside rfl name

theorem readableField_unaffected (hnest : NestUnaffected env given args depth nest)
    (wholeRow : Bool) (table : String) {selection : Selection} {kind : FieldKind}
    (h : AgreeOn (kind.arguments env (Demand.arguments env depth) selection) given args)
    (w : Work) : Unaffected given args w (readableField env nest wholeRow table selection kind)
      (readableField env nest wholeRow table selection kind) := by
  cases kind with
  | column c =>
      cases selection with
      | nested name fragment => exact Unaffected.throw _
      | field name =>
          exact Unaffected.ite (fun _ => Unaffected.modify rfl rfl) fun _ => Unaffected.pure _
  | computed c =>
      cases selection with
      | nested name fragment => exact Unaffected.throw _
      | field name => exact (computed_unaffected h w).bind fun _ _ _ => Unaffected.modify rfl rfl
  | relation join =>
      have hrelation := relation_unaffected hnest h w
      cases selection <;> exact hrelation

theorem selections_unaffected (hnest : NestUnaffected env given args depth nest)
    (fragment : String) (wholeRow : Bool) {table : NamedTable} {selections : List Selection}
    (h : AgreeOn (selections.flatMap (Selection.arguments env (Demand.arguments env depth)
      table.table)) given args) (seen : List String) (w : Work) :
    Unaffected given args w
      (Compile.selections env nest fragment wholeRow table seen selections)
      (Compile.selections env nest fragment wholeRow table seen selections) := by
  induction selections generalizing w seen with
  | nil => exact Unaffected.pure _
  | cons s rest ih =>
      rw [List.flatMap_cons] at h
      have hrest := ih (h.mono (List.subset_append_right _ _)) (s.name :: seen)
      rw [Compile.selections]
      refine Unaffected.ite (fun _ => Unaffected.throw _) fun _ => ?_
      refine Unaffected.lookup fun field hlookup => ?_
      refine Unaffected.ite (fun hread => ?_) fun _ => ?_
      · have hfirst := h.mono (List.subset_append_left _ _)
        rw [Selection.arguments, Request.lookupField_ok hlookup] at hfirst
        dsimp only at hfirst
        rw [if_pos hread] at hfirst
        exact (readableField_unaffected hnest wholeRow table.name hfirst w).bind fun _ w₁ _ => hrest w₁
      · have hdrop : Unaffected given args w (drop ⟨fragment, table.name, s.name⟩)
            (drop ⟨fragment, table.name, s.name⟩) := by
          intro hw a w' hrun
          cases hrun
          exact ⟨hw, rfl⟩
        exact hdrop.bind fun _ w₁ _ => hrest w₁

/-- Compiling a fragment, by induction over the room that is left for nesting. -/
theorem fragment_unaffected (room : Nat) (path : FragmentPath) :
    ∀ depth, room < depth → NestUnaffected env given args depth (fragment env room path) := by
  induction room generalizing path with
  | zero =>
      intro depth _ name f w hget h
      exact Unaffected.lookup fun _ _ => Unaffected.throw _
  | succ room ih =>
      intro depth hdepth name f w hget h
      obtain ⟨depth, rfl⟩ : ∃ k, depth = k + 1 := ⟨depth - 1, by omega⟩
      rw [Demand.arguments, hget] at h
      refine Unaffected.lookup fun path' _ => ?_
      have hrow : Unaffected given args w (onContext (baseRow env false))
          (onContext (baseRow env false)) :=
        Unaffected.onContext (Context.keeps_baseRow env false w.context).resolverArgs
          (w.context.supply_baseRow args env false)
      refine hrow.bind fun wholeRow w₁ hrun => Unaffected.get ?_
      have htable : w₁.context.table = w.context.table := by
        cases hrun
        exact (runs_baseRow (S := fun _ => True) (P := fun _ => True) env false w).grows.place.table
      have htable' : (w₁.supply args).context.table = w.context.table := htable
      rw [htable, htable']
      exact selections_unaffected (ih path' depth (by omega)) name wholeRow h [] w₁

theorem namedFragment_unaffected {name : String} {f : Fragment}
    (hf : env.metadata.lookupFragment name = .ok f)
    (hget : env.metadata.tables.get? w.context.table.name = some w.context.table.table)
    (hdepth : env.settings.maxFragmentDepth.toNat + 1 < depth)
    (h : AgreeOn (Demand.arguments env depth (.fields name f.selections) w.context.table.name)
      given args) :
    Unaffected given args w (namedFragment env name) (namedFragment env name) := by
  unfold namedFragment
  rw [hf]
  refine Unaffected.lookup fun f' hf' => ?_
  cases hf'
  exact fragment_unaffected _ _ depth hdepth name f w hget h

end fragments

theorem onArguments_unaffected {α : Type} (step : EStateM QueryError Arguments α) (w : Work) :
    Unaffected given args w (onArguments step) (onArguments step) := by
  intro hw a w' hrun
  unfold onArguments at hrun ⊢
  have harguments : (w.supply args).context.arguments = w.context.arguments := rfl
  rw [harguments]
  cases hs : step w.context.arguments with
  | error e rest =>
      rw [hs] at hrun
      cases hrun
  | ok b rest =>
      rw [hs] at hrun
      cases hrun
      exact ⟨hw, rfl⟩

end Compile

/-! ### One placeholder for each argument -/

/-- What is written for an argument: its placeholder, or null if it has none. -/
def argumentExpr (placeholder : String → Option Placeholder) (name : String) : Expr Placeholder :=
  match placeholder name with
  | some p => .bound p
  | none => .constant .null

namespace Context.Faithful

variable {S : JoinSpec → Prop} {c : Context} {name name' : String}

theorem eq_argumentExpr (h : c.Faithful S) {e : Expr Placeholder} (he : c.Argument name e) :
    e = argumentExpr c.boundArgs.get? name := by
  unfold argumentExpr
  obtain ⟨p, hp, rfl⟩ | ⟨hnone, rfl⟩ := he
  · rw [hp]
  · cases hp : c.boundArgs.get? name with
    | none => rfl
    | some p =>
        have hsome := h.supplied _ (Entries.mem_of_get? hp)
        rw [hnone] at hsome
        cases hsome

/-- Different arguments have different placeholders. -/
theorem name_eq (h : c.Faithful S) {p p' : Placeholder} (hp : c.boundArgs.get? name = some p)
    (hp' : c.boundArgs.get? name' = some p') (hindex : p.index = p'.index) : name = name' := by
  have hnodup : (c.boundArgs.map fun k => k.2.index).Nodup :=
    (List.pairwise_map.mpr h.numbered).imp Nat.ne_of_lt
  have hentry := List.inj_on_of_nodup_map hnodup (Entries.mem_of_get? hp)
    (Entries.mem_of_get? hp') hindex
  exact congrArg Prod.fst hentry

end Context.Faithful

/-! ### Requests -/

namespace Request

variable {env : Env} {r : Request} {args : Entries Json} {aliases : Aliases} {q : Query}

/-- The request with other arguments. -/
def supplying (r : Request) (args : Entries Json) : Request := { r with resolverArgs := args }

theorem bindCount_unaffected {given : Entries Json} (n : Option UInt32) (w : Work) :
    Unaffected given args w (bindCount n) (bindCount n) := by
  cases n with
  | none => exact Unaffected.pure _
  | some n => exact (Compile.bindParam_unaffected _).bind fun _ _ _ => Unaffected.pure _

section

variable {f : Fragment} {table : NamedTable} {depth : Nat}
  (hf : env.metadata.lookupFragment r.fragment = .ok f)
  (ht : env.metadata.lookupTable f.table = .ok table)
  (hdepth : env.settings.maxFragmentDepth.toNat + 1 < depth)
  (hargs : AgreeOn (Demand.arguments env depth (.fields r.fragment f.selections) f.table)
    r.resolverArgs args)
include hf ht hdepth hargs

/-- The fragment of a request is not affected by arguments that it does not refer to. -/
theorem begun_unaffected : Unaffected r.resolverArgs args (r.begun env table aliases)
    (Compile.namedFragment env r.fragment) (Compile.namedFragment env r.fragment) := by
  obtain ⟨hname, hget⟩ := lookupTable_ok ht
  rw [← hname] at hget hargs
  exact Compile.namedFragment_unaffected hf hget hdepth hargs

theorem compileIn_unaffected : Unaffected r.resolverArgs args (r.start env table aliases)
    (compileIn env r table) (compileIn env (r.supplying args) table) := by
  have hstart : Unaffected r.resolverArgs args (r.start env table aliases)
      (Compile.setCurrentUser env.user) (Compile.setCurrentUser env.user) := by
    intro _ a w' hrun
    rw [setCurrentUser_start] at hrun
    cases hrun
    exact ⟨rfl, setCurrentUser_start env (r.supplying args) table aliases⟩
  refine hstart.bind fun _ w hrun => ?_
  rw [setCurrentUser_start] at hrun
  cases hrun
  refine (begun_unaffected hf ht hdepth hargs).bind fun _ w₁ _ => Unaffected.get ?_
  refine (Compile.onArguments_unaffected _ w₁).bind fun condition w₂ _ => ?_
  refine Unaffected.lookup fun order _ => ?_
  refine (bindCount_unaffected r.limit w₂).bind fun limit w₃ _ => ?_
  refine (bindCount_unaffected r.skip w₃).bind fun offset w₄ _ => ?_
  exact Unaffected.get (Unaffected.lookup fun _ _ => Unaffected.pure _)

/-- Arguments that a request does not refer to do not change its query. -/
theorem compile_supplying (h : r.compile env aliases = .ok q) :
    (r.supplying args).compile env aliases = .ok q := by
  have hf' : env.metadata.lookupFragment (r.supplying args).fragment = .ok f := hf
  rw [compile_eq env hf ht] at h
  rw [compile_eq env hf' ht]
  split at h
  · rename_i s w' hrun
    obtain ⟨-, hrun'⟩ := compileIn_unaffected hf ht hdepth hargs rfl s w' hrun
    have hstart : (r.supplying args).start env table aliases =
        (r.start env table aliases).supply args := rfl
    rw [hstart, hrun']
    exact h
  · cases h

end

/-- Only arguments that are referred to are bound. -/
theorem Trace.mem_arguments {S : JoinSpec → Prop} {f : Fragment} {table : NamedTable} {w w' : Work}
    (hm : env.metadata.EveryJoin S) (h : r.compile env aliases = .ok q)
    (T : Trace S env r aliases q f table w w') {depth : Nat}
    (hdepth : env.settings.maxFragmentDepth.toNat + 1 < depth) :
    ∀ k ∈ w.context.boundArgs,
      k.1 ∈ Demand.arguments env depth (.fields r.fragment f.selections) f.table := by
  -- the other arguments may as well not be supplied, and then they cannot be bound
  intro k hk
  have hf : env.metadata.lookupFragment r.fragment = .ok f := by
    rw [Metadata.lookupFragment, T.fragment]
  let names := Demand.arguments env depth (.fields r.fragment f.selections) f.table
  have hagree : AgreeOn names r.resolverArgs (r.resolverArgs.restrict names) := by
    intro name hname
    rw [Entries.get?_restrict, if_pos hname]
  obtain ⟨f₂, table₂, w₂, _, T₂⟩ :=
    compile_writes hm (compile_supplying hf T.lookup hdepth hagree h)
  obtain rfl : f = f₂ := Option.some.inj (T.fragment.symm.trans T₂.fragment)
  obtain rfl : table = table₂ := Except.ok.inj (T.lookup.symm.trans T₂.lookup)
  obtain ⟨-, hrun⟩ := begun_unaffected hf T.lookup hdepth hagree rfl () w T.resolved
  have hsame : w.supply (r.resolverArgs.restrict names) = w₂ := by
    have hok := hrun.symm.trans T₂.resolved
    cases hok
    rfl
  have hsupplied := T₂.faithful.supplied
  rw [← hsame] at hsupplied
  have hsome : ((r.resolverArgs.restrict names).get? k.1).isSome = true := hsupplied k hk
  rw [Entries.get?_restrict] at hsome
  by_contra hnot
  rw [if_neg hnot] at hsome
  cases hsome

/-- A bound argument has its value among the values of the query. -/
theorem Trace.bound {S : JoinSpec → Prop} {f : Fragment} {table : NamedTable} {w w' : Work}
    (T : Trace S env r aliases q f table w w') : ∀ k ∈ w.context.boundArgs,
      k.2.At q.params ∧ (r.resolverArgs.get? k.1).map Param.ofJson = some k.2.value := by
  intro k hk
  have hroot := Context.Accounts.root table env.settings.currentUserTable r.resolverArgs
  obtain ⟨haccounts, -⟩ :=
    compileIn_mirrors (r.start env table aliases) [] q.select w' hroot T.run
  obtain ⟨args, hcontext⟩ := T.context
  have hbound : w'.context.boundArgs = w.context.boundArgs := by rw [hcontext]
  rw [← hbound] at hk
  have hvalue := haccounts.bound k hk
  rw [T.params]
  exact hvalue

/-- **Arguments are bound once.**  There is at most one placeholder for each name, and different
names have different ones.  The value of a placeholder is the one supplied under its name, and
wherever a field refers to a name, its placeholder is written, or null if it has none.  The names
that have a placeholder are those that are supplied and that the shown fields refer to; what is
supplied under other names does not matter. -/
theorem compile_binds_once (hm : env.metadata.EveryJoin JoinSpec.Distinct)
    (h : r.compile env aliases = .ok q) :
    ∃ f o, ∃ placeholder : String → Option Placeholder,
      env.metadata.fragments.get? r.fragment = some f ∧
      q.select.source = some ⟨f.table, rootAlias f.table⟩ ∧ q.select.Displays o ∧
      (∀ name p, placeholder name = some p →
        p.At q.params ∧ (r.resolverArgs.get? name).map Param.ofJson = some p.value) ∧
      (∀ name name' p p', placeholder name = some p → placeholder name' = some p' →
        p.index = p'.index → name = name') ∧
      ∀ depth, env.settings.maxFragmentDepth.toNat + 1 < depth →
        Output.Written env
          (.of JoinSpec.Distinct (fun name e => e = argumentExpr placeholder name) q.select.joins)
          depth (.fields r.fragment f.selections) f.table (rootAlias f.table) o ∧
        (∀ name, (placeholder name).isSome = true ↔
          name ∈ Demand.arguments env depth (.fields r.fragment f.selections) f.table ∧
            (r.resolverArgs.get? name).isSome = true) ∧
        ∀ args,
          AgreeOn (Demand.arguments env depth (.fields r.fragment f.selections) f.table)
            r.resolverArgs args →
          (r.supplying args).compile env aliases = .ok q := by
  obtain ⟨f, table, w, w', T⟩ := compile_writes hm h
  have hf : env.metadata.lookupFragment r.fragment = .ok f := by
    rw [Metadata.lookupFragment, T.fragment]
  have hlegend : (w.context.legend JoinSpec.Distinct).Within (.of JoinSpec.Distinct
      (fun name e => e = argumentExpr w.context.boundArgs.get? name) q.select.joins) :=
    Legend.of_within (fun _ h => h) (fun _ _ => T.faithful.eq_argumentExpr)
      fun j hj => ⟨j, T.completes.joins ▸ hj, rfl⟩
  refine ⟨f, w.context.output, w.context.boundArgs.get?, T.fragment, T.source, T.displays,
    fun name p hp => T.bound _ (Entries.mem_of_get? hp),
    fun name name' p p' hp hp' => T.faithful.name_eq hp hp', fun depth hdepth =>
      ⟨(T.written depth hdepth).mono hlegend, fun name => ⟨fun hsome => ?_, fun hname => ?_⟩,
        fun args hargs => compile_supplying hf T.lookup hdepth hargs h⟩⟩
  · obtain ⟨p, hp⟩ := Option.isSome_iff_exists.mp hsome
    have hmem := Entries.mem_of_get? hp
    refine ⟨T.mem_arguments hm h hdepth _ hmem, ?_⟩
    rw [← T.supplied]
    exact T.faithful.supplied _ hmem
  · obtain ⟨hname, hsupplied⟩ := hname
    have hanswers : (w.context.legend JoinSpec.Distinct).Answers :=
      fun hjoined _ hmem => hjoined.exists_argument hmem
    obtain ⟨e, he⟩ := (T.written depth hdepth).exists_argument hanswers hname
    obtain ⟨p, hp, -⟩ | ⟨hnone, -⟩ := he
    · rw [hp]
      rfl
    · rw [T.supplied] at hnone
      rw [hnone] at hsupplied
      cases hsupplied

end Request

namespace Sample

theorem everyJoin_distinct : env.metadata.EveryJoin JoinSpec.Distinct := by
  have hjoins : ∀ t ∈ env.metadata.tables, ∀ f ∈ t.2.fields,
      f.2.kind.EveryJoin JoinSpec.Distinct := by
    have hauthor : JoinSpec.Distinct ⟨"Users", .left,
        [("_id", .column "authorId"), ("kind", .value (.str "person"))]⟩ := by decide
    simp only [env, posts, users, textColumn, List.forall_mem_cons, hauthor, FieldKind.EveryJoin,
      Computed.EveryJoin, List.not_mem_nil, false_imp_iff, implies_true, and_self]
  intro name t ht field f hfield
  exact hjoins _ (Entries.mem_of_get? ht) _ (Entries.mem_of_get? hfield)

/-- The post's score and the author's bonus refer to the same argument. -/
theorem arguments_post : Demand.arguments env (env.settings.maxFragmentDepth.toNat + 2)
    (.fields "Post" [.field "score", .nested "author" "Author"]) "Posts" = ["bonus", "bonus"] :=
  rfl

end Sample

namespace Request

/-- The bonus has one placeholder, which is written in the score of a post, and only its value
matters. -/
theorem compile_binds_once_sample :
    ∃ q o p, Sample.request.compile Sample.env .sequential = .ok q ∧ q.select.Displays o ∧
      p.At q.params ∧ p.value = .int 5 ∧
      (∃ e, ("score", .binary (.bound p) .add e) ∈ o.entries) ∧
      ∀ args : Entries Json, args.get? "bonus" = some (.int 5) →
        (Sample.request.supplying args).compile Sample.env .sequential = .ok q := by
  obtain ⟨q, hq, -⟩ := Sample.compile_request
  obtain ⟨f, o, placeholder, hf, -, hdisplays, hvalue, -, hdepth⟩ :=
    compile_binds_once Sample.everyJoin_distinct hq
  cases hf
  obtain ⟨hwritten, hnames, hother⟩ := hdepth _ (Nat.lt_succ_self _)
  have hbonus : (placeholder "bonus").isSome = true := by
    refine (hnames "bonus").mpr ⟨?_, rfl⟩
    exact Sample.arguments_post ▸ List.mem_cons_self
  obtain ⟨p, hp⟩ := Option.isSome_iff_exists.mp hbonus
  obtain ⟨hat, hfive⟩ := hvalue "bonus" p hp
  refine ⟨q, o, p, hq, hdisplays, hat, (Option.some.inj hfive).symm, ?_, fun args hargs => ?_⟩
  · obtain ⟨t, es, ht, -, hes, hentries⟩ := hwritten
    cases ht
    obtain ⟨_, _, ⟨_, hfield, hscore⟩, -, rfl⟩ := hes
    cases hfield
    obtain ⟨_, ⟨l, r, hl, -, rfl⟩, rfl⟩ := hscore
    have hl : l = .bound p := by
      rw [hl, argumentExpr, hp]
    refine ⟨r, ?_⟩
    rw [hentries, ← hl]
    exact List.mem_append_right _ (List.mem_append_left _ (List.mem_singleton_self _))
  · refine hother args fun name hname => ?_
    have hnamed : name ∈ ["bonus", "bonus"] := Sample.arguments_post ▸ hname
    obtain rfl : name = "bonus" := by simpa using hnamed
    exact hargs

end Request

end ShapedQuery
