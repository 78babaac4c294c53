import ShapedQuery.Proofs.Growth
import ShapedQuery.Proofs.SelectorForm
import ShapedQuery.Proofs.Validation
import ShapedQuery.Query.Compile

/-! # Compiling closed metadata

While fragments of closed metadata are compiled, every column that is written down belongs to a
table that the context knows under an alias (`Context.Sound`).  The steps keep this, let the context
grow, and fail only for reasons that the metadata cannot rule out: a field that is asked for twice,
and fragments that do not fit, run in a circle or are nested too deep (`FragmentError`). -/

namespace ShapedQuery

/-! ### The columns of an expression -/

section columns

variable {π : Type}

/-- `P` holds of the expression if it is a column. -/
def Expr.AtColumn (P : ColumnRef → Prop) : Expr π → Prop
  | .column c => P c
  | _ => True

/-- `P` holds of all columns in an expression. -/
def Expr.EveryColumn (P : ColumnRef → Prop) (e : Expr π) : Prop := e.Every (AtColumn P)

theorem Expr.EveryColumn.mono {P Q : ColumnRef → Prop} {e : Expr π} (h : e.EveryColumn P)
    (hPQ : ∀ c, P c → Q c) : e.EveryColumn Q := by
  refine Every.mono (fun d hd => ?_) h
  cases d with
  | column c => exact hPQ c hd
  | _ => trivial

theorem buildsConditions_atColumn (P : ColumnRef → Prop) :
    BuildsConditions (Expr.AtColumn P) where
  all _ _ := trivial
  any _ _ := trivial
  not _ := trivial
  binary _ _ _ := trivial
  isIn _ _ := trivial
  test _ _ := trivial
  array _ := trivial
  lower _ := trivial
  arrayLength _ := trivial
  path _ _ _ _ := trivial
  cast _ _ := trivial
  constant _ := trivial
  bound _ := trivial

def SelectItem.EveryColumn (P : ColumnRef → Prop) : SelectItem π → Prop
  | .star _ => True
  | .column c => P c
  | .named e _ => e.EveryColumn P

theorem SelectItem.EveryColumn.mono {P Q : ColumnRef → Prop} {i : SelectItem π}
    (h : i.EveryColumn P) (hPQ : ∀ c, P c → Q c) : i.EveryColumn Q := by
  cases i with
  | star label => trivial
  | column c => exact hPQ c h
  | named e name => exact Expr.EveryColumn.mono h hPQ

def Projection.EveryColumn (P : ColumnRef → Prop) : Projection → Prop
  | .item i => i.EveryColumn P
  | .field _ e => e.EveryColumn P

theorem Projection.EveryColumn.mono {P Q : ColumnRef → Prop} {p : Projection}
    (h : p.EveryColumn P) (hPQ : ∀ c, P c → Q c) : p.EveryColumn Q := by
  cases p with
  | item i => exact SelectItem.EveryColumn.mono h hPQ
  | field key e => exact Expr.EveryColumn.mono h hPQ

/-- `P` holds of all columns in a select statement. -/
structure Select.EveryColumn (P : ColumnRef → Prop) (s : Select π) : Prop where
  items : ∀ i ∈ s.items, i.EveryColumn P
  joins : ∀ j ∈ s.joins, ∀ e ∈ j.on, e.EveryColumn P
  condition : s.condition.EveryColumn P
  order : ∀ t ∈ s.order, t.target.EveryColumn P

end columns

/-! ### Sound contexts -/

namespace Context

variable (m : Metadata) (U : String → Prop)

/-- A table is known under an alias. -/
def Knows (c : Context) (label table : String) : Prop :=
  (label = c.label ∧ table = c.table.name) ∨
    ∃ j ∈ c.joins, j.join.label = label ∧ j.join.table = table

/-- A column belongs to a table that is known under its alias, or else to the current user. -/
def Resolves (c : Context) : ColumnRef → Prop
  | .bare _ => False
  | .qualified label column => (∃ table, c.Knows label table ∧ m.HasColumn table column) ∨
      (label = currentUserAlias ∧ U column)

/-- All columns in a context can be resolved. -/
structure Sound (c : Context) : Prop where
  table : m.tables.get? c.table.name = some c.table.table
  user : c.currentUserJoined = true
  specs : ∀ j ∈ c.joins, ∀ spec, j.spec = some spec → j.join.table = spec.table
  projections : ∀ p ∈ c.projections, p.EveryColumn (c.Resolves m U)
  joins : ∀ j ∈ c.joins, ∀ e ∈ j.join.on, e.EveryColumn (c.Resolves m U)

variable {m U} {c c' : Context}

theorem Resolves.mono {r : ColumnRef} (h : c.Resolves m U r) (hlabel : c'.label = c.label)
    (htable : c'.table = c.table) (hjoins : ∀ j ∈ c.joins, ∃ k ∈ c'.joins,
      k.join.label = j.join.label ∧ k.join.table = j.join.table) : c'.Resolves m U r := by
  cases r with
  | bare name => exact h
  | qualified label column =>
      rcases h with ⟨table, hk, hcol⟩ | huser
      · refine .inl ⟨table, ?_, hcol⟩
        rcases hk with ⟨hl, ht⟩ | ⟨j, hj, hl, ht⟩
        · exact .inl ⟨hl.trans hlabel.symm, by rw [htable]; exact ht⟩
        · obtain ⟨k, hk, hkl, hkt⟩ := hjoins j hj
          exact .inr ⟨k, hk, hkl.trans hl, hkt.trans ht⟩
      · exact .inr huser

theorem Resolves.addJoin {j : OwnedJoin} {r : ColumnRef} (h : c.Resolves m U r) :
    Resolves m U { c with joins := c.joins ++ [j] } r :=
  h.mono rfl rfl fun k hk => ⟨k, List.mem_append_left _ hk, rfl, rfl⟩

/-- A column of the context's own table. -/
theorem resolves_own {name : String} (h : m.HasColumn c.table.name name) :
    c.Resolves m U (.qualified c.label name) :=
  .inl ⟨c.table.name, .inl ⟨rfl, rfl⟩, h⟩

theorem everyColumn_resolverArg {P : ColumnRef → Prop} (name : String) :
    (c.resolverArg name).1.EveryColumn P := by
  unfold resolverArg
  split
  · trivial
  · split <;> trivial

theorem Sound.hasColumn (h : c.Sound m U) {name : String}
    (hc : name ∈ c.table.table.columns.map Prod.fst) : m.HasColumn c.table.name name :=
  ⟨c.table.table, h.table, hc⟩

theorem Sound.addProjection (h : c.Sound m U) {p : Projection}
    (hp : p.EveryColumn (c.Resolves m U)) : Sound m U { c with projections := c.projections ++ [p] } where
  table := h.table
  user := h.user
  specs := h.specs
  projections := List.forall_mem_append.mpr ⟨h.projections, List.forall_mem_singleton.mpr hp⟩
  joins := h.joins

theorem Sound.addNamed (h : c.Sound m U) (name : String) {e : Expr Placeholder}
    (he : e.EveryColumn (c.Resolves m U)) : (c.addNamed name e).Sound m U := by
  refine h.addProjection ?_
  unfold namedProjection
  split <;> exact he

theorem Sound.addColumn (h : c.Sound m U) {name : String} (hc : m.HasColumn c.table.name name) :
    (c.addColumn name).Sound m U := by
  refine h.addProjection ?_
  unfold fieldProjection
  split <;> exact resolves_own hc

theorem Sound.foldl_addColumn {names : List String} (h : c.Sound m U)
    (hc : ∀ name ∈ names, m.HasColumn c.table.name name) :
    (names.foldl Context.addColumn c).Sound m U := by
  induction names generalizing c with
  | nil => exact h
  | cons name names ih =>
      rw [List.forall_mem_cons] at hc
      exact ih (h.addColumn hc.1) hc.2

theorem Sound.addRow (h : c.Sound m U) : c.addRow.Sound m U :=
  ⟨h.table, h.user, h.specs, h.projections, h.joins⟩

theorem Sound.child (h : c.Sound m U) {table : NamedTable} (label : String)
    (ht : m.tables.get? table.name = some table.table) : (c.child table label).Sound m U :=
  ⟨ht, h.user, nofun, nofun, nofun⟩

theorem Sound.addJoin (h : c.Sound m U) {j : OwnedJoin}
    (hspec : ∀ spec, j.spec = some spec → j.join.table = spec.table)
    (hon : ∀ e ∈ j.join.on, e.EveryColumn (Resolves m U { c with joins := c.joins ++ [j] })) :
    Sound m U { c with joins := c.joins ++ [j] } := by
  refine ⟨h.table, h.user, ?_, ?_, ?_⟩
  · exact List.forall_mem_append.mpr ⟨h.specs, List.forall_mem_singleton.mpr hspec⟩
  · exact fun p hp => (h.projections p hp).mono fun _ => Resolves.addJoin
  · refine List.forall_mem_append.mpr ⟨?_, List.forall_mem_singleton.mpr hon⟩
    exact fun k hk e he => (h.joins k hk e he).mono fun _ => Resolves.addJoin

/-- A related row is found under the alias of its table. -/
theorem everyColumn_relatedRow {label : String} {row : Option String}
    {fields : List (String × Expr Placeholder)} {P : ColumnRef → Prop}
    (hkey : P (.qualified label primaryKey)) (hfields : ∀ f ∈ fields, f.2.EveryColumn P) :
    (Expr.relatedRow label primaryKey row fields).EveryColumn P :=
  ⟨trivial, ⟨trivial, hkey⟩, trivial, trivial, Expr.everyFields_iff.mpr hfields⟩

theorem Sound.folded (h : c.Sound m U) {child : Context} (hchild : child.Sound m U)
    (hkey : m.HasColumn child.table.name primaryKey)
    (hlabel : ∃ j ∈ c.joins, j.join.label = child.label ∧ j.join.table = child.table.name)
    (name : String) : (c.folded child name).Sound m U := by
  have hown : ∀ r, c.Resolves m U r → (c.folded child name).Resolves m U r := fun r hr =>
    hr.mono rfl rfl fun j hj => ⟨j, (prefix_mergeJoins _ _).subset hj, rfl, rfl⟩
  have hmono : ∀ r, child.Resolves m U r → (c.folded child name).Resolves m U r := by
    intro r hr
    cases r with
    | bare name => exact hr
    | qualified label column =>
        rcases hr with ⟨table, hk, hcol⟩ | huser
        · refine .inl ⟨table, .inr ?_, hcol⟩
          rcases hk with ⟨rfl, rfl⟩ | ⟨j, hj, rfl, rfl⟩
          · obtain ⟨j, hj, hl⟩ := hlabel
            exact ⟨j, (prefix_mergeJoins _ _).subset hj, hl⟩
          · -- a join that is left out is there already
            obtain ⟨k, hk, hsame⟩ := exists_mem_mergeJoins c.joins hj
            have hl : k.join.label = j.join.label := congrArg (fun i : Join Nat => i.label) hsame
            have ht : k.join.table = j.join.table := congrArg (fun i : Join Nat => i.table) hsame
            exact ⟨k, hk, hl, ht⟩
        · exact .inr huser
  refine ⟨h.table, h.user, ?_, ?_, ?_⟩
  · intro j hj
    rcases mem_of_mem_mergeJoins hj with hj | hj
    · exact h.specs j hj
    · exact hchild.specs j hj
  · refine List.forall_mem_append.mpr ⟨fun p hp => (h.projections p hp).mono hown, ?_⟩
    refine List.forall_mem_singleton.mpr ?_
    have hrow : child.relatedRow.EveryColumn ((c.folded child name).Resolves m U) := by
      refine everyColumn_relatedRow (hmono _ (resolves_own hkey)) fun f hf => ?_
      obtain ⟨p, hp, hpf⟩ := List.mem_filterMap.mp hf
      have hcols := (hchild.projections p hp).mono hmono
      cases p with
      | item i => cases hpf
      | field key e =>
          cases hpf
          exact hcols
    unfold namedProjection
    split <;> exact hrow
  · intro j hj e he
    rcases mem_of_mem_mergeJoins hj with hj | hj
    · exact (h.joins j hj e he).mono hown
    · exact (hchild.joins j hj e he).mono hmono

end Context

theorem Context.Sound.of_binds {m : Metadata} {U : String → Prop} {w w' : Work}
    (h : w.context.Sound m U) (hb : w.Binds w') : w'.context.Sound m U := by
  have hmono : ∀ r, w.context.Resolves m U r → w'.context.Resolves m U r := fun r hr =>
    hr.mono hb.place.label hb.place.table fun j hj => ⟨j, by rw [hb.joins]; exact hj, rfl, rfl⟩
  refine ⟨?_, ?_, ?_, ?_, ?_⟩
  · rw [hb.place.table]
    exact h.table
  · rw [hb.place.userJoined]
    exact h.user
  · rw [hb.joins]
    exact h.specs
  · rw [hb.projections]
    exact fun p hp => (h.projections p hp).mono hmono
  · rw [hb.joins]
    exact fun j hj e he => (h.joins j hj e he).mono hmono

theorem Work.Grows.resolves {m : Metadata} {U : String → Prop} {w w' : Work} (h : w.Grows w')
    (r : ColumnRef) (hr : w.context.Resolves m U r) : w'.context.Resolves m U r :=
  hr.mono h.place.label h.place.table fun j hj => ⟨j, h.mem_joins hj, rfl, rfl⟩

/-! ### Steps -/

/-- A join that is used again is to the table that is asked for. -/
theorem OwnedJoin.exists_spec_of_serves {j : OwnedJoin} {owner : String} {spec : JoinSpec}
    (h : j.serves owner spec = true) : ∃ s, j.spec = some s ∧ s.table = spec.table := by
  rw [serves, Bool.and_eq_true] at h
  cases hs : j.spec with
  | none =>
      rw [hs] at h
      cases h.2
  | some s =>
      have hsame : s.same spec = true := by
        rw [hs] at h
        exact h.2
      simp only [JoinSpec.same, Bool.and_eq_true, beq_iff_eq] at hsame
      exact ⟨s, rfl, hsame.1.1.1⟩

namespace Compile

variable {m : Metadata} {U : String → Prop} {E : QueryError → Prop} {w : Work}

/-- A step that gives an expression: the context grows, stays sound, and all columns of the
expression can be resolved in it. -/
abbrev GivesSound (m : Metadata) (U : String → Prop) (E : QueryError → Prop) (w : Work)
    (x : Compile (Expr Placeholder)) : Prop :=
  Meets x w E fun e w' => w.Grows w' ∧ w'.context.Sound m U ∧
    e.EveryColumn (w'.context.Resolves m U)

theorem joinOperand_meets (hs : w.context.Sound m U) {o : JoinOperand}
    (ho : o.Closed w.context.table.table U) :
    Meets (joinOperand o) w E fun e w' =>
      w.Binds w' ∧ e.EveryColumn (w'.context.Resolves m U) := by
  cases o with
  | column name =>
      have hcol := hs.hasColumn (Table.column_of_column? ho)
      refine Meets.get (meets_lookup (fun c _ => ?_) fun e he => ?_)
      · exact Meets.pure ⟨.refl w, Context.resolves_own hcol⟩
      · obtain ⟨c, hc⟩ := Option.isSome_iff_exists.mp ho
        simp only [NamedTable.lookupColumn, hc] at he
        cases he
  | currentUserColumn name =>
      refine Meets.get (meets_ofExcept (fun e he => ?_) fun e he => ?_)
      · simp only [Context.currentUserColumn, hs.user, if_true, Except.ok.injEq] at he
        subst he
        exact ⟨.refl w, .inr ⟨rfl, ho⟩⟩
      · simp only [Context.currentUserColumn, hs.user, if_true] at he
        cases he
  | resolverArg name =>
      exact ⟨.resolverArg w name, Context.everyColumn_resolverArg name⟩
  | value j => exact ⟨.bind w _, trivial⟩

theorem joinConditions_meets (hs : w.context.Sound m U) (label : String) {table : String}
    {on : Entries JoinOperand} (hon : ∀ e ∈ on, e.2.Closed w.context.table.table U)
    (hcols : ∀ e ∈ on, m.HasColumn table e.1) :
    Meets (joinConditions label on) w E fun es w' => w.Binds w' ∧
      ∀ e ∈ es, e.EveryColumn fun r => w'.context.Resolves m U r ∨
        ∃ column, r = .qualified label column ∧ m.HasColumn table column := by
  induction on generalizing w with
  | nil => exact Meets.pure ⟨.refl w, nofun⟩
  | cons entry on ih =>
      obtain ⟨column, operand⟩ := entry
      rw [List.forall_mem_cons] at hon hcols
      refine Meets.bind ((joinOperand_meets hs hon.1).mono fun value w₁ hvalue => ?_)
      obtain ⟨hb₁, hvalue⟩ := hvalue
      have hon' : ∀ e ∈ on, e.2.Closed w₁.context.table.table U := by
        rw [hb₁.place.table]
        exact hon.2
      refine Meets.bind ((ih (hs.of_binds hb₁) hon' hcols.2).mono fun es w₂ hes => ?_)
      obtain ⟨hb₂, hes⟩ := hes
      refine Meets.pure ⟨hb₁.trans hb₂, List.forall_mem_cons.mpr ⟨?_, hes⟩⟩
      refine ⟨trivial, .inr ⟨column, rfl, hcols.1⟩, hvalue.mono fun r hr => ?_⟩
      exact .inl ((Work.Grows.of_binds hb₂).resolves r hr)

/-- A table is joined: its alias stands for the table that was asked for. -/
theorem addJoin_meets (hs : w.context.Sound m U) {spec : JoinSpec}
    (hspec : spec.Closed m w.context.table.table U) :
    Meets (addJoin spec) w E fun label w' => w.Grows w' ∧ w'.context.Sound m U ∧
      ∃ j ∈ w'.context.joins, j.join.label = label ∧ j.join.table = spec.table := by
  unfold addJoin
  refine Meets.get ?_
  dsimp only
  split
  · rename_i j hj
    refine Meets.pure ⟨.refl w, hs, j, List.mem_of_find?_eq_some hj, rfl, ?_⟩
    have hserves := List.find?_some hj
    obtain ⟨spec', hsome, htable⟩ := OwnedJoin.exists_spec_of_serves hserves
    rw [hs.specs j (List.mem_of_find?_eq_some hj) spec' hsome, htable]
  · refine Meets.bind ?_
    have hconditions := joinConditions_meets (w := ⟨w.context, w.aliases.next.2, w.dropped⟩)
      (E := E) hs w.aliases.next.1 hspec.operands hspec.columns
    refine Meets.bind (hconditions.mono fun on w₁ hon => ?_)
    obtain ⟨hb, hon⟩ := hon
    refine Meets.bind (meets_modifyContext (Meets.pure ?_))
    refine ⟨.addJoin hb rfl, ?_, _, List.mem_append_right _ (List.mem_singleton_self _), rfl, rfl⟩
    have hs₁ : w₁.context.Sound m U :=
      Context.Sound.of_binds (w := ⟨w.context, w.aliases.next.2, w.dropped⟩) hs hb
    refine hs₁.addJoin (fun spec' hspec' => ?_) fun e he => ?_
    · cases hspec'
      rfl
    · refine (hon e he).mono fun r hr => ?_
      rcases hr with hr | ⟨column, rfl, hcol⟩
      · exact hr.addJoin
      · refine .inl ⟨spec.table, .inr ⟨_, List.mem_append_right _ (List.mem_singleton_self _), ?_⟩,
          hcol⟩
        exact ⟨rfl, rfl⟩

/-- A column of a table that was just joined. -/
theorem resolves_joined {label table column : String}
    (hj : ∃ j ∈ w.context.joins, j.join.label = label ∧ j.join.table = table)
    (hcol : m.HasColumn table column) : w.context.Resolves m U (.qualified label column) :=
  .inl ⟨table, .inr hj, hcol⟩

/-! ### Computed fields -/

theorem hasColumn_primaryKey (hm : m.Closed U) {table : String}
    (h : ∃ t, m.tables.get? table = some t) : m.HasColumn table primaryKey := by
  obtain ⟨t, ht⟩ := h
  exact ⟨t, ht, Table.column_of_column? (hm.key table t ht)⟩

mutual

theorem computed_meets (hm : m.Closed U) : ∀ {w : Work} (e : Computed), w.context.Sound m U →
    e.Closed m w.context.table.table U → GivesSound m U E w (computed e)
  | w, .column name, hs, he =>
      (joinOperand_meets (o := .column name) hs he).mono fun _ _ h =>
        ⟨.of_binds h.1, hs.of_binds h.1, h.2⟩
  | w, .currentUserColumn name, hs, he =>
      (joinOperand_meets (o := .currentUserColumn name) hs he).mono fun _ _ h =>
        ⟨.of_binds h.1, hs.of_binds h.1, h.2⟩
  | w, .resolverArg name, hs, _ =>
      (joinOperand_meets (o := .resolverArg name) hs trivial).mono fun _ _ h =>
        ⟨.of_binds h.1, hs.of_binds h.1, h.2⟩
  | w, .value j, hs, _ =>
      (joinOperand_meets (o := .value j) hs trivial).mono fun _ _ h =>
        ⟨.of_binds h.1, hs.of_binds h.1, h.2⟩
  | w, .joinedColumn join column, hs, he => by
      refine Meets.bind ((addJoin_meets hs he.1).mono fun label w' h => ?_)
      obtain ⟨hg, hs', hj⟩ := h
      exact Meets.pure ⟨hg, hs', resolves_joined hj he.2⟩
  | w, .joinedRow join, hs, he => by
      refine Meets.bind ((addJoin_meets hs he).mono fun label w' h => ?_)
      obtain ⟨hg, hs', hj⟩ := h
      have hkey : w'.context.Resolves m U (.qualified label primaryKey) :=
        resolves_joined hj (hasColumn_primaryKey hm he.table)
      exact Meets.pure ⟨hg, hs', Context.everyColumn_relatedRow hkey nofun⟩
  | w, .call name arguments, hs, he => by
      refine meets_lookup (fun f _ => ?_) fun e hf => ?_
      · refine Meets.bind ((computedAll_meets hm arguments hs he.2).mono fun es w' h => ?_)
        obtain ⟨hg, hs', hes⟩ := h
        exact Meets.pure ⟨hg, hs', trivial, Expr.everyAll_iff.mpr hes⟩
      · have hid : isIdentifier name = true := he.1
        simp only [Function.ofName, hid, Bool.not_true, Bool.false_eq_true, if_false] at hf
        cases hf
  | w, .binary left _ right, hs, he => by
      refine Meets.bind ((computed_meets hm left hs he.1).mono fun l w₁ h₁ => ?_)
      obtain ⟨hg₁, hs₁, hl⟩ := h₁
      have hright : right.Closed m w₁.context.table.table U := by
        rw [hg₁.place.table]
        exact he.2
      refine Meets.bind ((computed_meets hm right hs₁ hright).mono fun r w₂ h₂ => ?_)
      obtain ⟨hg₂, hs₂, hr⟩ := h₂
      exact Meets.pure ⟨hg₁.trans hg₂, hs₂, trivial, hl.mono hg₂.resolves, hr⟩
  | w, .isNull e, hs, he => by
      refine Meets.bind ((computed_meets hm e hs he).mono fun a w' h => ?_)
      obtain ⟨hg, hs', ha⟩ := h
      exact Meets.pure ⟨hg, hs', trivial, ha⟩

theorem computedAll_meets (hm : m.Closed U) : ∀ {w : Work} (es : List Computed),
    w.context.Sound m U →
    Computed.ClosedAll m w.context.table.table U es →
    Meets (computedAll es) w E fun as w' => w.Grows w' ∧ w'.context.Sound m U ∧
      ∀ a ∈ as, a.EveryColumn (w'.context.Resolves m U)
  | w, [], hs, _ => Meets.pure ⟨.refl w, hs, nofun⟩
  | w, e :: es, hs, he => by
      refine Meets.bind ((computed_meets hm e hs he.1).mono fun a w₁ h₁ => ?_)
      obtain ⟨hg₁, hs₁, ha⟩ := h₁
      have hes : Computed.ClosedAll m w₁.context.table.table U es := by
        rw [hg₁.place.table]
        exact he.2
      refine Meets.bind ((computedAll_meets hm es hs₁ hes).mono fun as w₂ h₂ => ?_)
      obtain ⟨hg₂, hs₂, has⟩ := h₂
      refine Meets.pure ⟨hg₁.trans hg₂, hs₂, List.forall_mem_cons.mpr ⟨?_, has⟩⟩
      exact ha.mono hg₂.resolves

end

/-! ### Fragments -/

/-- Why a fragment of closed metadata cannot be compiled. -/
def FragmentError : QueryError → Prop
  | .duplicateField _ _ => True
  | .fragmentTableMismatch _ _ _ _ => True
  | .fragmentCycle _ => True
  | .maxDepthExceeded _ => True
  | _ => False

/-- A step that keeps a context sound and lets it grow. -/
abbrev KeepsSound (m : Metadata) (U : String → Prop) (w : Work) (x : Compile Unit) : Prop :=
  Meets x w FragmentError fun _ w' => w.Grows w' ∧ w'.context.Sound m U

/-- `nest` can be trusted with every fragment of the metadata. -/
def NestSound (m : Metadata) (U : String → Prop) (nest : String → Fragment → Compile Unit) : Prop :=
  ∀ name f, m.fragments.get? name = some f → ∀ w : Work, w.context.Sound m U →
    w.context.table.name = f.table → KeepsSound m U w (nest name f)

theorem mem_readableColumns {env : Env} {t : Table} {name : String}
    (h : name ∈ readableColumns env t) : name ∈ t.columns.map Prod.fst := by
  obtain ⟨⟨key, c, rules⟩, hmem, hname⟩ := List.mem_filterMap.mp h
  dsimp only at hname
  split at hname
  · cases hname
    exact List.mem_map_of_mem hmem
  · cases hname

theorem baseRow_sound (env : Env) {c : Context} (hm : m.Closed U) (hs : c.Sound m U)
    (allReadable : Bool) : (baseRow env allReadable c).2.Sound m U ∧
      c.SamePlace (baseRow env allReadable c).2 ∧
      (baseRow env allReadable c).2.joins = c.joins := by
  unfold baseRow
  split
  · exact ⟨hs.addRow, Context.samePlace_addRow, rfl⟩
  · have hkey := hs.addColumn (hasColumn_primaryKey hm ⟨_, hs.table⟩)
    dsimp only
    split
    · refine ⟨hkey.foldl_addColumn fun name hname => ?_, ?_, ?_⟩
      · exact hs.hasColumn (mem_readableColumns (List.mem_filter.mp hname).1)
      · exact (Context.samePlace_addColumn primaryKey).trans (Context.samePlace_foldl_addColumn _)
      · rw [Context.joins_foldl_addColumn]
        rfl
    · exact ⟨hkey, Context.samePlace_addColumn primaryKey, rfl⟩

theorem meets_drop {d : Dropped} {Q : Unit → Work → Prop}
    (h : Q () { w with dropped := w.dropped ++ [d] }) : Meets (drop d) w E Q := h

theorem meets_inChild {child : Context} {step : Compile Unit} {Q : Context → Work → Prop}
    (h : Meets step { w with context := child } E fun _ w' =>
      Q w'.context { w' with context := w.context }) : Meets (inChild child step) w E Q := by
  unfold Meets at h
  unfold Meets inChild
  cases hstep : step { w with context := child } with
  | ok a w' =>
      rw [hstep] at h
      exact h
  | error e w' =>
      rw [hstep] at h
      exact h

/-- A nested context that has grown is folded back. -/
theorem aggregate_meets {w wc : Work} {table : NamedTable} {label : String} (hm : m.Closed U)
    (hs : w.context.Sound m U) (hj : ∃ j ∈ w.context.joins, j.join.label = label ∧
      j.join.table = table.name)
    (hg : Work.Grows ⟨w.context.child table label, w.aliases, w.dropped⟩ wc)
    (hsc : wc.context.Sound m U) (name : String) :
    Meets (aggregate wc.context name) { wc with context := w.context } E fun _ w' =>
      w.Grows w' ∧ w'.context.Sound m U := by
  obtain ⟨hok, hgrows⟩ := hg.fold name
  unfold Meets
  rw [hok]
  refine ⟨hgrows, hs.folded hsc ?_ ?_ name⟩
  · exact hasColumn_primaryKey hm ⟨_, hsc.table⟩
  · obtain ⟨j, hmem, hl, ht⟩ := hj
    refine ⟨j, hmem, hl.trans hg.place.label.symm, ?_⟩
    rw [hg.place.table]
    exact ht

section fragments

variable {env : Env} {nest : String → Fragment → Compile Unit}

theorem relation_meets (hm : env.metadata.Closed U) (hnest : NestSound env.metadata U nest)
    (hs : w.context.Sound env.metadata U) {join : JoinSpec} {selection : Selection}
    (hjoin : join.Closed env.metadata w.context.table.table U)
    (hsel : ∀ name fragment, selection = .nested name fragment →
      ∃ g, env.metadata.fragments.get? fragment = some g) :
    KeepsSound env.metadata U w (relation env nest selection join) := by
  obtain ⟨t, ht⟩ := hjoin.table
  refine Meets.bind ((addJoin_meets hs hjoin).mono fun label w₁ h₁ => ?_)
  obtain ⟨hg₁, hs₁, hj₁⟩ := h₁
  have hlookup : env.metadata.lookupTable join.table = .ok ⟨join.table, t⟩ := by
    rw [Metadata.lookupTable, ht]
  rw [hlookup]
  refine meets_lookup (fun table htable => ?_) nofun
  cases htable
  refine Meets.get ?_
  have hchild : (w₁.context.child ⟨join.table, t⟩ label).Sound env.metadata U := hs₁.child label ht
  cases selection with
  | field name =>
      obtain ⟨hsb, hplace, hjoins⟩ := baseRow_sound env hm hchild true
      have hg : Work.Grows ⟨w₁.context.child ⟨join.table, t⟩ label, w₁.aliases, w₁.dropped⟩
          ⟨(baseRow env true (w₁.context.child ⟨join.table, t⟩ label)).2, w₁.aliases, w₁.dropped⟩ :=
        .of_context hplace hjoins _
      exact (aggregate_meets hm hs₁ hj₁ hg hsb name).mono fun _ w₂ h₂ => ⟨hg₁.trans h₂.1, h₂.2⟩
  | nested name fragmentName =>
      obtain ⟨g, hfragment⟩ := hsel name fragmentName rfl
      have hlookup : env.metadata.lookupFragment fragmentName = .ok g := by
        rw [Metadata.lookupFragment, hfragment]
      dsimp only
      rw [hlookup]
      refine meets_lookup (fun f hf => ?_) nofun
      cases hf
      refine Meets.ite (fun _ => Meets.bind (Meets.throw trivial)) fun hsame => ?_
      have htable : join.table = g.table := (not_not.mp hsame).symm
      refine Meets.bind (meets_inChild ?_)
      refine (hnest fragmentName g hfragment ⟨_, w₁.aliases, w₁.dropped⟩ hchild htable).mono
        fun _ wc hc => ?_
      exact (aggregate_meets hm hs₁ hj₁ hc.1 hc.2 name).mono fun _ w₂ h₂ =>
        ⟨hg₁.trans h₂.1, h₂.2⟩

theorem readableField_meets (hm : env.metadata.Closed U) (hnest : NestSound env.metadata U nest)
    (hs : w.context.Sound env.metadata U) (wholeRow : Bool) (table : String)
    {selection : Selection} {field : Field}
    (hfield : w.context.table.table.fields.get? selection.name = some field)
    (hsel : ∀ name fragment, selection = .nested name fragment →
      (∃ join, field.kind = .relation join) ∧
        ∃ g, env.metadata.fragments.get? fragment = some g) :
    KeepsSound env.metadata U w (readableField env nest wholeRow table selection field.kind) := by
  have hclosed := hm.field _ _ hs.table _ _ hfield
  cases hk : field.kind with
  | column c =>
      cases selection with
      | field name =>
          refine Meets.ite (fun _ => meets_modifyContext ⟨?_, ?_⟩) fun _ => ⟨.refl w, hs⟩
          · exact .of_context (Context.samePlace_addColumn name) rfl _
          · have hcol : w.context.table.table.column? name = some c :=
              Table.column?_of_kind hfield hk
            exact hs.addColumn (hs.hasColumn (Table.column_of_column? (by rw [hcol]; rfl)))
      | nested name fragment =>
          obtain ⟨⟨join, hrel⟩, -⟩ := hsel name fragment rfl
          rw [hrel] at hk
          cases hk
  | computed e =>
      rw [hk] at hclosed
      cases selection with
      | field name =>
          refine Meets.bind ((computed_meets hm e hs hclosed).mono fun a w₁ h₁ => ?_)
          obtain ⟨hg, hs₁, ha⟩ := h₁
          refine meets_modifyContext ⟨hg.trans ?_, hs₁.addNamed name ha⟩
          exact .of_context (Context.samePlace_addNamed name a) rfl _
      | nested name fragment =>
          obtain ⟨⟨join, hrel⟩, -⟩ := hsel name fragment rfl
          rw [hrel] at hk
          cases hk
  | relation join =>
      rw [hk] at hclosed
      have hmeets := relation_meets hm hnest hs hclosed fun name fragment h =>
        (hsel name fragment h).2
      cases selection <;> exact hmeets

theorem selections_meets (hm : env.metadata.Closed U) (hnest : NestSound env.metadata U nest)
    (fragment : String) (wholeRow : Bool) {table : NamedTable} {selections : List Selection}
    (hs : w.context.Sound env.metadata U) (htable : w.context.table = table) (seen : List String)
    (hsel : ∀ s ∈ selections, s.Closed env.metadata table.table) :
    KeepsSound env.metadata U w (Compile.selections env nest fragment wholeRow table seen
      selections) := by
  induction selections generalizing w seen with
  | nil => exact Meets.pure ⟨.refl w, hs⟩
  | cons s rest ih =>
      rw [List.forall_mem_cons] at hsel
      obtain ⟨⟨field, hfield, hnested⟩, hrest⟩ := hsel
      have hlookup : table.lookupField s.name = .ok field := by
        rw [NamedTable.lookupField, hfield]
      rw [Compile.selections]
      refine Meets.ite (fun _ => Meets.bind (Meets.throw trivial)) fun _ => ?_
      dsimp only
      rw [hlookup]
      refine meets_lookup (fun f hf => ?_) nofun
      cases hf
      refine Meets.ite (fun _ => Meets.bind ?_) fun _ => ?_
      · have hown : w.context.table.table.fields.get? s.name = some field := by
          rw [htable]
          exact hfield
        refine (readableField_meets hm hnest hs wholeRow table.name hown ?_).mono fun _ w₁ h₁ => ?_
        · rintro name fragment rfl
          exact hnested
        · have ht₁ := h₁.1.place.table.trans htable
          exact (ih h₁.2 ht₁ (s.name :: seen) hrest).mono fun _ w₂ h₂ => ⟨h₁.1.trans h₂.1, h₂.2⟩
      · refine Meets.bind (meets_drop ?_)
        have hg : w.Grows { w with dropped := w.dropped ++ [⟨fragment, table.name, s.name⟩] } :=
          .of_context (.refl _) rfl _
        refine (ih ?_ ?_ (s.name :: seen) hrest).mono fun _ w₂ h₂ => ⟨hg.trans h₂.1, h₂.2⟩
        · exact hs
        · exact htable

theorem enter_error {path : FragmentPath} {name : String} {e : QueryError}
    (h : path.enter name = .error e) : FragmentError e := by
  unfold FragmentPath.enter at h
  split at h
  · cases h
    trivial
  · split at h
    · cases h
      trivial
    · cases h

/-- Fragments are compiled soundly, by induction over the room that is left for nesting. -/
theorem fragment_sound (hm : env.metadata.Closed U) (room : Nat) (path : FragmentPath) :
    NestSound env.metadata U (fragment env room path) := by
  induction room generalizing path with
  | zero =>
      intro name f hf w hs htable
      exact meets_lookup (fun _ _ => Meets.throw trivial) fun _ => enter_error
  | succ room ih =>
      intro name f hf w hs htable
      obtain ⟨t, ht, hsel⟩ := hm.fragment name f hf
      refine meets_lookup (fun path' _ => ?_) fun _ => enter_error
      obtain ⟨hsb, hplace, hjoins⟩ := baseRow_sound env hm hs false
      have hg : w.Grows { w with context := (baseRow env false w.context).2 } :=
        .of_context hplace hjoins _
      refine Meets.bind (meets_onContext (Meets.get ?_))
      have hown : t = (baseRow env false w.context).2.table.table := by
        have hsame := hs.table
        rw [htable, ht, Option.some.injEq] at hsame
        rw [hplace.table]
        exact hsame
      rw [hown] at hsel
      refine (selections_meets (w := { w with context := (baseRow env false w.context).2 }) hm
        (ih path') name _ hsb rfl [] hsel).mono fun _ w₂ h₂ => ?_
      exact ⟨hg.trans h₂.1, h₂.2⟩

end fragments

end Compile

end ShapedQuery
