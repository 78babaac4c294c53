import ShapedQuery.Proofs.Labels
import ShapedQuery.Proofs.Projecting

/-! # What compiling fragments does

`Work.Runs S P w opened w'` says what can happen between `w` and `w'` while fields of a fragment are
compiled: values are bound, something is shown, a table is joined, or a nested context is run in its
turn and folded back.  Whatever the metadata, every fragment that is compiled is such a run
(`Compile.fragment_runs`), so what runs keep, compiling keeps; that the context grows is the first
case of it (`Work.Runs.grows`).

Every join that is made comes from the metadata and meets `S`.  The joins in `opened` are those of
the relations that a fragment of their own was compiled for, in order; in the nested contexts they
meet `P`. -/

namespace ShapedQuery

namespace Context

variable (c : Context)

/-- An alias that a context may use: its own, that of a join, or that of the user who is joined. -/
def Sees (label : String) : Prop :=
  label = c.label ∨ label ∈ OwnedJoin.labels c.joins ∨
    (c.currentUserJoined = true ∧ label = currentUserAlias)

/-- The context with a join added. -/
def addJoin (spec : JoinSpec) (label : String) (on : List (Expr Placeholder)) : Context :=
  { c with joins := c.joins ++ [⟨c.label, some spec, ⟨spec.kind, spec.table, label, on⟩⟩] }

end Context

/-- The join was made by this owner, for this spec or for one that is the same. -/
def OwnedJoin.StandsFor (j : OwnedJoin) (owner : String) (spec : JoinSpec) : Prop :=
  j.owner = owner ∧ ∃ s, j.spec = some s ∧ (s = spec ∨ s.same spec = true)

/-- What happens while fields of a fragment are compiled. -/
inductive Work.Runs (S : JoinSpec → Prop) (P : List JoinSpec → Prop) :
    Work → List JoinSpec → Work → Prop
  | binds {w w' : Work} (h : w.Binds w') : Runs S P w [] w'
  | drops (w : Work) (d : Dropped) : Runs S P w [] { w with dropped := w.dropped ++ [d] }
  | row (w : Work) : Runs S P w [] { w with context := w.context.addRow }
  | column (w : Work) (name : String) : Runs S P w [] { w with context := w.context.addColumn name }
  | named (w : Work) (name : String) {e : Expr Placeholder} (he : e.EveryLabel w.context.Sees) :
      Runs S P w [] { w with context := w.context.addNamed name e }
  /-- A table is joined under the next alias, as no join serves. -/
  | join {w w' : Work} {spec : JoinSpec} {on : List (Expr Placeholder)} (hspec : S spec)
      (hnew : ∀ j ∈ w.context.joins, j.serves w.context.label spec = false)
      (hb : Work.Binds ⟨w.context, w.aliases.next.2, w.dropped⟩ w')
      (hon : ∀ e ∈ on, e.EveryLabel fun l => l = w.aliases.next.1 ∨ w.context.Sees l) :
      Runs S P w [] { w' with context := w'.context.addJoin spec w.aliases.next.1 on }
  /-- The row of a join is shown without joins of its own. -/
  | plain {w wc : Work} {j : OwnedJoin} (table : NamedTable) (name : String)
      (hj : j ∈ w.context.joins)
      (h : Runs S P ⟨w.context.child table j.join.label, w.aliases, w.dropped⟩ [] wc)
      (hplain : wc.context.joins = []) :
      Runs S P w [] { wc with context := w.context.folded wc.context name }
  /-- The row of a join is shown through a fragment. -/
  | fold {w wc : Work} {j : OwnedJoin} {spec : JoinSpec} {opened : List JoinSpec}
      (table : NamedTable) (name : String) (hj : j ∈ w.context.joins)
      (hspec : j.StandsFor w.context.label spec)
      (h : Runs S P ⟨w.context.child table j.join.label, w.aliases, w.dropped⟩ opened wc)
      (hopened : P opened) :
      Runs S P w [spec] { wc with context := w.context.folded wc.context name }
  | trans {w w' w'' : Work} {opened opened' : List JoinSpec} (h : Runs S P w opened w')
      (h' : Runs S P w' opened' w'') : Runs S P w (opened ++ opened') w''

/-- A run lets the context grow. -/
theorem Work.Runs.grows {S : JoinSpec → Prop} {P : List JoinSpec → Prop} {w w' : Work}
    {opened : List JoinSpec} (h : w.Runs S P opened w') : w.Grows w' := by
  induction h with
  | binds h => exact .of_binds h
  | drops w d => exact .of_context (.refl _) rfl _
  | row w => exact .of_context Context.samePlace_addRow rfl _
  | column w name => exact .of_context (Context.samePlace_addColumn name) rfl _
  | named w name he => exact .of_context (Context.samePlace_addNamed name _) rfl _
  | join hspec hnew hb hon => exact .addJoin hb rfl
  | plain table name hj h hplain ih => exact (ih.fold name).2
  | fold table name hj hspec h hopened ih => exact (ih.fold name).2
  | trans h h' ih ih' => exact ih.trans ih'

/-! ### What can be seen stays so -/

theorem Context.Sees.mono {c c' : Context} {l : String} (h : c.Sees l) (hlabel : c'.label = c.label)
    (huser : c'.currentUserJoined = c.currentUserJoined) (hjoins : c.joins ⊆ c'.joins) :
    c'.Sees l := by
  rcases h with rfl | h | ⟨hjoined, rfl⟩
  · exact .inl hlabel.symm
  · exact .inr (.inl (List.map_subset _ hjoins h))
  · exact .inr (.inr ⟨huser.trans hjoined, rfl⟩)

theorem Work.Grows.sees {w w' : Work} (h : w.Grows w') (l : String) (hl : w.context.Sees l) :
    w'.context.Sees l :=
  hl.mono h.place.label h.place.userJoined fun _ => h.mem_joins

/-- Joins that are put together keep the aliases of both. -/
theorem Context.labels_subset_mergeJoins (joins more : List OwnedJoin) :
    OwnedJoin.labels joins ⊆ OwnedJoin.labels (mergeJoins joins more) ∧
      OwnedJoin.labels more ⊆ OwnedJoin.labels (mergeJoins joins more) := by
  refine ⟨List.map_subset _ (prefix_mergeJoins joins more).subset, fun l hl => ?_⟩
  obtain ⟨j, hj, rfl⟩ := List.mem_map.mp hl
  obtain ⟨k, hk, hsame⟩ := exists_mem_mergeJoins joins hj
  rw [← label_eq_of_map_eq hsame]
  exact List.mem_map_of_mem hk

/-! ### Joins -/

mutual

/-- Every join of a computed field meets `S`. -/
def Computed.EveryJoin (S : JoinSpec → Prop) : Computed → Prop
  | .joinedColumn join _ => S join
  | .joinedRow join => S join
  | .call _ arguments => EveryJoinAll S arguments
  | .binary left _ right => left.EveryJoin S ∧ right.EveryJoin S
  | .isNull e => e.EveryJoin S
  | _ => True

def Computed.EveryJoinAll (S : JoinSpec → Prop) : List Computed → Prop
  | [] => True
  | e :: es => e.EveryJoin S ∧ EveryJoinAll S es

end

mutual

theorem Computed.everyJoin_of_forall {S : JoinSpec → Prop} (h : ∀ join, S join) :
    ∀ e : Computed, e.EveryJoin S
  | .column _ => trivial
  | .currentUserColumn _ => trivial
  | .resolverArg _ => trivial
  | .value _ => trivial
  | .joinedColumn join _ => h join
  | .joinedRow join => h join
  | .call _ arguments => everyJoinAll_of_forall h arguments
  | .binary left _ right => ⟨everyJoin_of_forall h left, everyJoin_of_forall h right⟩
  | .isNull e => everyJoin_of_forall h e

theorem Computed.everyJoinAll_of_forall {S : JoinSpec → Prop} (h : ∀ join, S join) :
    ∀ es : List Computed, EveryJoinAll S es
  | [] => trivial
  | e :: es => ⟨everyJoin_of_forall h e, everyJoinAll_of_forall h es⟩

end

def FieldKind.EveryJoin (S : JoinSpec → Prop) : FieldKind → Prop
  | .column _ => True
  | .computed e => e.EveryJoin S
  | .relation join => S join

namespace Compile

variable {S : JoinSpec → Prop} {P : List JoinSpec → Prop} {w : Work}

/-- Nothing is known of where the step leads to. -/
theorem leads_any {α : Type} (x : Compile α) : Leads x w fun _ _ => True := by
  unfold Leads Meets
  split <;> trivial

theorem joinOperand_labels (o : JoinOperand) : Leads (joinOperand o) w fun e w' =>
    w.Binds w' ∧ e.EveryLabel w.context.Sees := by
  cases o with
  | column name => exact Meets.get (leads_lookup fun _ _ => Meets.pure ⟨.refl w, .inl rfl⟩)
  | currentUserColumn name =>
      refine Meets.get (meets_ofExcept (fun e he => ⟨.refl w, ?_⟩) fun _ _ => trivial)
      unfold Context.currentUserColumn at he
      split at he
      · rename_i hjoined
        cases he
        exact .inr (.inr ⟨hjoined, rfl⟩)
      · cases he
  | resolverArg name =>
      exact ⟨.resolverArg w name, Context.everyLabel_resolverArg _ name⟩
  | value j => exact ⟨.bind w _, trivial⟩

theorem joinConditions_labels (label : String) (on : Entries JoinOperand) :
    Leads (joinConditions label on) w fun es w' => w.Binds w' ∧
      ∀ e ∈ es, e.EveryLabel fun l => l = label ∨ w.context.Sees l := by
  induction on generalizing w with
  | nil => exact Meets.pure ⟨.refl w, List.forall_mem_nil _⟩
  | cons entry on ih =>
      refine Meets.bind ((joinOperand_labels entry.2).mono fun value w₁ h₁ => ?_)
      obtain ⟨hb₁, hvalue⟩ := h₁
      refine Meets.bind (ih.mono fun es w₂ h₂ => ?_)
      obtain ⟨hb₂, hes⟩ := h₂
      have hsees : ∀ l, w₁.context.Sees l → w.context.Sees l := fun l hl =>
        hl.mono hb₁.place.label.symm hb₁.place.userJoined.symm (by rw [hb₁.joins]; simp)
      refine Meets.pure ⟨hb₁.trans hb₂, List.forall_mem_cons.mpr ⟨?_, fun e he => ?_⟩⟩
      · exact ⟨trivial, .inl rfl, hvalue.mono fun _ => .inr⟩
      · exact (hes e he).mono fun l hl => hl.imp_right (hsees l)

/-- A table is joined: there is a join with its alias, made for what was asked for. -/
theorem addJoin_runs (P : List JoinSpec → Prop) {spec : JoinSpec} (hspec : S spec) :
    Leads (addJoin spec) w fun label w' => w.Runs S P [] w' ∧
      ∃ j ∈ w'.context.joins, j.join.label = label ∧ j.StandsFor w'.context.label spec := by
  unfold addJoin
  refine Meets.get ?_
  dsimp only
  split
  · rename_i j hj
    have hserves := List.find?_some hj
    rw [OwnedJoin.serves, Bool.and_eq_true, beq_iff_eq, Option.any_eq_true] at hserves
    obtain ⟨howner, s, hs, hsame⟩ := hserves
    refine Meets.pure ⟨.binds (.refl w), j, List.mem_of_find?_eq_some hj, rfl, howner, s, ?_⟩
    exact ⟨hs, .inr hsame⟩
  · rename_i hnone
    have hnew : ∀ j ∈ w.context.joins, j.serves w.context.label spec = false := by
      intro j hj
      simpa using List.find?_eq_none.mp hnone j hj
    refine Meets.bind ?_
    have hconditions := joinConditions_labels (w := ⟨w.context, w.aliases.next.2, w.dropped⟩)
      w.aliases.next.1 spec.on
    refine Meets.bind (hconditions.mono fun on w₁ h₁ => ?_)
    refine Meets.bind (meets_modifyContext (Meets.pure ⟨.join hspec hnew h₁.1 h₁.2, ?_⟩))
    exact ⟨_, List.mem_append_right _ (List.mem_singleton_self _), rfl, rfl, spec, rfl, .inl rfl⟩

/-! ### Computed fields -/

/-- A step that gives an expression: a run, and the expression uses what can be seen then. -/
abbrev RunsTo (S : JoinSpec → Prop) (P : List JoinSpec → Prop) (w : Work)
    (x : Compile (Expr Placeholder)) : Prop :=
  Leads x w fun e w' => w.Runs S P [] w' ∧ e.EveryLabel w'.context.Sees

theorem joinOperand_runs (o : JoinOperand) : RunsTo S P w (joinOperand o) :=
  (joinOperand_labels o).mono fun _ _ h =>
    ⟨.binds h.1, h.2.mono (Work.Grows.of_binds h.1).sees⟩

/-- An alias of a join can be seen. -/
theorem sees_joined {label : String} {spec : JoinSpec}
    (h : ∃ j ∈ w.context.joins, j.join.label = label ∧ j.StandsFor w.context.label spec) :
    w.context.Sees label := by
  obtain ⟨j, hj, rfl, -⟩ := h
  exact .inr (.inl (List.mem_map_of_mem hj))

mutual

theorem computed_runs : ∀ {w : Work} (e : Computed), e.EveryJoin S → RunsTo S P w (computed e)
  | _, .column name, _ => joinOperand_runs (.column name)
  | _, .currentUserColumn name, _ => joinOperand_runs (.currentUserColumn name)
  | _, .resolverArg name, _ => joinOperand_runs (.resolverArg name)
  | _, .value j, _ => joinOperand_runs (.value j)
  | _, .joinedColumn join _, hj => by
      refine Meets.bind ((addJoin_runs P hj).mono fun label w' h => ?_)
      exact Meets.pure ⟨h.1, sees_joined h.2⟩
  | _, .joinedRow join, hj => by
      refine Meets.bind ((addJoin_runs P hj).mono fun label w' h => ?_)
      have hlabel := sees_joined h.2
      refine Meets.pure ⟨h.1, Expr.everyLabel_relatedRow hlabel (fun r hr => ?_) ?_⟩
      · cases hr
        exact hlabel
      · exact List.forall_mem_nil _
  | _, .call _ arguments, hj => by
      refine leads_lookup fun f _ => ?_
      refine Meets.bind ((computedAll_runs arguments hj).mono fun es w' h => ?_)
      exact Meets.pure ⟨h.1, trivial, Expr.everyAll_iff.mpr h.2⟩
  | _, .binary left _ right, hj => by
      refine Meets.bind ((computed_runs left hj.1).mono fun l w₁ h₁ => ?_)
      refine Meets.bind ((computed_runs right hj.2).mono fun r w₂ h₂ => ?_)
      exact Meets.pure ⟨h₁.1.trans h₂.1, trivial, h₁.2.mono h₂.1.grows.sees, h₂.2⟩
  | _, .isNull e, hj => by
      refine Meets.bind ((computed_runs e hj).mono fun a w' h => ?_)
      exact Meets.pure ⟨h.1, trivial, h.2⟩

theorem computedAll_runs : ∀ {w : Work} (es : List Computed), Computed.EveryJoinAll S es →
    Leads (computedAll es) w fun as w' => w.Runs S P [] w' ∧
      ∀ a ∈ as, a.EveryLabel w'.context.Sees
  | w, [], _ => Meets.pure ⟨.binds (.refl w), List.forall_mem_nil _⟩
  | _, e :: es, hj => by
      refine Meets.bind ((computed_runs e hj.1).mono fun a w₁ h₁ => ?_)
      refine Meets.bind ((computedAll_runs es hj.2).mono fun as w₂ h₂ => ?_)
      refine Meets.pure ⟨h₁.1.trans h₂.1, List.forall_mem_cons.mpr ⟨?_, h₂.2⟩⟩
      exact h₁.2.mono h₂.1.grows.sees

end

end Compile

/-! ### Fragments -/

/-- A relation with this join is opened if it is asked for with a fragment. -/
def Selection.opensOn (join : JoinSpec) : Selection → List JoinSpec
  | .field _ => []
  | .nested _ _ => [join]

/-- What a field opens: the join of a relation that the user may read and that is asked for with a
fragment. -/
def Selection.opens (user : Option User) (t : Table) (s : Selection) : List JoinSpec :=
  match t.fields.get? s.name with
  | some ⟨.relation join, rules⟩ => if canRead user rules then s.opensOn join else []
  | _ => []

/-- The joins of the relations that a fragment goes on from with fragments of their own. -/
def Fragment.opens (user : Option User) (t : Table) (f : Fragment) : List JoinSpec :=
  f.selections.flatMap (Selection.opens user t)

namespace Compile

variable {S : JoinSpec → Prop} {P : List JoinSpec → Prop} {env : Env}

theorem runs_foldl_addColumn (names : List String) (w : Work) :
    w.Runs S P [] { w with context := names.foldl Context.addColumn w.context } := by
  induction names generalizing w with
  | nil => exact .binds (.refl w)
  | cons name names ih => exact .trans (.column w name) (ih _)

theorem runs_baseRow (env : Env) (allReadable : Bool) (w : Work) :
    w.Runs S P [] { w with context := (baseRow env allReadable w.context).2 } := by
  unfold baseRow
  split
  · exact .row w
  · dsimp only
    split
    · exact .trans (.column w primaryKey) (runs_foldl_addColumn _ _)
    · exact .column w primaryKey

theorem joins_baseRow (env : Env) (allReadable : Bool) (c : Context) :
    (baseRow env allReadable c).2.joins = c.joins := by
  unfold baseRow
  split
  · rfl
  · dsimp only
    split
    · rw [Context.joins_foldl_addColumn]
      rfl
    · rfl

/-- A field that is left out opens nothing. -/
theorem opens_of_not_canRead {user : Option User} {t : Table} {s : Selection} {field : Field}
    (hfield : t.fields.get? s.name = some field) (h : ¬ canRead user field.rules = true) :
    s.opens user t = [] := by
  obtain ⟨kind, rules⟩ := field
  unfold Selection.opens
  rw [hfield]
  cases kind with
  | relation join => exact if_neg h
  | _ => rfl

/-- `nest` runs every fragment of the metadata in a context of its table. -/
def NestRuns (S : JoinSpec → Prop) (P : List JoinSpec → Prop) (env : Env)
    (nest : String → Fragment → Compile Unit) : Prop :=
  ∀ name f, env.metadata.fragments.get? name = some f → ∀ w : Work,
    env.metadata.tables.get? f.table = some w.context.table.table →
    Leads (nest name f) w fun _ w' => w.Runs S P (f.opens env.user w.context.table.table) w'

/-- Every join of the metadata meets `S`, and what a fragment opens meets `P`. -/
structure Admits (S : JoinSpec → Prop) (P : List JoinSpec → Prop) (env : Env) : Prop where
  joins : ∀ name t, env.metadata.tables.get? name = some t →
    ∀ field f, t.fields.get? field = some f → f.kind.EveryJoin S
  opens : ∀ name f t, env.metadata.fragments.get? name = some f →
    env.metadata.tables.get? f.table = some t → P (f.opens env.user t)

theorem admits_true (env : Env) : Admits (fun _ => True) (fun _ => True) env where
  joins _ _ _ _ f _ := by
    cases f.kind with
    | column c => trivial
    | computed e => exact e.everyJoin_of_forall fun _ => trivial
    | relation join => trivial
  opens _ _ _ _ _ := trivial

section nest

variable {nest : String → Fragment → Compile Unit} {w : Work}

/-- A nested context that was run is folded back. -/
theorem aggregate_runs {wc : Work} {table : NamedTable} {label : String}
    (hg : Work.Grows ⟨w.context.child table label, w.aliases, w.dropped⟩ wc) (name : String)
    {opened : List JoinSpec}
    (h : w.Runs S P opened { wc with context := w.context.folded wc.context name }) :
    Leads (aggregate wc.context name) { wc with context := w.context } fun _ w' =>
      w.Runs S P opened w' := by
  unfold Leads Meets
  rw [(hg.fold name).1]
  exact h

theorem relation_runs (hP : Admits S P env) (hnest : NestRuns S P env nest) (selection : Selection)
    {join : JoinSpec} (hjoin : S join) : Leads (relation env nest selection join) w fun _ w' =>
      w.Runs S P (selection.opensOn join) w' := by
  refine Meets.bind ((addJoin_runs P hjoin).mono fun label w₁ h₁ => ?_)
  obtain ⟨hrun₁, j, hj, rfl, hspec⟩ := h₁
  refine leads_lookup fun table htable => ?_
  obtain ⟨-, htable⟩ := Request.lookupTable_ok htable
  refine Meets.get ?_
  cases selection with
  | field name =>
      have hrow := runs_baseRow (S := S) (P := P) env true
        ⟨w₁.context.child table j.join.label, w₁.aliases, w₁.dropped⟩
      have hfold := Work.Runs.plain table name hj hrow (joins_baseRow env true _)
      exact (aggregate_runs hrow.grows name hfold).mono fun _ _ h => hrun₁.trans h
  | nested name fragmentName =>
      refine leads_lookup fun f hf => ?_
      have hfragment := Request.lookupFragment_ok hf
      refine Meets.ite (fun _ => Meets.bind (Meets.throw trivial)) fun hsame => ?_
      have hown : env.metadata.tables.get? f.table = some table.table := by
        rw [not_not.mp hsame]
        exact htable
      refine Meets.bind (meets_inChild ?_)
      have hchild := hnest fragmentName f hfragment
        ⟨w₁.context.child table j.join.label, w₁.aliases, w₁.dropped⟩ hown
      refine hchild.mono fun _ wc hc => ?_
      have hfold := Work.Runs.fold table name hj hspec hc (hP.opens fragmentName f _ hfragment hown)
      exact (aggregate_runs hc.grows name hfold).mono fun _ _ h => hrun₁.trans h

theorem readableField_runs (hP : Admits S P env) (hnest : NestRuns S P env nest) (wholeRow : Bool)
    {table : NamedTable} {selection : Selection} {field : Field}
    (hfield : table.table.fields.get? selection.name = some field)
    (hread : canRead env.user field.rules = true) (hjoins : field.kind.EveryJoin S) :
    Leads (readableField env nest wholeRow table.name selection field.kind) w fun _ w' =>
      w.Runs S P (selection.opens env.user table.table) w' := by
  obtain ⟨kind, rules⟩ := field
  unfold Selection.opens
  rw [hfield]
  cases kind with
  | column c =>
      cases selection with
      | field name => exact Meets.ite (fun _ => .column w name) fun _ => .binds (.refl w)
      | nested name fragment => exact Meets.throw trivial
  | computed e =>
      cases selection with
      | field name =>
          refine Meets.bind ((computed_runs (P := P) e hjoins).mono fun a w₁ h₁ => ?_)
          exact h₁.1.trans (.named w₁ name h₁.2)
      | nested name fragment => exact Meets.throw trivial
  | relation join =>
      have hrun := relation_runs (w := w) hP hnest selection hjoins
      dsimp only at hread ⊢
      rw [if_pos hread]
      cases selection <;> exact hrun

theorem selections_runs (hP : Admits S P env) (hnest : NestRuns S P env nest) (fragment : String)
    (wholeRow : Bool) {table : NamedTable}
    (htable : ∃ name, env.metadata.tables.get? name = some table.table) (seen : List String)
    (selections : List Selection) :
    Leads (Compile.selections env nest fragment wholeRow table seen selections) w fun _ w' =>
      w.Runs S P (selections.flatMap (Selection.opens env.user table.table)) w' := by
  induction selections generalizing w seen with
  | nil => exact .binds (.refl w)
  | cons s rest ih =>
      rw [Compile.selections]
      refine Meets.ite (fun _ => Meets.bind (Meets.throw trivial)) fun _ => ?_
      refine leads_lookup fun field hfield => ?_
      have hget := Request.lookupField_ok hfield
      obtain ⟨name, hname⟩ := htable
      have hjoins := hP.joins name _ hname _ _ hget
      rw [List.flatMap_cons]
      refine Meets.ite (fun hread => Meets.bind ?_) fun hread => Meets.bind (meets_drop ?_)
      · refine (readableField_runs hP hnest wholeRow hget hread hjoins).mono fun _ w₁ h₁ => ?_
        exact (ih (s.name :: seen)).mono fun _ w₂ h₂ => h₁.trans h₂
      · rw [opens_of_not_canRead hget hread]
        exact (ih (s.name :: seen)).mono fun _ w₂ h₂ => .trans (.drops w _) h₂

end nest

/-- Compiling a fragment is a run, by induction over the room that is left for nesting. -/
theorem fragment_runs (hP : Admits S P env) (room : Nat) (path : FragmentPath) :
    NestRuns S P env (fragment env room path) := by
  induction room generalizing path with
  | zero =>
      intro name f hf w htable
      exact leads_lookup fun _ _ => Meets.throw trivial
  | succ room ih =>
      intro name f hf w htable
      refine leads_lookup fun path' _ => ?_
      have hrow := runs_baseRow (S := S) (P := P) env false w
      refine Meets.bind (meets_onContext (Meets.get ?_))
      have hown : ∃ name, env.metadata.tables.get? name =
          some (baseRow env false w.context).2.table.table := by
        rw [hrow.grows.place.table]
        exact ⟨f.table, htable⟩
      refine (selections_runs hP (ih path') name _ hown [] f.selections).mono fun _ w' h => ?_
      have hfirst := hrow.trans h
      rw [hrow.grows.place.table] at hfirst
      exact hfirst

theorem namedFragment_runs (hP : Admits S P env) {name : String} {f : Fragment} {w : Work}
    (hf : env.metadata.lookupFragment name = .ok f)
    (htable : env.metadata.tables.get? f.table = some w.context.table.table) :
    Leads (namedFragment env name) w fun _ w' =>
      w.Runs S P (f.opens env.user w.context.table.table) w' := by
  unfold namedFragment
  rw [hf]
  refine leads_lookup fun f' hf' => ?_
  cases hf'
  exact fragment_runs hP _ _ name f (Request.lookupFragment_ok hf) w htable

end Compile

/-! ### Requests -/

namespace Request

variable {env : Env} {r : Request} {table : NamedTable} {aliases : Aliases}

/-- A select statement is what its context shows and joins, under aliases that are all different;
what comes after that is about the context's own table. -/
structure Completes (c : Context) (s : Select Placeholder) : Prop where
  items : s.items = c.selectItems
  source : s.source = some ⟨c.table.name, c.label⟩
  joins : s.joins = c.joins.map OwnedJoin.join
  labels : Context.repeatedAlias? [c.label] (OwnedJoin.labels c.joins) = none
  condition : s.condition.EveryLabel (· = c.label)
  order : ∀ t ∈ s.order, t.target.EveryLabel (· = c.label)

theorem orderBy_labels {label : String} {sort : Entries Direction}
    {terms : List (OrderTerm Placeholder)} (h : table.orderBy label sort = .ok terms) :
    ∀ t ∈ terms, t.target.EveryLabel (· = label) := by
  induction sort generalizing terms with
  | nil =>
      cases h
      exact List.forall_mem_nil _
  | cons entry sort ih =>
      obtain ⟨field, direction⟩ := entry
      unfold NamedTable.orderBy at h
      split at h
      · cases h
      · split at h
        · cases h
        · rename_i rest hrest
          cases h
          have hfirst : (Expr.columnOf label field : Expr Placeholder).EveryLabel (· = label) := rfl
          exact List.forall_mem_cons.mpr ⟨hfirst, ih hrest⟩

/-- A request is compiled by compiling its fragment and completing what comes of it. -/
theorem compileIn_completes : Compile.Leads (compileIn env r table) (r.start env table aliases)
    fun s w' => ∃ w, Compile.namedFragment env r.fragment (r.begun env table aliases) = .ok () w ∧
      Completes w.context s ∧ ∃ args, w'.context = { w.context with arguments := args } := by
  refine Meets.bind ?_
  unfold Meets
  rw [setCurrentUser_start]
  refine Meets.bind ((Compile.leads_any _).with_ok.mono fun _ w hw => Meets.get ?_)
  have hselector := Target.selector_gives (buildsConditions_atLabel (· = w.context.label))
    (t := ⟨table, some w.context.label, r.caseInsensitive⟩) (fun _ _ _ => rfl) r.selector
  have hcondition := (hselector w.context.arguments).with_error fun _ _ _ _ => trivial
  refine Meets.bind (Compile.meets_onArguments (hcondition.mono fun condition args hcond => ?_))
  refine Compile.leads_lookup fun order horder => ?_
  refine Meets.bind ((bindCount_meets r.limit).mono fun limit w₁ h₁ => ?_)
  obtain ⟨args₁, rfl⟩ := h₁
  refine Meets.bind ((bindCount_meets r.skip).mono fun offset w₂ h₂ => ?_)
  obtain ⟨args₂, rfl⟩ := h₂
  refine Meets.get (Compile.leads_lookup fun s hs => ?_)
  obtain ⟨hnone, rfl⟩ := Context.select_ok hs
  rw [List.map_map] at hnone
  exact ⟨w, hw.2, ⟨rfl, rfl, rfl, hnone, hcond, orderBy_labels horder⟩, _, rfl⟩

/-- **A compiled request is a run** from the context where the user is joined, and its select
statement is completed from the context that the run leaves. -/
theorem compile_runs {S : JoinSpec → Prop} {P : List JoinSpec → Prop}
    (hP : Compile.Admits S P env) {q : Query} (h : r.compile env aliases = .ok q) :
    ∃ f table w w', env.metadata.lookupFragment r.fragment = .ok f ∧
      env.metadata.lookupTable f.table = .ok table ∧
      compileIn env r table (r.start env table aliases) = .ok q.select w' ∧
      w'.context.joins = w.context.joins ∧
      (r.begun env table aliases).Runs S P (f.opens env.user table.table) w ∧
      Completes w.context q.select := by
  obtain ⟨f, table, w', hf, ht, hrun, -⟩ := exists_compileIn h
  obtain ⟨w, hw, hcompletes, args, hcontext⟩ := compileIn_completes.of_ok hrun
  have hjoins : w'.context.joins = w.context.joins := by rw [hcontext]
  obtain ⟨-, htable⟩ := lookupTable_ok ht
  have hruns := Compile.namedFragment_runs (w := r.begun env table aliases) hP hf htable
  exact ⟨f, table, w, w', hf, ht, hrun, hjoins, hruns.of_ok hw, hcompletes⟩

end Request

end ShapedQuery
