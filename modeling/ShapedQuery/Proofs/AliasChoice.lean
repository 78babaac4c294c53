import Mathlib.Data.Set.Finite.Basic
import Mathlib.Logic.Denumerable
import Mathlib.Logic.Equiv.List
import ShapedQuery.Proofs.Relabel

/-! # The choice of aliases does not matter

Two sequences of aliases that cannot clash lead to the same error or to the same query up to the
names of the aliases (`Request.compile_renamed`).

The proof follows two runs side by side, the second of which draws the aliases of the first,
renamed by `f` (`Work.Follows`).  If `f` keeps different aliases apart and leaves those of the root
and the user alone, then both runs do the same at every step, up to renaming (`FollowsAt`).

There is no such `f` between any two sequences, as it has to be defined on all names: those that
the first sequence leaves out may be more than those that the second one does.  But there is one
from a sequence that leaves out nothing (`Aliases.exists_full`) to each of them. -/

namespace ShapedQuery

/-! ### Runs side by side -/

/-- The second sequence goes on like the first one, renamed. -/
def Aliases.Follows (f : String → String) (a b : Aliases) : Prop :=
  ∀ i, b.name (b.drawn + i) = f (a.name (a.drawn + i))

theorem Aliases.Follows.next {f : String → String} {a b : Aliases} (h : a.Follows f b) :
    b.next.1 = f a.next.1 ∧ a.next.2.Follows f b.next.2 := by
  refine ⟨h 0, fun i => ?_⟩
  have hi := h (1 + i)
  rw [← Nat.add_assoc, ← Nat.add_assoc] at hi
  exact hi

/-- A renaming that keeps different aliases apart and leaves those of the root and of the user
alone. -/
structure Renames (f : String → String) (root : String) : Prop where
  inj : Function.Injective f
  root : f root = root
  user : f currentUserAlias = currentUserAlias

/-- What the second run works on is that of the first one, renamed. -/
structure Work.Follows (f : String → String) (w w' : Work) : Prop where
  context : w'.context = w.context.relabel f
  aliases : w.aliases.Follows f w'.aliases
  dropped : w'.dropped = w.dropped

section steps

variable {α β γ δ : Type} {f : String → String} {g : α → β} {h : γ → δ} {w w' : Work}
  {x : Compile α} {x' : Compile β} {k : α → Compile γ} {k' : β → Compile δ}

/-- From `w` and `w'`, the second step gives what `g` makes of the result of the first one, or both
fail with the same error. -/
def FollowsAt (f : String → String) (g : α → β) (w w' : Work) (x : Compile α) (x' : Compile β) :
    Prop :=
  match x w, x' w' with
  | .ok a v, .ok b v' => b = g a ∧ v.Follows f v'
  | .error e _, .error e' _ => e' = e
  | _, _ => False

/-- What the two steps can do. -/
theorem FollowsAt.cases (hx : FollowsAt f g w w' x x') :
    (∃ a v v', x w = .ok a v ∧ x' w' = .ok (g a) v' ∧ v.Follows f v') ∨
      ∃ e v v', x w = .error e v ∧ x' w' = .error e v' := by
  unfold FollowsAt at hx
  split at hx
  · rename_i a v b v' hrun hrun'
    obtain ⟨rfl, hv⟩ := hx
    exact .inl ⟨a, v, v', hrun, hrun', hv⟩
  · rename_i e v e' v' hrun hrun'
    subst hx
    exact .inr ⟨e', v, v', hrun, hrun'⟩
  · exact hx.elim

theorem FollowsAt.bind (hx : FollowsAt f g w w' x x')
    (hk : ∀ a v v', x w = .ok a v → v.Follows f v' → FollowsAt f h v v' (k a) (k' (g a))) :
    FollowsAt f h w w' (x >>= k) (x' >>= k') := by
  obtain ⟨a, v, v', hrun, hrun', hv⟩ | ⟨e, v, v', hrun, hrun'⟩ := hx.cases
  · have hrest := hk a v v' hrun hv
    simpa only [FollowsAt, Bind.bind, EStateM.bind, hrun, hrun'] using hrest
  · simp only [FollowsAt, Bind.bind, EStateM.bind, hrun, hrun']

theorem FollowsAt.pure {a : α} {b : β} (hw : w.Follows f w') (hb : b = g a) :
    FollowsAt f g w w' (Pure.pure a) (Pure.pure b) := ⟨hb, hw⟩

theorem FollowsAt.throw (e : QueryError) :
    FollowsAt f g w w' (MonadExcept.throw e) (MonadExcept.throw e) := rfl

theorem FollowsAt.ite {p : Prop} [Decidable p] {y : Compile α} {y' : Compile β}
    (hx : p → FollowsAt f g w w' x x') (hy : ¬ p → FollowsAt f g w w' y y') :
    FollowsAt f g w w' (if p then x else y) (if p then x' else y') := by
  split
  · exact hx ‹_›
  · exact hy ‹_›

theorem FollowsAt.get {k : Work → Compile α} {k' : Work → Compile β}
    (hk : FollowsAt f g w w' (k w) (k' w')) :
    FollowsAt f g w w' (MonadState.get >>= k) (MonadState.get >>= k') := hk

theorem FollowsAt.ofExcept (hw : w.Follows f w') (r : Except QueryError α) :
    FollowsAt f g w w' (Compile.ofExcept r) (Compile.ofExcept (r.map g)) := by
  cases r with
  | error e => exact rfl
  | ok a => exact ⟨rfl, hw⟩

/-- Both runs look up the same. -/
theorem FollowsAt.lookup {ρ : Type} {r : Except QueryError ρ} {k : ρ → Compile α}
    {k' : ρ → Compile β} (hk : ∀ a, r = .ok a → FollowsAt f g w w' (k a) (k' a)) :
    FollowsAt f g w w' (Compile.ofExcept r >>= k) (Compile.ofExcept r >>= k') := by
  cases r with
  | error e => exact rfl
  | ok a => exact hk a rfl

theorem FollowsAt.onContext (hw : w.Follows f w') {F : Context → α × Context}
    {F' : Context → β × Context}
    (hF : F' (w.context.relabel f) = (g (F w.context).1, (F w.context).2.relabel f)) :
    FollowsAt f g w w' (Compile.onContext F) (Compile.onContext F') := by
  unfold FollowsAt Compile.onContext
  rw [hw.context, hF]
  exact ⟨rfl, { hw with context := rfl }⟩

theorem FollowsAt.modify (hw : w.Follows f w') {F F' : Context → Context}
    (hF : F' (w.context.relabel f) = (F w.context).relabel f) :
    FollowsAt f id w w' (Compile.modifyContext F) (Compile.modifyContext F') := by
  unfold FollowsAt Compile.modifyContext
  rw [hw.context, hF]
  exact ⟨rfl, { hw with context := rfl }⟩

end steps

/-! ### The steps of the compiler -/

namespace Compile

variable {f : String → String} {root : String} {w w' : Work}

theorem bindParam_follows (hw : w.Follows f w') (v : Param) :
    FollowsAt f id w w' (bindParam v) (bindParam v) := FollowsAt.onContext hw rfl

theorem drawAlias_follows (hw : w.Follows f w') : FollowsAt f f w w' drawAlias drawAlias := by
  obtain ⟨hlabel, hrest⟩ := hw.aliases.next
  exact ⟨hlabel, { hw with aliases := hrest }⟩

theorem joinOperand_follows (hf : Renames f root) (hw : w.Follows f w') (o : JoinOperand) :
    FollowsAt f (Expr.relabel f) w w' (joinOperand o) (joinOperand o) := by
  cases o with
  | column name =>
      refine FollowsAt.get ?_
      dsimp only
      rw [hw.context]
      exact FollowsAt.lookup fun _ _ => FollowsAt.pure hw rfl
  | currentUserColumn name =>
      refine FollowsAt.get ?_
      rw [hw.context, Context.relabel_currentUserColumn f _ hf.user]
      exact FollowsAt.ofExcept hw _
  | resolverArg name =>
      have hstep : FollowsAt f (Expr.relabel f) w w' (onContext fun c => c.resolverArg name)
          (onContext fun c => c.resolverArg name) :=
        FollowsAt.onContext hw (Context.relabel_resolverArg f _ name)
      exact hstep
  | value j => exact (bindParam_follows hw _).bind fun p v v' _ hv => FollowsAt.pure hv rfl

theorem joinConditions_follows (hf : Renames f root) (hw : w.Follows f w') (label : String)
    (es : Entries JoinOperand) :
    FollowsAt f (List.map (Expr.relabel f)) w w' (joinConditions label es)
      (joinConditions (f label) es) := by
  induction es generalizing w w' with
  | nil => exact FollowsAt.pure hw rfl
  | cons e es ih =>
      refine (joinOperand_follows hf hw e.2).bind fun value v v' _ hv => ?_
      exact (ih hv).bind fun conditions u u' _ hu => FollowsAt.pure hu rfl

/-- Both runs use a join again, or both make one. -/
theorem addJoin_follows (hf : Renames f root) (hw : w.Follows f w') (spec : JoinSpec) :
    FollowsAt f f w w' (addJoin spec) (addJoin spec) := by
  refine FollowsAt.get ?_
  dsimp only
  rw [hw.context, Context.relabel_find? _ hf.inj]
  cases w.context.joins.find? fun j => j.serves w.context.label spec with
  | some j => exact FollowsAt.pure hw rfl
  | none =>
      refine (drawAlias_follows hw).bind fun label v v' _ hv => ?_
      refine (joinConditions_follows hf hv label spec.on).bind fun on u u' _ hu => ?_
      refine (FollowsAt.modify hu ?_).bind fun _ u u' _ hu => FollowsAt.pure hu rfl
      exact (Context.relabel_addJoin f _ spec label on).symm

mutual

theorem computed_follows (hf : Renames f root) : ∀ {w w' : Work}, w.Follows f w' →
    ∀ e : Computed, FollowsAt f (Expr.relabel f) w w' (computed e) (computed e)
  | _, _, hw, .column name => joinOperand_follows hf hw (.column name)
  | _, _, hw, .currentUserColumn name => joinOperand_follows hf hw (.currentUserColumn name)
  | _, _, hw, .resolverArg name => joinOperand_follows hf hw (.resolverArg name)
  | _, _, hw, .value j => joinOperand_follows hf hw (.value j)
  | _, _, hw, .joinedColumn join _ =>
      (addJoin_follows hf hw join).bind fun _ _ _ _ hv => FollowsAt.pure hv rfl
  | _, _, hw, .joinedRow join =>
      (addJoin_follows hf hw join).bind fun _ _ _ _ hv => FollowsAt.pure hv rfl
  | _, _, hw, .call _ arguments => by
      refine FollowsAt.lookup fun function _ => ?_
      refine (computedAll_follows hf hw arguments).bind fun es v v' _ hv => FollowsAt.pure hv ?_
      rw [Expr.relabel, Expr.relabelAll_eq]
  | _, _, hw, .binary left _ right =>
      (computed_follows hf hw left).bind fun _ _ _ _ hv =>
        (computed_follows hf hv right).bind fun _ _ _ _ hu => FollowsAt.pure hu rfl
  | _, _, hw, .isNull e =>
      (computed_follows hf hw e).bind fun _ _ _ _ hv => FollowsAt.pure hv rfl

theorem computedAll_follows (hf : Renames f root) : ∀ {w w' : Work}, w.Follows f w' →
    ∀ es : List Computed,
      FollowsAt f (List.map (Expr.relabel f)) w w' (computedAll es) (computedAll es)
  | _, _, hw, [] => FollowsAt.pure hw rfl
  | _, _, hw, e :: es =>
      (computed_follows hf hw e).bind fun _ _ _ _ hv =>
        (computedAll_follows hf hv es).bind fun _ _ _ _ hu => FollowsAt.pure hu rfl

end

theorem aggregate_follows (hf : Renames f root) (hw : w.Follows f w') (child : Context)
    (name : String) :
    FollowsAt f id w w' (aggregate child name) (aggregate (child.relabel f) name) := by
  have harguments : ∀ c : Context, (c.relabel f).arguments = c.arguments := fun _ => rfl
  unfold FollowsAt aggregate
  rw [hw.context, Context.aggregate_eq, Context.aggregate_eq, ← Context.relabel_folded _ hf.inj,
    harguments, harguments]
  by_cases ho : child.arguments.offset = w.context.arguments.size
  · rw [if_pos ho, if_pos ho]
    exact ⟨rfl, { hw with context := rfl }⟩
  · rw [if_neg ho, if_neg ho]

theorem inChild_follows (hw : w.Follows f w') {child : Context} {step : Compile Unit}
    (hstep : FollowsAt f id ⟨child, w.aliases, w.dropped⟩
      ⟨child.relabel f, w'.aliases, w'.dropped⟩ step step) :
    FollowsAt f (Context.relabel f) w w' (inChild child step) (inChild (child.relabel f) step) := by
  unfold FollowsAt inChild
  obtain ⟨a, v, v', hrun, hrun', hv⟩ | ⟨e, v, v', hrun, hrun'⟩ := hstep.cases
  · rw [hrun, hrun']
    exact ⟨hv.context, { hv with context := hw.context }⟩
  · rw [hrun, hrun']

theorem drop_follows (hw : w.Follows f w') (d : Dropped) :
    FollowsAt f id w w' (drop d) (drop d) := by
  refine ⟨rfl, { hw with dropped := ?_ }⟩
  rw [hw.dropped]

section nest

variable {env : Env} {nest : String → Fragment → Compile Unit}
  (hnest : ∀ name fragment {w w' : Work}, w.Follows f w' →
    FollowsAt f id w w' (nest name fragment) (nest name fragment))

include hnest

theorem relation_follows (hf : Renames f root) (hw : w.Follows f w') (selection : Selection)
    (join : JoinSpec) :
    FollowsAt f id w w' (relation env nest selection join) (relation env nest selection join) := by
  refine (addJoin_follows hf hw join).bind fun label v v' _ hv => ?_
  refine FollowsAt.lookup fun table _ => FollowsAt.get ?_
  dsimp only
  rw [hv.context, ← Context.relabel_child]
  cases selection with
  | field name =>
      dsimp only
      rw [Context.relabel_baseRow]
      exact aggregate_follows hf hv _ name
  | nested name fragmentName =>
      refine FollowsAt.lookup fun fragment _ => ?_
      refine FollowsAt.ite (fun _ => FollowsAt.throw _) fun _ => ?_
      refine (inChild_follows hv ?_).bind fun child u u' _ hu => aggregate_follows hf hu child name
      exact hnest fragmentName fragment { hv with context := rfl }

theorem readableField_follows (hf : Renames f root) (hw : w.Follows f w') (wholeRow : Bool)
    (table : String) (selection : Selection) (kind : FieldKind) :
    FollowsAt f id w w' (readableField env nest wholeRow table selection kind)
      (readableField env nest wholeRow table selection kind) := by
  cases kind with
  | column c =>
      cases selection with
      | field name =>
          refine FollowsAt.ite (fun _ => FollowsAt.modify hw ?_) fun _ => FollowsAt.pure hw rfl
          exact (Context.relabel_addColumn f _ name).symm
      | nested name fragment => exact FollowsAt.throw _
  | computed e =>
      cases selection with
      | field name =>
          refine (computed_follows hf hw e).bind fun e v v' _ hv => FollowsAt.modify hv ?_
          exact (Context.relabel_addNamed f _ name e).symm
      | nested name fragment => exact FollowsAt.throw _
  | relation join => exact relation_follows hnest hf hw selection join

theorem selections_follows (hf : Renames f root) (hw : w.Follows f w') (fragment : String)
    (wholeRow : Bool) (table : NamedTable) (seen : List String) (ss : List Selection) :
    FollowsAt f id w w' (selections env nest fragment wholeRow table seen ss)
      (selections env nest fragment wholeRow table seen ss) := by
  induction ss generalizing w w' seen with
  | nil => exact FollowsAt.pure hw rfl
  | cons selection rest ih =>
      unfold selections
      refine FollowsAt.ite (fun _ => rfl) fun _ => FollowsAt.lookup fun field _ => ?_
      refine FollowsAt.ite (fun _ => ?_) fun _ => ?_
      · exact (readableField_follows hnest hf hw wholeRow table.name selection field.kind).bind
          fun _ v v' _ hv => ih hv _
      · exact (drop_follows hw _).bind fun _ v v' _ hv => ih hv _

end nest

theorem fragment_follows {env : Env} (hf : Renames f root) (room : Nat) (path : FragmentPath)
    (name : String) (fragment : Fragment) {w w' : Work} (hw : w.Follows f w') :
    FollowsAt f id w w' (Compile.fragment env room path name fragment)
      (Compile.fragment env room path name fragment) := by
  induction room generalizing path name fragment w w' with
  | zero => exact FollowsAt.lookup fun _ _ => FollowsAt.throw _
  | succ room ih =>
      refine FollowsAt.lookup fun path _ => ?_
      have hrow := FollowsAt.onContext (g := id) hw (Context.relabel_baseRow f w.context env false)
      refine hrow.bind fun wholeRow v v' _ hv => FollowsAt.get ?_
      dsimp only
      rw [hv.context]
      exact selections_follows (fun name fragment _ _ => ih path name fragment) hf hv name
        wholeRow _ [] fragment.selections

theorem namedFragment_follows {env : Env} (hf : Renames f root) (hw : w.Follows f w')
    (name : String) :
    FollowsAt f id w w' (namedFragment env name) (namedFragment env name) :=
  FollowsAt.lookup fun fragment _ => fragment_follows hf _ _ name fragment hw

end Compile

/-! ### Requests -/

namespace Request

variable {f : String → String} {env : Env} {r : Request} {table : NamedTable} {a b : Aliases}

theorem begun_follows (hf : Renames f (rootAlias table.name)) (h : a.Follows f b) :
    (r.begun env table a).Follows f (r.begun env table b) where
  context := by
    simp [begun, Context.relabel, Context.root, Context.bind, OwnedJoin.relabel, Join.relabel,
      Expr.relabel, Expr.columnOf, ColumnRef.relabel, hf.root, hf.user]
  aliases := h
  dropped := rfl

/-- A condition is about the root only, so both runs build the same one. -/
theorem selector_follows {w w' : Work} (hw : w.Follows f w') {label : String}
    (hlabel : f label = label) (caseInsensitive : Bool) (selector : Selector) :
    FollowsAt f (Expr.relabel f) w w'
      (Compile.onArguments ((Target.mk table (some label) caseInsensitive).selector selector))
      (Compile.onArguments ((Target.mk table (some label) caseInsensitive).selector selector)) := by
  have hgives := Target.selector_gives (buildsConditions_atLabel (· = label))
    (t := ⟨table, some label, caseInsensitive⟩) (fun _ _ _ => rfl) selector w.context.arguments
  have harguments : (w.context.relabel f).arguments = w.context.arguments := rfl
  unfold FollowsAt Compile.onArguments
  rw [hw.context, harguments]
  cases hx : (Target.mk table (some label) caseInsensitive).selector selector
      w.context.arguments with
  | error e args => exact rfl
  | ok e args =>
      have hlabels : e.EveryLabel (· = label) := hgives.of_ok hx
      have hself : e.relabel f = e :=
        Expr.relabel_eq_self f (hlabels.mono fun l hl => by rw [hl, hlabel])
      exact ⟨hself.symm, { hw with context := rfl }⟩

theorem bindCount_follows {w w' : Work} (hw : w.Follows f w') (n : Option UInt32) :
    FollowsAt f id w w' (bindCount n) (bindCount n) := by
  cases n with
  | none => exact FollowsAt.pure hw rfl
  | some n =>
      exact (Compile.bindParam_follows hw _).bind fun p v v' _ hv => FollowsAt.pure hv rfl

theorem onArguments_ok {α : Type} {x : EStateM QueryError Arguments α} {w w' : Work} {result : α}
    (h : Compile.onArguments x w = .ok result w') :
    ∃ args, w' = { w with context := { w.context with arguments := args } } := by
  unfold Compile.onArguments at h
  split at h
  · cases h
    exact ⟨_, rfl⟩
  · cases h

/-- The aliases of a compiled fragment are all different, if those that are drawn cannot clash. -/
theorem labels_of_namedFragment (hclear : a.Clear (rootAlias table.name)) {fragment : Fragment}
    (hfragment : env.metadata.lookupFragment r.fragment = .ok fragment)
    (htable : env.metadata.tables.get? fragment.table = some table.table) {w : Work}
    (h : Compile.namedFragment env r.fragment (r.begun env table a) = .ok () w) :
    w.context.label = rootAlias table.name ∧
      Context.repeatedAlias? [w.context.label] (OwnedJoin.labels w.context.joins) = none := by
  have hruns := Compile.namedFragment_runs (w := r.begun env table a) (Compile.admits_true env)
    hfragment htable
  have hgrows := (hruns.of_ok h).grows
  have hlabel : w.context.label = rootAlias table.name := hgrows.place.label
  obtain ⟨labels, hlabels, hn⟩ := labels_of_grows hgrows
  refine ⟨hlabel, ?_⟩
  rw [hlabel, hlabels]
  exact hclear.repeatedAlias?_eq_none (rootAlias_ne_currentUserAlias _) hn

theorem compileIn_follows (hf : Renames f (rootAlias table.name)) (h : a.Follows f b)
    (hclear : a.Clear (rootAlias table.name)) {fragment : Fragment}
    (hfragment : env.metadata.lookupFragment r.fragment = .ok fragment)
    (htable : env.metadata.tables.get? fragment.table = some table.table) :
    FollowsAt f (Select.relabel f) (r.start env table a) (r.start env table b)
      (compileIn env r table) (compileIn env r table) := by
  have huser : FollowsAt f id (r.start env table a) (r.start env table b)
      (Compile.setCurrentUser env.user) (Compile.setCurrentUser env.user) := by
    unfold FollowsAt
    rw [setCurrentUser_start, setCurrentUser_start]
    exact ⟨rfl, begun_follows hf h⟩
  refine huser.bind fun _ w₀ w₀' hrun₀ hw₀ => ?_
  rw [setCurrentUser_start] at hrun₀
  cases hrun₀
  refine (Compile.namedFragment_follows hf hw₀ r.fragment).bind fun _ w₁ w₁' hrun₁ hw₁ => ?_
  obtain ⟨hlabel, hnone⟩ := labels_of_namedFragment hclear hfragment htable hrun₁
  have hfixed : f w₁.context.label = w₁.context.label := by rw [hlabel, hf.root]
  have hlabel' : w₁'.context.label = w₁.context.label := by
    rw [hw₁.context]
    exact hfixed
  refine FollowsAt.get ?_
  dsimp only
  rw [hlabel']
  refine (selector_follows hw₁ hfixed _ r.selector).bind fun condition w₂ w₂' hrun₂ hw₂ => ?_
  refine FollowsAt.lookup fun order horder => ?_
  refine (bindCount_follows hw₂ r.limit).bind fun limit w₃ w₃' hrun₃ hw₃ => ?_
  refine (bindCount_follows hw₃ r.skip).bind fun offset w₄ w₄' hrun₄ hw₄ => ?_
  -- since the fragment was compiled only values were bound
  have hcontext : ∃ args, w₄.context = { w₁.context with arguments := args } := by
    obtain ⟨args₂, rfl⟩ := onArguments_ok hrun₂
    obtain ⟨args₃, rfl⟩ := (bindCount_meets (E := fun _ => True) r.limit).of_ok hrun₃
    obtain ⟨args₄, rfl⟩ := (bindCount_meets (E := fun _ => True) r.skip).of_ok hrun₄
    exact ⟨args₄, rfl⟩
  have hlabels : Context.repeatedAlias? [w₄.context.label]
      ((w₄.context.joins.map OwnedJoin.join).map Join.label) = none := by
    obtain ⟨args, hargs⟩ := hcontext
    rw [hargs, List.map_map]
    exact hnone
  have horder' : order.map (OrderTerm.relabel f) = order := by
    have hterms := orderBy_labels horder
    have hself : ∀ t ∈ order, t.relabel f = id t := fun t ht => by
      have htarget := Expr.relabel_eq_self f ((hterms t ht).mono fun l hl => by rw [hl, hfixed])
      rw [OrderTerm.relabel, htarget]
      rfl
    rw [List.map_congr_left hself, List.map_id]
  have hselect := Context.relabel_select w₄.context hf.inj hlabels condition order limit offset
  rw [horder'] at hselect
  refine FollowsAt.get ?_
  rw [hw₄.context]
  dsimp only [id]
  rw [hselect]
  exact (FollowsAt.ofExcept hw₄ _).bind fun s v v' _ hv => FollowsAt.pure hv rfl

/-- Compiling with renamed aliases is renaming what was compiled. -/
theorem compile_follows
    (hf : ∀ fragment, env.metadata.fragments.get? r.fragment = some fragment →
      Renames f (rootAlias fragment.table))
    (hclear : ∀ fragment, env.metadata.fragments.get? r.fragment = some fragment →
      a.Clear (rootAlias fragment.table)) (h : a.Follows f b) :
    r.compile env b =
      (r.compile env a).map fun q => { q with select := q.select.relabel f } := by
  cases hfragment : env.metadata.lookupFragment r.fragment with
  | error e =>
      simp only [compile, hfragment, Bind.bind, Except.bind]
      rfl
  | ok fragment =>
      cases htable : env.metadata.lookupTable fragment.table with
      | error e =>
          simp only [compile, hfragment, htable, Bind.bind, Except.bind]
          rfl
      | ok table =>
          obtain ⟨hname, hget⟩ := lookupTable_ok htable
          have hrenames := hf fragment (lookupFragment_ok hfragment)
          have hclear' := hclear fragment (lookupFragment_ok hfragment)
          rw [← hname] at hrenames hclear'
          rw [compile_eq env hfragment htable, compile_eq env hfragment htable]
          obtain ⟨s, v, v', hrun, hrun', hv⟩ | ⟨e, v, v', hrun, hrun'⟩ :=
            (compileIn_follows hrenames h hclear' hfragment hget).cases
          · rw [hrun, hrun']
            dsimp only [Except.map]
            rw [hv.context, hv.dropped]
            rfl
          · rw [hrun, hrun']
            rfl

end Request

/-! ### From one sequence to another -/

namespace Aliases

variable {a b c : Aliases} {root : String}

/-- Each alias that is drawn from the first sequence is renamed to the one that is drawn from the
second at the same time.  Other names stay. -/
noncomputable def renameTo (a b : Aliases) : String → String :=
  Function.extend (fun i => a.name (a.drawn + i)) (fun i => b.name (b.drawn + i)) id

theorem Clear.follows_renameTo (h : a.Clear root) (b : Aliases) : a.Follows (a.renameTo b) b := by
  intro i
  have hinj : Function.Injective fun i => a.name (a.drawn + i) := fun i k hik => by
    have heq := h.inj _ _ hik
    omega
  exact (hinj.extend_apply (fun i => b.name (b.drawn + i)) id i).symm

theorem renameTo_of_ne {l : String} (h : ∀ i, a.name i ≠ l) (b : Aliases) : a.renameTo b l = l := by
  refine Function.extend_apply' _ _ _ ?_
  rintro ⟨i, hi⟩
  exact h _ hi

/-- A sequence, from the beginning, of all aliases that may be drawn. -/
structure Full (c : Aliases) (root : String) : Prop where
  clear : c.Clear root
  start : c.drawn = 0
  all : ∀ l, l = root ∨ l = currentUserAlias ∨ ∃ i, c.name i = l

/-- There is such a sequence, as there are infinitely many names but no more than that. -/
theorem exists_full (root : String) : ∃ c : Aliases, c.Full root := by
  have hchars : Countable Char :=
    Function.Injective.countable (f := Char.toNat) fun _ _ h => Char.toNat_inj.mp h
  have hstrings : Countable String :=
    Function.Injective.countable (f := String.toList) fun _ _ h => String.toList_inj.mp h
  have hfree : (({root, currentUserAlias} : Set String)ᶜ).Infinite :=
    (Set.toFinite {root, currentUserAlias}).infinite_compl
  have hinfinite := hfree.to_subtype
  obtain ⟨e⟩ := nonempty_equiv_of_countable (α := ℕ)
    (β := ↥(({root, currentUserAlias} : Set String)ᶜ))
  have hnot : ∀ i, (e i : String) ≠ root ∧ (e i : String) ≠ currentUserAlias := by
    intro i
    have hmem : (e i : String) ∉ ({root, currentUserAlias} : Set String) := (e i).property
    rwa [Set.mem_insert_iff, Set.mem_singleton_iff, not_or] at hmem
  refine ⟨⟨fun i => e i, 0⟩, ⟨?_, fun i => (hnot i).1, fun i => (hnot i).2⟩, rfl, fun l => ?_⟩
  · exact fun i k h => e.injective (Subtype.ext h)
  · by_cases hl : l ∈ ({root, currentUserAlias} : Set String)
    · rcases hl with rfl | rfl
      · exact .inl rfl
      · exact .inr (.inl rfl)
    · refine .inr (.inr ⟨e.symm ⟨l, hl⟩, ?_⟩)
      simp

section full

variable (hc : c.Full root)

include hc

theorem Full.renameTo_name (a : Aliases) (i : Nat) :
    c.renameTo a (c.name i) = a.name (a.drawn + i) := by
  have h := hc.clear.follows_renameTo a i
  rw [hc.start, Nat.zero_add] at h
  exact h.symm

/-- A name stays, or it is one of the sequence. -/
theorem Full.cases (a : Aliases) (l : String) :
    ((l = root ∨ l = currentUserAlias) ∧ c.renameTo a l = l) ∨ ∃ i, c.name i = l := by
  rcases hc.all l with rfl | rfl | hl
  · exact .inl ⟨.inl rfl, renameTo_of_ne hc.clear.root a⟩
  · exact .inl ⟨.inr rfl, renameTo_of_ne hc.clear.user a⟩
  · exact .inr hl

theorem Full.renames (ha : a.Clear root) : Renames (c.renameTo a) root where
  inj := by
    have hdrawn : ∀ l i, (l = root ∨ l = currentUserAlias) → l ≠ a.name (a.drawn + i) := by
      rintro l i (rfl | rfl) h
      · exact ha.root _ h.symm
      · exact ha.user _ h.symm
    intro l l' h
    obtain ⟨hl, hfixed⟩ | ⟨i, rfl⟩ := hc.cases a l <;>
      obtain ⟨hl', hfixed'⟩ | ⟨k, rfl⟩ := hc.cases a l'
    · rwa [hfixed, hfixed'] at h
    · rw [hfixed, hc.renameTo_name] at h
      exact absurd h (hdrawn l k hl)
    · rw [hfixed', hc.renameTo_name] at h
      exact absurd h.symm (hdrawn l' i hl')
    · rw [hc.renameTo_name, hc.renameTo_name] at h
      have hik := ha.inj _ _ h
      rw [Nat.add_left_cancel hik]
  root := renameTo_of_ne hc.clear.root a
  user := renameTo_of_ne hc.clear.user a

/-- Two sequences are compared by way of the full one. -/
theorem Full.renameTo_comp (ha : a.Clear root) (b : Aliases) :
    a.renameTo b ∘ c.renameTo a = c.renameTo b := by
  funext l
  rw [Function.comp_apply]
  rcases hc.all l with rfl | rfl | ⟨i, rfl⟩
  · rw [renameTo_of_ne hc.clear.root, renameTo_of_ne hc.clear.root, renameTo_of_ne ha.root]
  · rw [renameTo_of_ne hc.clear.user, renameTo_of_ne hc.clear.user, renameTo_of_ne ha.user]
  · rw [hc.renameTo_name, hc.renameTo_name]
    exact (ha.follows_renameTo b i).symm

end full

end Aliases

/-- **The choice of aliases does not matter.**  With aliases that cannot clash, compiling a request
fails with the same error whatever they are, or gives the same query up to their names. -/
theorem Request.compile_renamed {env : Env} {r : Request} {a b : Aliases}
    (ha : ∀ fragment, env.metadata.fragments.get? r.fragment = some fragment →
      a.Clear (rootAlias fragment.table))
    (hb : ∀ fragment, env.metadata.fragments.get? r.fragment = some fragment →
      b.Clear (rootAlias fragment.table)) :
    r.compile env b =
      (r.compile env a).map fun q => { q with select := q.select.relabel (a.renameTo b) } := by
  cases hfragment : env.metadata.fragments.get? r.fragment with
  | none =>
      have hlookup : env.metadata.lookupFragment r.fragment =
          .error (.fragmentNotFound r.fragment) := by
        rw [Metadata.lookupFragment, hfragment]
      simp only [compile, hlookup, Bind.bind, Except.bind]
      rfl
  | some fragment =>
      have ha' := ha fragment hfragment
      have hb' := hb fragment hfragment
      obtain ⟨c, hc⟩ := Aliases.exists_full (rootAlias fragment.table)
      -- both are compiled like with the full sequence, each with its own renaming
      have hvia : ∀ {d : Aliases}, d.Clear (rootAlias fragment.table) → r.compile env d =
          (r.compile env c).map fun q => { q with select := q.select.relabel (c.renameTo d) } := by
        intro d hd
        refine compile_follows (fun fr hfr => ?_) (fun fr hfr => ?_) (hc.clear.follows_renameTo d)
        · rw [Option.some.inj (hfr.symm.trans hfragment)]
          exact hc.renames hd
        · rw [Option.some.inj (hfr.symm.trans hfragment)]
          exact hc.clear
      rw [hvia ha', hvia hb']
      cases r.compile env c with
      | error e => rfl
      | ok q =>
          dsimp only [Except.map]
          rw [Select.relabel_relabel, hc.renameTo_comp ha']

namespace Sample

/-- Longer and longer aliases. -/
def ticks : Aliases := ⟨fun n => String.ofList (List.replicate (n + 2) 'x'), 0⟩

theorem toList_ticks (n : Nat) : (ticks.name n).toList = 'x' :: List.replicate (n + 1) 'x' := by
  rw [ticks, String.toList_ofList, List.replicate_succ]

theorem clear_ticks : ticks.Clear (rootAlias "Posts") where
  inj i k h := by
    have hlength := congrArg (fun s : String => s.toList.length) h
    simp only [toList_ticks, List.length_cons, List.length_replicate] at hlength
    omega
  root i h := by
    have hlength := congrArg (fun s : String => s.toList.length) h
    have hroot : (rootAlias "Posts").toList.length = 1 := by decide
    simp only [toList_ticks, List.length_cons, List.length_replicate] at hlength
    omega
  user i h := by
    have hhead := congrArg (fun s : String => s.toList.head?) h
    simp only [toList_ticks, List.head?_cons] at hhead
    exact absurd hhead (by decide)

theorem clear_of_request {a : Aliases} (h : a.Clear (rootAlias "Posts")) (fragment : Fragment)
    (hfragment : env.metadata.fragments.get? request.fragment = some fragment) :
    a.Clear (rootAlias fragment.table) := by
  cases hfragment
  exact h

end Sample

/-- The author is joined as `j1` in one query and as `xx` in the other. -/
theorem Request.compile_renamed_sample :
    ∃ q, Sample.request.compile Sample.env .sequential = .ok q ∧
      q.select.joins.map Join.label = [currentUserAlias, "j1"] ∧
      Sample.request.compile Sample.env Sample.ticks =
        .ok { q with select := q.select.relabel (Aliases.sequential.renameTo Sample.ticks) } ∧
      (q.select.relabel (Aliases.sequential.renameTo Sample.ticks)).joins.map Join.label =
        [currentUserAlias, "xx"] := by
  have hrun : (Sample.request.compile Sample.env .sequential).toOption.map
      (fun q => q.select.joins.map Join.label) = some [currentUserAlias, "j1"] := by decide +kernel
  have hrun' : (Sample.request.compile Sample.env Sample.ticks).toOption.map
      (fun q => q.select.joins.map Join.label) = some [currentUserAlias, "xx"] := by decide +kernel
  obtain ⟨q, hq, hlabels⟩ := Sample.exists_ok_of_map hrun
  obtain ⟨q', hq', hlabels'⟩ := Sample.exists_ok_of_map hrun'
  have hrenamed := compile_renamed (Sample.clear_of_request (Aliases.clear_sequential "Posts"))
    (Sample.clear_of_request Sample.clear_ticks)
  rw [hq, hq'] at hrenamed
  cases hrenamed
  exact ⟨q, hq, hlabels, hq', hlabels'⟩

end ShapedQuery
