import ShapedQuery.Proofs.Accounts

/-! # Numbered and inline compilation

`Mirrors F pre x y occ img` relates a step `x` of the compiler to a step `y` of the inline one.
Where `x` succeeds, `y` gives the same result with the values in place of the numbers, and the
context stays accounted for.  The placeholders `pre` are pending before the step and those of its
result (`occ`) after it; any others that are pending stay so.

The one point where the two compilers could part is a join that is the same by its values but not
by its numbers: the inline compiler leaves it out and the other keeps it.  Then two different
joins have one alias, and no select statement comes of it; `Mirrors` says nothing of such runs.

`Mirrors` is kept by sequencing (`Mirrors.bind`), and every step of the compiler has a lemma
here, up to a whole fragment (`Compile.namedFragment_mirrors`). -/

namespace ShapedQuery

open Context (Clash)

/-- The inline compiler's view of what compiling works on. -/
def Work.inline (w : Work) : Inline.Work :=
  ⟨w.context.scope Placeholder.value, w.aliases, w.dropped⟩

/-- Two steps that succeed one after the other. -/
theorem Compile.bind_ok {α β : Type} {x : Compile α} {k : α → Compile β} {w w'' : Work} {b : β}
    (h : (x >>= k) w = .ok b w'') : ∃ a w', x w = .ok a w' ∧ k a w' = .ok b w'' := by
  cases hx : x w with
  | error e w' => simp [Bind.bind, EStateM.bind, hx] at h
  | ok a w' => exact ⟨a, w', rfl, by simpa [Bind.bind, EStateM.bind, hx] using h⟩

section mirrors

variable {α β γ δ : Type}

/-- From `w`, the step `y` does what `x` does, with the values in place. -/
def MirrorsAt (F : Frame) (pre : List Placeholder) (w : Work) (x : Compile α) (y : Inline.Step β)
    (occ : α → List Placeholder) (img : α → β) : Prop :=
  ∀ pending a w', w.context.Accounts F (pending ++ pre) → x w = .ok a w' →
    w'.context.Accounts F (pending ++ occ a) ∧ w.context.joins ⊆ w'.context.joins ∧
      (¬ Clash w'.context.joins → y w.inline = .ok (img a) w'.inline)

/-- The step `y` does what `x` does, with the values in place. -/
def Mirrors (F : Frame) (pre : List Placeholder) (x : Compile α) (y : Inline.Step β)
    (occ : α → List Placeholder) (img : α → β) : Prop :=
  ∀ w, MirrorsAt F pre w x y occ img

/-- A step that mirrors another and gives nothing. -/
abbrev MirrorsUnit (F : Frame) (x : Compile Unit) (y : Inline.Step Unit) : Prop :=
  Mirrors F [] x y (fun _ => []) id

/-- A step that mirrors another and gives an expression. -/
abbrev MirrorsExpr (F : Frame) (x : Compile (Expr Placeholder)) (y : Inline.Step (Expr Param)) :
    Prop :=
  Mirrors F [] x y Expr.bounds (Expr.map Placeholder.value)

variable {F : Frame} {pre : List Placeholder} {w : Work} {x : Compile α} {y : Inline.Step β}
  {occ : α → List Placeholder} {img : α → β} {k : α → Compile γ} {l : β → Inline.Step δ}
  {occ' : γ → List Placeholder} {img' : γ → δ}

theorem Mirrors.pure {a : α} {b : β} (hocc : ∀ p, p ∈ pre ↔ p ∈ occ a) (himg : img a = b) :
    Mirrors F pre (Pure.pure a) (Pure.pure b) occ img := by
  intro w pending a' w' h hx
  cases hx
  refine ⟨h.congr fun p => ?_, List.Subset.refl _, fun _ => ?_⟩
  · rw [List.mem_append, List.mem_append, hocc]
  · rw [himg]
    rfl

/-- Two steps one after the other. -/
theorem MirrorsAt.bind (hx : MirrorsAt F pre w x y occ img)
    (hk : ∀ a, Mirrors F (occ a) (k a) (l (img a)) occ' img') :
    MirrorsAt F pre w (x >>= k) (y >>= l) occ' img' := by
  intro pending c w'' h hxk
  obtain ⟨a, w', hxw, hka⟩ := Compile.bind_ok hxk
  obtain ⟨h₁, hj₁, hi₁⟩ := hx pending a w' h hxw
  obtain ⟨h₂, hj₂, hi₂⟩ := hk a w' pending c w'' h₁ hka
  refine ⟨h₂, fun j hj => hj₂ (hj₁ hj), fun hc => ?_⟩
  -- joins only come in, so a clash half way would be there at the end
  have hy := hi₁ fun hc' => hc (hc'.mono hj₂)
  simp only [Bind.bind, EStateM.bind, hy]
  exact hi₂ hc

theorem Mirrors.bind (hx : Mirrors F pre x y occ img)
    (hk : ∀ a, Mirrors F (occ a) (k a) (l (img a)) occ' img') :
    Mirrors F pre (x >>= k) (y >>= l) occ' img' :=
  fun w => (hx w).bind hk

/-- What is pending before a step may stay so. -/
theorem Mirrors.frame (q : List Placeholder) (hx : Mirrors F [] x y occ img) :
    Mirrors F q x y (fun a => q ++ occ a) img := by
  intro w pending a w' h hxw
  rw [← List.append_assoc]
  refine hx w (pending ++ q) a w' ?_ hxw
  rwa [List.append_nil]

/-- Look at what compiling works on. -/
theorem Mirrors.get {k : Work → Compile α} {l : Inline.Work → Inline.Step β}
    (h : ∀ w, MirrorsAt F pre w (k w) (l w.inline) occ img) :
    Mirrors F pre (MonadState.get >>= k) (MonadState.get >>= l) occ img :=
  fun w => h w

theorem Mirrors.throw (e : QueryError) : Mirrors F pre (MonadExcept.throw e) y occ img :=
  fun _ _ _ _ _ hx => nomatch hx

theorem MirrorsAt.ite {p : Prop} [Decidable p] {x' : Compile α} {y' : Inline.Step β}
    (h : MirrorsAt F pre w x y occ img) (h' : MirrorsAt F pre w x' y' occ img) :
    MirrorsAt F pre w (if p then x else x') (if p then y else y') occ img := by
  split
  · exact h
  · exact h'

theorem Mirrors.ite {p : Prop} [Decidable p] {x' : Compile α} {y' : Inline.Step β}
    (h : Mirrors F pre x y occ img) (h' : Mirrors F pre x' y' occ img) :
    Mirrors F pre (if p then x else x') (if p then y else y') occ img :=
  fun w => (h w).ite (h' w)

theorem Mirrors.ofExcept {r : Except QueryError α} {s : Except QueryError β}
    (hs : r.map img = s) (hocc : ∀ a, r = .ok a → occ a = []) :
    Mirrors F [] (Compile.ofExcept r) (Inline.ofExcept s) occ img := by
  intro w pending a w' h hx
  cases r with
  | error e => cases hx
  | ok a' =>
      cases hx
      rw [hocc a rfl]
      subst hs
      exact ⟨h, List.Subset.refl _, fun _ => rfl⟩

/-- What both compilers look up. -/
theorem MirrorsAt.lookup {ρ : Type} {r : Except QueryError ρ} {k : ρ → Compile α}
    {l : ρ → Inline.Step β} (h : ∀ a, r = .ok a → MirrorsAt F pre w (k a) (l a) occ img) :
    MirrorsAt F pre w (Compile.ofExcept r >>= k) (Inline.ofExcept r >>= l) occ img := by
  cases r with
  | error e => exact fun _ _ _ _ hx => nomatch hx
  | ok a => exact h a rfl

theorem Mirrors.lookup {ρ : Type} {r : Except QueryError ρ} {k : ρ → Compile α}
    {l : ρ → Inline.Step β} (h : ∀ a, r = .ok a → Mirrors F pre (k a) (l a) occ img) :
    Mirrors F pre (Compile.ofExcept r >>= k) (Inline.ofExcept r >>= l) occ img :=
  fun w => MirrorsAt.lookup fun a ha => h a ha w

/-- A change of the context that takes the pending placeholders into it. -/
theorem Mirrors.modify {f : Context → Context} {g : Scope Param → Scope Param}
    (ha : ∀ c pending, c.Accounts F (pending ++ pre) → (f c).Accounts F pending)
    (hj : ∀ c, c.joins ⊆ (f c).joins)
    (hs : ∀ c, (f c).scope Placeholder.value = g (c.scope Placeholder.value)) :
    Mirrors F pre (Compile.modifyContext f) (Inline.modifyScope g) (fun _ => []) id := by
  intro w pending a w' h hx
  cases hx
  refine ⟨?_, hj w.context, fun _ => ?_⟩
  · rw [List.append_nil]
    exact ha w.context pending h
  · simp only [Inline.modifyScope, Work.inline, hs, id]

end mirrors

/-! ### Values -/

namespace Compile

variable {α β : Type} {F : Frame}

/-- The inline compiler has the value where this one binds it. -/
theorem bindParam_mirrors {k : Placeholder → Compile α} {y : Inline.Step β}
    {occ : α → List Placeholder} {img : α → β} {pre : List Placeholder} (v : Param)
    (hk : ∀ p : Placeholder, p.value = v → Mirrors F (pre ++ [p]) (k p) y occ img) :
    Mirrors F pre (bindParam v >>= k) y occ img := by
  intro w pending a w' h hx
  have hb := h.bind v
  rw [List.append_assoc] at hb
  exact hk (w.context.bind v).1 rfl { w with context := (w.context.bind v).2 } pending a w' hb hx

theorem onContext_mirrors {f : Context → α × Context} {y : Inline.Step β}
    {occ : α → List Placeholder} {img : α → β}
    (ha : ∀ c pending, c.Accounts F pending → (f c).2.Accounts F (pending ++ occ (f c).1))
    (hj : ∀ c, c.joins ⊆ (f c).2.joins)
    (hy : ∀ (w : Work) pending, w.context.Accounts F pending →
      y w.inline = .ok (img (f w.context).1) (Work.inline { w with context := (f w.context).2 })) :
    Mirrors F [] (onContext f) y occ img := by
  intro w pending a w' h hx
  cases hx
  rw [List.append_nil] at h
  exact ⟨ha w.context pending h, hj w.context, fun _ => hy w pending h⟩

theorem onArguments_mirrors {x : ShapedQuery.Bind (Expr Placeholder)}
    {y : Except QueryError (Expr Param)} (h : BindsOne x y) :
    MirrorsExpr F (onArguments x) (Inline.ofExcept y) := by
  intro w pending e w' ha hx
  have hxw := h w.context.arguments
  cases y with
  | error err =>
      obtain ⟨args', hxw⟩ := hxw
      simp [onArguments, hxw] at hx
  | ok b =>
      obtain ⟨e', hxw, himg, hcons⟩ := hxw
      simp only [onArguments, hxw] at hx
      cases hx
      simp only [Expr.boundsAll, List.append_nil] at hcons ⊢
      rw [List.append_nil] at ha
      refine ⟨ha.extend _ hcons, List.Subset.refl _, fun _ => ?_⟩
      have hb : e.map Placeholder.value = b := by simpa [inlined] using himg
      rw [hb]
      rfl

theorem joinOperand_mirrors (o : JoinOperand) :
    MirrorsExpr F (joinOperand o) (Inline.joinOperand F.args o) := by
  cases o with
  | column name =>
      refine Mirrors.get fun w => ?_
      refine MirrorsAt.lookup fun _ _ => ?_
      exact Mirrors.pure (fun _ => by simp [Context.column]) (Context.map_column _ _ _) w
  | currentUserColumn name =>
      refine Mirrors.get fun w => ?_
      refine Mirrors.ofExcept (Context.map_currentUserColumn _ _ _) (fun e he => ?_) w
      unfold Context.currentUserColumn at he
      split at he
      · cases he
        rfl
      · cases he
  | resolverArg name =>
      refine onContext_mirrors (fun c _ h => h.resolverArg name) (fun c => ?_) fun w _ h => ?_
      · rw [Context.joins_resolverArg]
        exact List.Subset.refl _
      · rw [h.map_resolverArg name]
        simp only [Work.inline, Context.scope_resolverArg]
        rfl
  | value j =>
      refine bindParam_mirrors _ fun p hp => ?_
      refine Mirrors.pure (fun q => by simp [Expr.bounds]) ?_
      rw [Expr.map, hp, Inline.value]

theorem joinConditions_mirrors (label : String) (es : Entries JoinOperand) :
    Mirrors F [] (joinConditions label es) (Inline.joinConditions F.args label es) Expr.boundsAll
      (Expr.mapAll Placeholder.value) := by
  induction es with
  | nil => exact Mirrors.pure (fun _ => by simp [Expr.boundsAll]) rfl
  | cons e es ih =>
      obtain ⟨column, operand⟩ := e
      refine (joinOperand_mirrors operand).bind fun value => ?_
      refine (ih.frame _).bind fun conditions => ?_
      exact Mirrors.pure (fun _ => by simp [Expr.boundsAll, Expr.bounds]) rfl

theorem drawAlias_mirrors : Mirrors F [] drawAlias Inline.drawAlias (fun _ => []) id := by
  intro w pending a w' h hx
  cases hx
  exact ⟨h, List.Subset.refl _, fun _ => rfl⟩

/-- A join that the one context has, the other has too. -/
theorem addJoin_mirrors (spec : JoinSpec) :
    Mirrors F [] (addJoin spec) (Inline.addJoin F.args spec) (fun _ => []) id := by
  refine Mirrors.get fun w => ?_
  have hfind := Context.scope_joinFor? Placeholder.value w.context spec
  have hscope : w.inline.scope = w.context.scope Placeholder.value := rfl
  simp only [hscope, hfind]
  cases w.context.joins.find? fun j => j.serves w.context.label spec with
  | some j =>
      have hp : Mirrors F [] (pure j.join.label) (pure j.join.label) (fun _ => []) id :=
        Mirrors.pure (fun _ => Iff.rfl) rfl
      exact hp w
  | none =>
      refine (drawAlias_mirrors w).bind fun label => ?_
      refine (joinConditions_mirrors label spec.on).bind fun on => ?_
      refine (Mirrors.modify ?_ ?_ ?_).bind fun _ => Mirrors.pure (fun _ => Iff.rfl) rfl
      · intro c pending h
        exact Context.Accounts.addJoin h
      · intro c
        exact List.subset_append_left _ _
      · intro c
        exact Context.scope_addJoin _ _ _ _ _

mutual

theorem computed_mirrors : ∀ e : Computed,
    MirrorsExpr F (computed e) (Inline.computed F.args e)
  | .column name => joinOperand_mirrors (.column name)
  | .currentUserColumn name => joinOperand_mirrors (.currentUserColumn name)
  | .resolverArg name => joinOperand_mirrors (.resolverArg name)
  | .value j => joinOperand_mirrors (.value j)
  | .joinedColumn join column =>
      (addJoin_mirrors join).bind fun _ => Mirrors.pure (fun _ => by simp) rfl
  | .joinedRow join =>
      (addJoin_mirrors join).bind fun _ =>
        Mirrors.pure (fun _ => by simp [Expr.boundsFields]) rfl
  | .call name arguments =>
      Mirrors.lookup fun _ _ => (computedAll_mirrors arguments).bind fun _ =>
        Mirrors.pure (fun _ => Iff.rfl) rfl
  | .binary left operator right =>
      (computed_mirrors left).bind fun _ => ((computed_mirrors right).frame _).bind fun _ =>
        Mirrors.pure (fun _ => Iff.rfl) rfl
  | .isNull e =>
      (computed_mirrors e).bind fun _ => Mirrors.pure (fun _ => Iff.rfl) rfl

theorem computedAll_mirrors : ∀ es : List Computed,
    Mirrors F [] (computedAll es) (Inline.computedAll F.args es) Expr.boundsAll
      (Expr.mapAll Placeholder.value)
  | [] => Mirrors.pure (fun _ => Iff.rfl) rfl
  | e :: es =>
      (computed_mirrors e).bind fun _ => ((computedAll_mirrors es).frame _).bind fun _ =>
        Mirrors.pure (fun _ => Iff.rfl) rfl

end

/-! ### Fragments -/

/-- The frame of a context nested in `c`. -/
def childFrame (F : Frame) (c : Context) : Frame := ⟨F.base ++ c.arguments.values, F.args, true⟩

theorem aggregate_ok {w w' : Work} {child : Context} {name : String} {a : Unit}
    (h : aggregate child name w = .ok a w') :
    w' = { w with context := w.context.folded child name } := by
  rw [aggregate, Context.aggregate_eq] at h
  split at h
  · rename_i hagg
    split at hagg
    · cases h
      cases hagg
      rfl
    · cases hagg
  · cases h

theorem aggregate_mirrors {w : Work} {child : Context} (name : String)
    (hchild : child.Accounts (childFrame F w.context) []) :
    MirrorsAt F [] w (aggregate child name)
      (Inline.modifyScope fun s => s.aggregate (child.scope Placeholder.value) name)
      (fun _ => []) id := by
  intro pending a w' h hx
  obtain rfl := aggregate_ok hx
  refine ⟨h.folded hchild name, ?_, fun hc => ?_⟩
  · exact (Context.prefix_mergeJoins w.context.joins child.joins).subset
  · simp only [Inline.modifyScope, Work.inline, h.scope_folded hchild hc, id]

/-- A nested context is worked on and folded back. -/
theorem inChild_mirrors {w : Work} {table : NamedTable} {label : String} {step : Compile Unit}
    {step' : Inline.Step Unit} (name : String)
    (hstep : MirrorsUnit (childFrame F w.context) step step') :
    MirrorsAt F [] w
      (inChild (w.context.child table label) step >>= fun child => aggregate child name)
      (Inline.inChild (w.inline.scope.child table label) step' >>= fun child =>
        Inline.modifyScope fun s => s.aggregate child name)
      (fun _ => []) id := by
  intro pending a w' h hx
  obtain ⟨child, w₁, hin, hagg⟩ := Compile.bind_ok hx
  unfold inChild at hin
  split at hin
  · rename_i w₂ hrun
    cases hin
    obtain ⟨hchild, -, hinline⟩ :=
      hstep { w with context := w.context.child table label } [] () w₂ (h.child table label) hrun
    obtain ⟨h', hj, hfold⟩ :=
      aggregate_mirrors (w := { w₂ with context := w.context }) name hchild pending a w' h hagg
    refine ⟨h', hj, fun hc => ?_⟩
    -- a clash among the joins of the nested context outlasts the folding
    have hcc : ¬ Clash w₂.context.joins := by
      intro hcc
      obtain rfl := aggregate_ok hagg
      exact hc hcc.mergeJoins
    have hs : step' { w.inline with scope := w.inline.scope.child table label } =
        .ok () w₂.inline := hinline hcc
    simp only [Bind.bind, EStateM.bind, Inline.inChild, hs]
    exact hfold hc
  · cases hin

theorem baseRow_mirrors (env : Env) :
    Mirrors F [] (onContext (baseRow env false))
      (fun w =>
        let (b, s) := w.scope.baseRow env false
        .ok b { w with scope := s }) (fun _ => []) id := by
  refine onContext_mirrors (fun c _ h => ?_) (fun c => ?_) fun w _ _ => ?_
  · rw [List.append_nil]
    exact h.baseRow env false
  · unfold baseRow
    split <;> exact List.Subset.refl _
  · have hs := Context.scope_baseRow Placeholder.value w.context env false
    simp only [Work.inline, ← hs, id]

section fragments

variable (env : Env) {nest : String → Fragment → Compile Unit}
  {nest' : String → Fragment → Inline.Step Unit}

/-- `nest` mirrors `nest'` in every nested context. -/
def NestMirrors (args : Entries Json) (nest : String → Fragment → Compile Unit)
    (nest' : String → Fragment → Inline.Step Unit) : Prop :=
  ∀ (F : Frame) name f, F.args = args → MirrorsUnit F (nest name f) (nest' name f)

theorem relation_mirrors (hnest : NestMirrors F.args nest nest') (selection : Selection)
    (join : JoinSpec) :
    MirrorsUnit F (relation env nest selection join)
      (Inline.relation env F.args nest' selection join) := by
  refine (addJoin_mirrors join).bind fun label => ?_
  refine Mirrors.lookup fun table _ => ?_
  refine Mirrors.get fun w => ?_
  cases selection with
  | field name =>
      intro pending a w' h hx
      have hchild := (h.child table label).baseRow env true
      have hs : (baseRow env true (w.context.child table label)).2.scope Placeholder.value =
          ((w.context.child table label).scope Placeholder.value |>.baseRow env true).2 :=
        congrArg Prod.snd (Context.scope_baseRow Placeholder.value _ env true)
      have hagg := aggregate_mirrors name hchild pending a w' h hx
      rw [hs] at hagg
      exact hagg
  | nested name fragmentName =>
      refine MirrorsAt.lookup fun fragment _ => ?_
      refine MirrorsAt.ite ?_ ?_
      · exact fun _ _ _ _ hx => nomatch hx
      · exact inChild_mirrors name (hnest _ fragmentName fragment rfl)

theorem readableField_mirrors (hnest : NestMirrors F.args nest nest') (wholeRow : Bool)
    (table : String) (selection : Selection) (kind : FieldKind) :
    MirrorsUnit F (readableField env nest wholeRow table selection kind)
      (Inline.readableField env F.args nest' wholeRow table selection kind) := by
  cases kind with
  | column c =>
      cases selection with
      | field name =>
          refine Mirrors.ite (Mirrors.modify (fun c pending h => ?_) (fun c => ?_) fun c => ?_)
            (Mirrors.pure (fun _ => Iff.rfl) rfl)
          · rw [List.append_nil] at h
            exact h.addColumn name
          · exact List.Subset.refl _
          · exact Context.scope_addColumn _ _ _
      | nested name fragment => exact Mirrors.throw _
  | computed e =>
      cases selection with
      | field name =>
          refine (computed_mirrors e).bind fun e => ?_
          refine Mirrors.modify (fun c pending h => h.addNamed) (fun c => ?_) fun c => ?_
          · exact List.Subset.refl _
          · exact Context.scope_addNamed _ _ _ _
      | nested name fragment => exact Mirrors.throw _
  | relation join => exact relation_mirrors env hnest selection join

theorem drop_mirrors (d : Dropped) : MirrorsUnit F (drop d) (Inline.drop d) := by
  intro w pending a w' h hx
  cases hx
  exact ⟨h, List.Subset.refl _, fun _ => rfl⟩

theorem selections_mirrors (hnest : NestMirrors F.args nest nest') (fragment : String)
    (wholeRow : Bool) (table : NamedTable) (seen : List String) (ss : List Selection) :
    MirrorsUnit F (selections env nest fragment wholeRow table seen ss)
      (Inline.selections env F.args nest' fragment wholeRow table seen ss) := by
  induction ss generalizing seen with
  | nil => exact Mirrors.pure (fun _ => Iff.rfl) rfl
  | cons selection rest ih =>
      unfold selections Inline.selections
      refine Mirrors.ite ?_ ?_
      · exact fun _ _ _ _ _ hx => nomatch hx
      · refine Mirrors.lookup fun field _ => ?_
        refine Mirrors.ite ?_ ?_
        · exact (readableField_mirrors env hnest wholeRow table.name selection field.kind).bind
            fun _ => ih _
        · exact (drop_mirrors _).bind fun _ => ih _

theorem fragment_mirrors (room : Nat) (path : FragmentPath) (name : String) (f : Fragment) :
    MirrorsUnit F (fragment env room path name f)
      (Inline.fragment env F.args room path name f) := by
  induction room generalizing F path name f with
  | zero => exact Mirrors.lookup fun _ _ => Mirrors.throw _
  | succ room ih =>
      have hnest : ∀ path, NestMirrors F.args (fragment env room path)
          (Inline.fragment env F.args room path) := by
        intro path G name f hG
        rw [← hG]
        exact ih path name f
      refine Mirrors.lookup fun path _ => ?_
      refine (baseRow_mirrors env).bind fun wholeRow => ?_
      refine Mirrors.get fun w => ?_
      exact selections_mirrors env (hnest path) name wholeRow w.context.table [] f.selections w

/-- **Resolving a fragment**: the inline compiler does the same with the values in place, and the
context stays accounted for. -/
theorem namedFragment_mirrors (name : String) :
    MirrorsUnit F (namedFragment env name) (Inline.namedFragment env F.args name) :=
  Mirrors.lookup fun f _ => fragment_mirrors env _ _ name f

end fragments

theorem setCurrentUser_mirrors (user : Option User) :
    MirrorsUnit F (setCurrentUser user) (Inline.setCurrentUser user) := by
  intro w pending a w' h hx
  have hs := Context.scope_setCurrentUser Placeholder.value w.context user
  rw [List.append_nil] at h
  unfold setCurrentUser at hx
  cases hc : w.context.setCurrentUser user with
  | error e =>
      rw [hc] at hx
      cases hx
  | ok c =>
      rw [hc] at hx hs
      cases hx
      refine ⟨?_, ?_, fun _ => ?_⟩
      · rw [List.append_nil]
        exact h.setCurrentUser hc
      · obtain rfl := Context.setCurrentUser_ok hc
        exact List.subset_append_left _ _
      · show (Inline.ofExcept (w.inline.scope.setCurrentUser (Context.userKey user)) >>= _) _ = _
        rw [Work.inline, ← hs]
        rfl

end Compile

end ShapedQuery
