import ShapedQuery.Proofs.Legend
import ShapedQuery.Proofs.Runs
import ShapedQuery.Proofs.ValueIndependence

/-! # Compiling writes what the legend says

A context has a legend of its own: an argument of the request is its placeholder if it is bound and
null if it was not supplied, and a table is joined by one of the context's joins.  While fields are
compiled, the legend only admits more (`Work.Writes.within`), also when a nested context is folded
back (`Compile.aggregate_writes`).  So what each step writes is still written at the end, and a
compiled fragment is written as `Output.Written` says (`Compile.fragment_writes`). -/

namespace ShapedQuery

/-! ### Arguments that are bound -/

namespace Entries

variable {α : Type}

theorem get?_of_prefix {es es' : Entries α} (h : es <+: es') {key : String} {value : α}
    (hget : es.get? key = some value) : es'.get? key = some value := by
  obtain ⟨more, rfl⟩ := h
  induction es with
  | nil => cases hget
  | cons e es ih =>
      obtain ⟨k, v⟩ := e
      rw [get?] at hget
      rw [List.cons_append, get?]
      split at hget
      · rw [if_pos ‹_›]
        exact hget
      · rw [if_neg ‹_›]
        exact ih hget

theorem not_mem_keys {es : Entries α} {key : String} (h : es.get? key = none) :
    key ∉ es.keys := by
  induction es with
  | nil => exact List.not_mem_nil
  | cons e es ih =>
      obtain ⟨k, v⟩ := e
      rw [get?] at h
      split at h
      · cases h
      · rename_i hk
        rw [keys, List.map_cons, List.mem_cons, not_or]
        exact ⟨Ne.symm hk, ih h⟩

/-- Setting a value that is there changes nothing. -/
theorem insert_of_get? {es : Entries α} {key : String} {value : α}
    (h : es.get? key = some value) : es.insert key value = es := by
  induction es with
  | nil => cases h
  | cons e es ih =>
      obtain ⟨k, v⟩ := e
      rw [get?] at h
      rw [insert]
      split at h
      · rename_i hk
        cases h
        rw [if_pos hk, hk]
      · rw [if_neg ‹_›, ih h]

/-- Setting entries that are there, and then more of them, adds those that are not. -/
theorem foldl_insert_of_prefix {es es' : Entries α} (h : es <+: es') (hkeys : es'.keys.Nodup) :
    es'.foldl (fun bound (name, p) => bound.insert name p) es = es' := by
  obtain ⟨more, rfl⟩ := h
  have hknown : ∀ known : Entries α, (∀ e ∈ known, es.get? e.1 = some e.2) →
      known.foldl (fun bound (name, p) => bound.insert name p) es = es := by
    intro known hget
    induction known with
    | nil => rfl
    | cons e known ih =>
        rw [List.forall_mem_cons] at hget
        show known.foldl _ (es.insert e.1 e.2) = es
        rw [insert_of_get? hget.1]
        exact ih hget.2
  have hnew : ∀ more es : Entries α, (es ++ more).keys.Nodup →
      more.foldl (fun bound (name, p) => bound.insert name p) es = es ++ more := by
    intro more
    induction more with
    | nil => exact fun es _ => (List.append_nil es).symm
    | cons e more ih =>
        obtain ⟨name, p⟩ := e
        intro es hkeys
        have hmem : name ∉ es.keys := by
          rw [keys_append, List.nodup_append] at hkeys
          intro hmem
          exact hkeys.2.2 name hmem name List.mem_cons_self rfl
        rw [List.append_cons] at hkeys ⊢
        show more.foldl _ (es.insert name p) = _
        rw [insert_of_not_mem p hmem]
        exact ih _ hkeys
  rw [List.foldl_append, hknown es, hnew more es hkeys]
  intro e he
  rw [keys_append, List.nodup_append] at hkeys
  exact get?_of_mem hkeys.1 he

end Entries

namespace Context

variable {c c' c'' : Context}

/-- What is written for an argument: its placeholder if it is bound, null if it was not supplied. -/
def Argument (c : Context) (name : String) (e : Expr Placeholder) : Prop :=
  (∃ p, c.boundArgs.get? name = some p ∧ e = .bound p) ∨
    (c.resolverArgs.get? name = none ∧ e = .constant .null)

/-- What stands for the things that fields refer to.  The joins are made for specs that meet `S`. -/
def legend (S : JoinSpec → Prop) (c : Context) : Legend :=
  .of S c.Argument (c.joins.map OwnedJoin.join)

/-- What was supplied is the same, and what was bound still is. -/
structure Carries (c c' : Context) : Prop where
  supplied : c'.resolverArgs = c.resolverArgs
  bound : c.boundArgs <+: c'.boundArgs

theorem Carries.refl (c : Context) : c.Carries c := ⟨rfl, List.prefix_refl _⟩

theorem Carries.trans (h : c.Carries c') (h' : c'.Carries c'') : c.Carries c'' :=
  ⟨h'.supplied.trans h.supplied, h.bound.trans h'.bound⟩

theorem Carries.argument (h : c.Carries c') (name : String) (e : Expr Placeholder)
    (he : c.Argument name e) : c'.Argument name e := by
  obtain ⟨p, hp, he⟩ | ⟨hnone, he⟩ := he
  · exact .inl ⟨p, Entries.get?_of_prefix h.bound hp, he⟩
  · exact .inr ⟨h.supplied ▸ hnone, he⟩

/-- Arguments are bound under numbers that increase, and every join is made for its spec, which
meets `S`. -/
structure Faithful (S : JoinSpec → Prop) (c : Context) : Prop where
  distinct : c.boundArgs.keys.Nodup
  numbered : c.boundArgs.Pairwise fun k k' => k.2.index < k'.2.index
  placed : ∀ k ∈ c.boundArgs, k.2.index ≤ c.arguments.size
  supplied : ∀ k ∈ c.boundArgs, (c.resolverArgs.get? k.1).isSome = true
  made : ∀ j ∈ c.joins, ∀ spec, j.spec = some spec →
    S spec ∧ j.join.MadeFor c.Argument j.owner spec

variable {S : JoinSpec → Prop}

/-- No argument is bound. -/
theorem Faithful.of_bound (h : c.Faithful S) (hbound : c'.boundArgs = c.boundArgs)
    (hargs : c'.resolverArgs = c.resolverArgs) (hsize : c.arguments.size ≤ c'.arguments.size)
    (hjoins : c'.joins ⊆ c.joins) : c'.Faithful S where
  distinct := by
    rw [hbound]
    exact h.distinct
  numbered := by
    rw [hbound]
    exact h.numbered
  placed := by
    intro k hk
    rw [hbound] at hk
    exact Nat.le_trans (h.placed k hk) hsize
  supplied := by
    rw [hbound, hargs]
    exact h.supplied
  made := by
    intro j hj spec hspec
    have hcarries : c.Carries c' := ⟨hargs, hbound ▸ List.prefix_refl _⟩
    exact (h.made j (hjoins hj) spec hspec).imp_right (Join.MadeFor.mono hcarries.argument)

theorem Faithful.bind (h : c.Faithful S) (value : Param) : (c.bind value).2.Faithful S := by
  refine h.of_bound rfl rfl ?_ (List.Subset.refl _)
  have hsize : (c.bind value).2.arguments.size = c.arguments.size + 1 :=
    Arguments.size_bind c.arguments value
  omega

theorem Faithful.child (h : c.Faithful S) (table : NamedTable) (label : String) :
    (c.child table label).Faithful S :=
  h.of_bound rfl rfl (Nat.le_refl _) (List.nil_subset _)

/-- An argument is bound, or was bound before, or it is null. -/
theorem Faithful.resolverArg (h : c.Faithful S) (name : String) :
    (c.resolverArg name).2.Faithful S ∧ c.Carries (c.resolverArg name).2 ∧
      (c.resolverArg name).2.Argument name (c.resolverArg name).1 := by
  unfold Context.resolverArg
  cases hb : c.boundArgs.get? name with
  | some p => exact ⟨h, .refl c, .inl ⟨p, hb, rfl⟩⟩
  | none =>
      cases ha : c.resolverArgs.get? name with
      | none => exact ⟨h, .refl c, .inr ⟨ha, rfl⟩⟩
      | some value =>
          have hnew := Entries.not_mem_keys hb
          have hinsert := Entries.insert_of_not_mem (c.bind (Param.ofJson value)).1 hnew
          have hbind := h.bind (Param.ofJson value)
          have hindex : (c.bind (Param.ofJson value)).1.index = c.arguments.size + 1 := rfl
          have hsize : (c.bind (Param.ofJson value)).2.arguments.size = c.arguments.size + 1 :=
            Arguments.size_bind _ _
          have hcarries : c.Carries { (c.bind (Param.ofJson value)).2 with
              boundArgs := c.boundArgs.insert name (c.bind (Param.ofJson value)).1 } :=
            ⟨rfl, by rw [hinsert]; exact List.prefix_append _ _⟩
          refine ⟨⟨?_, ?_, ?_, ?_, ?_⟩, hcarries, .inl ⟨_, ?_, rfl⟩⟩
          · exact Entries.nodup_keys_insert h.distinct _ _
          · show List.Pairwise _ (c.boundArgs.insert name _)
            rw [hinsert, List.pairwise_append]
            refine ⟨h.numbered, List.pairwise_singleton _ _, fun k hk k' hk' => ?_⟩
            rw [List.mem_singleton.mp hk', hindex]
            have hle := h.placed k hk
            omega
          · show ∀ k ∈ c.boundArgs.insert name _, _
            intro k hk
            rcases Entries.mem_of_mem_insert hk with hk | rfl
            · exact hbind.placed k hk
            · exact Nat.le_of_eq (hindex.trans hsize.symm)
          · show ∀ k ∈ c.boundArgs.insert name _, (c.resolverArgs.get? k.1).isSome = true
            intro k hk
            rcases Entries.mem_of_mem_insert hk with hk | rfl
            · exact h.supplied k hk
            · rw [ha]
              rfl
          · intro j hj spec hspec
            exact (h.made j hj spec hspec).imp_right (Join.MadeFor.mono hcarries.argument)
          · show (c.boundArgs.insert name _).get? name = _
            rw [Entries.get?_insert, if_pos rfl]

end Context

/-! ### Steps that write something -/

/-- Every join of the metadata meets `S`. -/
def Metadata.EveryJoin (S : JoinSpec → Prop) (m : Metadata) : Prop :=
  ∀ name t, m.tables.get? name = some t →
    ∀ field f, t.fields.get? field = some f → f.kind.EveryJoin S

/-- Entries were added to what is shown, and all that was written before still is. -/
structure Work.Writes (S : JoinSpec → Prop) (w w' : Work) (es : List (String × Expr Placeholder)) :
    Prop where
  adds : ∃ ds, w.Adds w' es ds
  carries : w.context.Carries w'.context
  faithful : w'.context.Faithful S

namespace Work.Writes

variable {S : JoinSpec → Prop} {w w' w'' : Work} {es es' : List (String × Expr Placeholder)}

theorem refl (ht : w.context.Tidy) (hf : w.context.Faithful S) : w.Writes S w [] :=
  ⟨⟨[], .refl ht⟩, .refl _, hf⟩

theorem trans (h : w.Writes S w' es) (h' : w'.Writes S w'' es') : w.Writes S w'' (es ++ es') := by
  obtain ⟨ds, ha⟩ := h.adds
  obtain ⟨ds', ha'⟩ := h'.adds
  exact ⟨⟨_, ha.trans ha'⟩, h.carries.trans h'.carries, h'.faithful⟩

theorem tidy (h : w.Writes S w' es) : w'.context.Tidy := by
  obtain ⟨ds, ha⟩ := h.adds
  exact ha.tidy

theorem place (h : w.Writes S w' es) : w.context.SamePlace w'.context := by
  obtain ⟨ds, ha⟩ := h.adds
  exact ha.grows.place

theorem addColumn (ht : w.context.Tidy) (hf : w.context.Faithful S) (name : String) :
    w.Writes S { w with context := w.context.addColumn name }
      [(name, .columnOf w.context.label name)] where
  adds := ⟨[], .addColumn ht name⟩
  carries := ⟨rfl, List.prefix_refl _⟩
  faithful := hf.of_bound rfl rfl (Nat.le_refl _) (List.Subset.refl _)

theorem addNamed (ht : w.context.Tidy) (hf : w.context.Faithful S) (name : String)
    (e : Expr Placeholder) : w.Writes S { w with context := w.context.addNamed name e } [(name, e)] where
  adds := ⟨[], .addNamed ht name e⟩
  carries := ⟨rfl, List.prefix_refl _⟩
  faithful := hf.of_bound rfl rfl (Nat.le_refl _) (List.Subset.refl _)

theorem drop (ht : w.context.Tidy) (hf : w.context.Faithful S) (d : Dropped) :
    w.Writes S { w with dropped := w.dropped ++ [d] } [] :=
  ⟨⟨[d], .drop ht d⟩, .refl _, hf⟩

/-- The legend admits what it did before. -/
theorem within (h : w.Writes S w' es) : (w.context.legend S).Within (w'.context.legend S) := by
  obtain ⟨ds, ha⟩ := h.adds
  refine Legend.of_within (fun _ => id) h.carries.argument fun j hj => ?_
  obtain ⟨k, hk, rfl⟩ := List.mem_map.mp hj
  exact ⟨k.join, List.mem_map_of_mem (ha.grows.mem_joins hk), rfl⟩

end Work.Writes

namespace Compile

variable {S : JoinSpec → Prop} {w : Work}

theorem joinOperand_writes (hf : w.context.Faithful S) (o : JoinOperand) :
    Leads (joinOperand o) w fun e w' => w.Binds w' ∧ w.context.Carries w'.context ∧
      w'.context.Faithful S ∧ o.Written w'.context.Argument w.context.label e := by
  cases o with
  | column name =>
      exact Meets.get (leads_lookup fun _ _ => Meets.pure ⟨.refl w, .refl _, hf, rfl⟩)
  | currentUserColumn name =>
      refine Meets.get (meets_ofExcept (fun e he => ⟨.refl w, .refl _, hf, ?_⟩) fun _ _ => trivial)
      unfold Context.currentUserColumn at he
      split at he
      · cases he
        rfl
      · cases he
  | resolverArg name =>
      obtain ⟨hfaithful, hcarries, hargument⟩ := hf.resolverArg name
      exact ⟨.resolverArg w name, hcarries, hfaithful, hargument⟩
  | value j => exact ⟨.bind w _, ⟨rfl, List.prefix_refl _⟩, hf.bind _, _, rfl, rfl⟩

theorem joinConditions_writes (hf : w.context.Faithful S) (label : String)
    (on : Entries JoinOperand) :
    Leads (joinConditions label on) w fun es w' => w.Binds w' ∧ w.context.Carries w'.context ∧
      w'.context.Faithful S ∧
      List.Forall₂ (JoinOperand.Compared w'.context.Argument w.context.label label) on es := by
  induction on generalizing w with
  | nil => exact Meets.pure ⟨.refl w, .refl _, hf, .nil⟩
  | cons entry on ih =>
      refine Meets.bind ((joinOperand_writes hf entry.2).mono fun value w₁ h₁ => ?_)
      obtain ⟨hb₁, hc₁, hf₁, hvalue⟩ := h₁
      refine Meets.bind ((ih hf₁).mono fun es w₂ h₂ => Meets.pure ?_)
      obtain ⟨hb₂, hc₂, hf₂, hes⟩ := h₂
      rw [hb₁.place.label] at hes
      exact ⟨hb₁.trans hb₂, hc₁.trans hc₂, hf₂,
        .cons ⟨value, hvalue.mono hc₂.argument, rfl⟩ hes⟩

/-- A join that serves is one that was made for the spec; otherwise one is made now. -/
theorem addJoin_writes (ht : w.context.Tidy) (hf : w.context.Faithful S) {spec : JoinSpec}
    (hspec : S spec) :
    Leads (addJoin spec) w fun label w' =>
      w.Writes S w' [] ∧ (w'.context.legend S).joined w.context.label spec label := by
  have hmade : Leads (addJoin spec) w fun label w' => w.context.Carries w'.context ∧
      w'.context.Faithful S ∧ (w'.context.legend S).joined w.context.label spec label := by
    unfold addJoin
    refine Meets.get ?_
    dsimp only
    split
    · rename_i j hj
      have hmem := List.mem_of_find?_eq_some hj
      have hserves := List.find?_some hj
      rw [OwnedJoin.serves, Bool.and_eq_true, beq_iff_eq, Option.any_eq_true] at hserves
      obtain ⟨howner, s, hs, hsame⟩ := hserves
      obtain ⟨hS, hmade⟩ := hf.made j hmem s hs
      rw [howner] at hmade
      exact Meets.pure
        ⟨.refl _, hf, j.join, List.mem_map_of_mem hmem, rfl, s, hS, .inr hsame, hmade⟩
    · refine Meets.bind ?_
      have hconditions := joinConditions_writes (w := ⟨w.context, w.aliases.next.2, w.dropped⟩) hf
        w.aliases.next.1 spec.on
      refine Meets.bind (hconditions.mono fun on w₁ h₁ => ?_)
      obtain ⟨hb, hc, hf₁, hon⟩ := h₁
      refine Meets.bind (meets_modifyContext (Meets.pure ?_))
      have hnew : Join.MadeFor w₁.context.Argument w.context.label spec
          ⟨spec.kind, spec.table, w.aliases.next.1, on⟩ := ⟨on, hon, rfl⟩
      refine ⟨⟨hc.supplied, hc.bound⟩, ⟨hf₁.distinct, hf₁.numbered, hf₁.placed,
        hf₁.supplied, ?_⟩, ?_⟩
      · refine List.forall_mem_append.mpr ⟨hf₁.made, List.forall_mem_singleton.mpr ?_⟩
        intro spec' hspec'
        cases hspec'
        refine ⟨hspec, ?_⟩
        show Join.MadeFor _ w₁.context.label _ _
        rw [hb.place.label]
        exact hnew
      · exact ⟨_, List.mem_map_of_mem (List.mem_append_right _ (List.mem_singleton_self _)), rfl,
          spec, hspec, .inl rfl, hnew⟩
  refine (addJoin_adds ht spec).with_ok.mono fun label w' h => ?_
  obtain ⟨hcarries, hfaithful, hjoined⟩ := hmade.of_ok h.2
  exact ⟨⟨⟨[], h.1.1⟩, hcarries, hfaithful⟩, hjoined⟩

/-! ### Computed fields -/

theorem computedOperand_writes (ht : w.context.Tidy) (hf : w.context.Faithful S) (o : JoinOperand) :
    Leads (joinOperand o) w fun e w' =>
      w.Writes S w' [] ∧ o.Written w'.context.Argument w.context.label e :=
  (joinOperand_writes hf o).mono fun _ _ h =>
    ⟨⟨⟨[], .of_binds ht h.1⟩, h.2.1, h.2.2.1⟩, h.2.2.2⟩

mutual

theorem computed_writes : ∀ {w : Work} (c : Computed), c.EveryJoin S → w.context.Tidy →
    w.context.Faithful S → Leads (computed c) w fun e w' =>
      w.Writes S w' [] ∧ c.Written (w'.context.legend S) w.context.label e
  | _, .column name, _, ht, hf => computedOperand_writes ht hf (.column name)
  | _, .currentUserColumn name, _, ht, hf => computedOperand_writes ht hf (.currentUserColumn name)
  | _, .resolverArg name, _, ht, hf => computedOperand_writes ht hf (.resolverArg name)
  | _, .value j, _, ht, hf => computedOperand_writes ht hf (.value j)
  | _, .joinedColumn join _, hj, ht, hf => by
      refine Meets.bind ((addJoin_writes ht hf hj).mono fun label w' h => ?_)
      exact Meets.pure ⟨h.1, label, h.2, rfl⟩
  | _, .joinedRow join, hj, ht, hf => by
      refine Meets.bind ((addJoin_writes ht hf hj).mono fun label w' h => ?_)
      exact Meets.pure ⟨h.1, label, h.2, fun _ hl => (Option.some.inj hl).symm, rfl⟩
  | _, .call _ arguments, hj, ht, hf => by
      refine leads_lookup fun f hfunction => ?_
      refine Meets.bind ((computedAll_writes arguments hj ht hf).mono fun es w' h => ?_)
      exact Meets.pure ⟨h.1, f, es, hfunction, h.2, rfl⟩
  | _, .binary left _ right, hj, ht, hf => by
      refine Meets.bind ((computed_writes left hj.1 ht hf).mono fun l w₁ h₁ => ?_)
      obtain ⟨hw₁, hl⟩ := h₁
      refine Meets.bind ((computed_writes right hj.2 hw₁.tidy hw₁.faithful).mono
        fun r w₂ h₂ => ?_)
      obtain ⟨hw₂, hr⟩ := h₂
      rw [hw₁.place.label] at hr
      exact Meets.pure ⟨hw₁.trans hw₂, l, r, hl.mono hw₂.within, hr, rfl⟩
  | _, .isNull c, hj, ht, hf => by
      refine Meets.bind ((computed_writes c hj ht hf).mono fun a w' h => ?_)
      exact Meets.pure ⟨h.1, a, h.2, rfl⟩

theorem computedAll_writes : ∀ {w : Work} (cs : List Computed), Computed.EveryJoinAll S cs →
    w.context.Tidy → w.context.Faithful S → Leads (computedAll cs) w fun es w' =>
      w.Writes S w' [] ∧ Computed.WrittenAll (w'.context.legend S) w.context.label cs es
  | _, [], _, ht, hf => Meets.pure ⟨.refl ht hf, rfl⟩
  | _, c :: cs, hj, ht, hf => by
      refine Meets.bind ((computed_writes c hj.1 ht hf).mono fun a w₁ h₁ => ?_)
      obtain ⟨hw₁, ha⟩ := h₁
      refine Meets.bind ((computedAll_writes cs hj.2 hw₁.tidy hw₁.faithful).mono
        fun as w₂ h₂ => ?_)
      obtain ⟨hw₂, has⟩ := h₂
      rw [hw₁.place.label] at has
      exact Meets.pure ⟨hw₁.trans hw₂, a, as, ha.mono hw₂.within, has, rfl⟩

end

/-! ### Related rows -/

/-- What was asked for of a row was compiled in its context. -/
structure Resolves (S : JoinSpec → Prop) (env : Env) (depth : Nat) (d : Demand) (w w' : Work) :
    Prop where
  grows : w.Grows w'
  tidy : w'.context.Tidy
  carries : w.context.Carries w'.context
  faithful : w'.context.Faithful S
  dropped : ∃ ds, w'.dropped = w.dropped ++ ds
  written : Output.Written env (w'.context.legend S) depth d w.context.table.name w.context.label
    w'.context.output

variable {env : Env} {depth : Nat}

/-- A nested context is folded back: its arguments become those of the outer one, whose legend
admits what was written in it. -/
theorem aggregate_writes {wc : Work} {table : NamedTable} {label : String} {d : Demand}
    (ht : w.context.Tidy) (hf : w.context.Faithful S)
    (hc : Resolves S env depth d ⟨w.context.child table label, w.aliases, w.dropped⟩ wc)
    (name : String) :
    Leads (aggregate wc.context name) { wc with context := w.context } fun _ w' =>
      w.Writes S w' [(name, .relatedRow label primaryKey wc.context.output.row
        wc.context.output.entries)] ∧
      Output.Written env (w'.context.legend S) depth d table.name label wc.context.output := by
  obtain ⟨ds, hd⟩ := hc.dropped
  refine (aggregate_adds ht hc.grows hc.tidy hd name).with_ok.mono fun _ w' h => ?_
  obtain ⟨⟨hadds, -⟩, hrun⟩ := h
  rw [(hc.grows.fold name).1] at hrun
  cases hrun
  have hbound : (w.context.folded wc.context name).boundArgs = wc.context.boundArgs :=
    Entries.foldl_insert_of_prefix hc.carries.bound hc.faithful.distinct
  have hsupplied : wc.context.resolverArgs = w.context.resolverArgs := hc.carries.supplied
  have hcarries : w.context.Carries (w.context.folded wc.context name) :=
    ⟨rfl, by rw [hbound]; exact hc.carries.bound⟩
  have hcarries' : wc.context.Carries (w.context.folded wc.context name) :=
    ⟨hsupplied.symm, [], by rw [List.append_nil, hbound]⟩
  have hsize : (w.context.folded wc.context name).arguments.size = wc.context.arguments.size := by
    have hoffset : wc.context.arguments.offset = w.context.arguments.size := hc.grows.place.offset
    simp only [Context.folded, Arguments.size, List.length_append] at hoffset ⊢
    omega
  refine ⟨⟨⟨ds, hadds⟩, hcarries, ⟨?_, ?_, ?_, ?_, ?_⟩⟩, hc.written.mono ?_⟩
  · rw [hbound]
    exact hc.faithful.distinct
  · rw [hbound]
    exact hc.faithful.numbered
  · rw [hbound, hsize]
    exact hc.faithful.placed
  · rw [hbound, hcarries'.supplied]
    exact hc.faithful.supplied
  · intro j hj spec hspec
    rcases Context.mem_of_mem_mergeJoins hj with hj | hj
    · exact (hf.made j hj spec hspec).imp_right (Join.MadeFor.mono hcarries.argument)
    · exact (hc.faithful.made j hj spec hspec).imp_right (Join.MadeFor.mono hcarries'.argument)
  · refine Legend.of_within (fun _ => id) hcarries'.argument fun j hj => ?_
    obtain ⟨k, hk, rfl⟩ := List.mem_map.mp hj
    obtain ⟨i, hi, hsame⟩ := Context.exists_mem_mergeJoins w.context.joins hk
    exact ⟨i.join, List.mem_map_of_mem hi, hsame⟩

/-- The first row of a context, before anything else is written. -/
theorem baseRow_writes {w : Work} {allReadable : Bool} {names : List String}
    (hf : w.context.Faithful S)
    (hbase : BaseRow env w.context names (baseRow env allReadable w.context).2) :
    w.Grows { w with context := (baseRow env allReadable w.context).2 } ∧
      w.context.Carries (baseRow env allReadable w.context).2 ∧
      (baseRow env allReadable w.context).2.Faithful S := by
  have hkeeps := Context.keeps_baseRow env allReadable w.context
  refine ⟨.of_context hbase.place hbase.joins _, ⟨hkeeps.resolverArgs, ?_⟩, ?_⟩
  · exact ⟨[], by rw [List.append_nil, hkeeps.boundArgs]⟩
  · refine hf.of_bound hkeeps.boundArgs hkeeps.resolverArgs ?_ ?_
    · exact Nat.le_of_eq (congrArg Arguments.size hkeeps.arguments.symm)
    · rw [hbase.joins]
      exact List.Subset.refl _

/-- `nest` writes what a fragment asks for, with related rows down to a depth. -/
def NestWrites (S : JoinSpec → Prop) (env : Env) (depth : Nat)
    (nest : String → Fragment → Compile Unit) : Prop :=
  ∀ (name : String) (f : Fragment) (w : Work), Blank w.context → w.context.Tidy →
    w.context.Faithful S →
    env.metadata.tables.get? w.context.table.name = some w.context.table.table →
    Leads (nest name f) w fun _ w' => Resolves S env depth (.fields name f.selections) w w'

section fragments

variable {nest : String → Fragment → Compile Unit}

/-- Of a related row without a fragment, the first row is all that is shown. -/
theorem columns_resolves (hf : w.context.Faithful S) (hblank : Blank w.context)
    (ht : w.context.Tidy)
    (hget : env.metadata.tables.get? w.context.table.name = some w.context.table.table) :
    Resolves S env (depth + 1) .columns w { w with context := (baseRow env true w.context).2 } := by
  have hbase := baseRow_all env hblank ht
  obtain ⟨hgrows, hcarries, hfaithful⟩ := baseRow_writes hf hbase
  refine ⟨hgrows, hbase.tidy, hcarries, hfaithful, ⟨[], (List.append_nil _).symm⟩, ?_⟩
  exact ⟨_, [], hget, hbase.row, rfl, hbase.entries.trans (List.append_nil _).symm⟩

theorem relation_writes (hnest : NestWrites S env (depth + 1) nest) (ht : w.context.Tidy)
    (hf : w.context.Faithful S) (selection : Selection) {join : JoinSpec} (hjoin : S join) :
    Leads (relation env nest selection join) w fun _ w' => ∃ label o,
      w.Writes S w' [(selection.name, .relatedRow label primaryKey o.row o.entries)] ∧
      (w'.context.legend S).joined w.context.label join label ∧
      Output.Written env (w'.context.legend S) (depth + 1) (selection.demand env.metadata) join.table
        label o := by
  refine Meets.bind ((addJoin_writes ht hf hjoin).mono fun label w₁ h₁ => ?_)
  obtain ⟨hw₁, hjoined⟩ := h₁
  refine leads_lookup fun table htable => Meets.get ?_
  obtain ⟨hname, hget⟩ := Request.lookupTable_ok htable
  have hown : env.metadata.tables.get? table.name = some table.table := by
    rw [hname]
    exact hget
  have hblank : Blank (w₁.context.child table label) := ⟨rfl, rfl⟩
  have htidy : (w₁.context.child table label).Tidy :=
    ⟨List.forall_mem_nil _, List.forall_mem_nil _⟩
  have hfaithful := hw₁.faithful.child table label
  -- a nested context that was resolved is folded back in both cases
  have hfold : ∀ {d : Demand} {wc : Work} (name : String),
      Resolves S env (depth + 1) d ⟨w₁.context.child table label, w₁.aliases, w₁.dropped⟩ wc →
      Leads (aggregate wc.context name) { wc with context := w₁.context } fun _ w' => ∃ label o,
        w.Writes S w' [(name, .relatedRow label primaryKey o.row o.entries)] ∧
        (w'.context.legend S).joined w.context.label join label ∧
        Output.Written env (w'.context.legend S) (depth + 1) d join.table label o := by
    intro d wc name hc
    refine (aggregate_writes hw₁.tidy hw₁.faithful hc name).mono fun _ w₂ h₂ => ?_
    obtain ⟨hw₂, hwritten⟩ := h₂
    rw [hname] at hwritten
    exact ⟨label, _, hw₁.trans hw₂, hw₂.within.joined hjoined, hwritten⟩
  cases selection with
  | field name =>
      have hshown := hfold name (columns_resolves
        (w := ⟨w₁.context.child table label, w₁.aliases, w₁.dropped⟩) hfaithful hblank htidy hown)
      exact hshown
  | nested name fragmentName =>
      refine leads_lookup fun f hfragment => ?_
      refine Meets.ite (fun _ => Meets.bind (Meets.throw trivial)) fun _ => ?_
      refine Meets.bind (meets_inChild ?_)
      have hdemand : (Selection.nested name fragmentName).demand env.metadata =
          .fields fragmentName f.selections := by
        rw [Selection.demand, Request.lookupFragment_ok hfragment]
      rw [hdemand]
      exact (hnest fragmentName f ⟨_, w₁.aliases, w₁.dropped⟩ hblank htidy hfaithful hown).mono
        fun _ wc hc => hfold name hc

theorem readableField_writes (hnest : NestWrites S env (depth + 1) nest) (ht : w.context.Tidy)
    (hf : w.context.Faithful S) {table : NamedTable} {selection : Selection} {kind : FieldKind}
    (hjoins : kind.EveryJoin S) :
    Leads (readableField env nest (readsWholeRow env table.table) table.name selection kind) w
      fun _ w' => ∃ es, w.Writes S w' es ∧
        kind.Written env (w'.context.legend S) (Output.Written env (w'.context.legend S) (depth + 1))
          table.table w.context.label selection es := by
  cases kind with
  | column c =>
      cases selection with
      | nested name fragment => exact Meets.throw trivial
      | field name =>
          refine Meets.ite (fun hcond => meets_modifyContext ?_) fun hcond => Meets.pure ?_
          · exact ⟨_, .addColumn ht hf name, (if_pos hcond).symm⟩
          · exact ⟨[], .refl ht hf, (if_neg hcond).symm⟩
  | computed c =>
      cases selection with
      | nested name fragment => exact Meets.throw trivial
      | field name =>
          refine Meets.bind ((computed_writes c hjoins ht hf).mono fun e w₁ h₁ => ?_)
          obtain ⟨hw₁, he⟩ := h₁
          have hnamed := Work.Writes.addNamed hw₁.tidy hw₁.faithful name e
          exact meets_modifyContext ⟨_, hw₁.trans hnamed, e, he.mono hnamed.within, rfl⟩
  | relation join =>
      have hrelation := (relation_writes hnest ht hf selection hjoins).mono fun _ w' h =>
        show ∃ es, w.Writes S w' es ∧ (FieldKind.relation join).Written env (w'.context.legend S)
            (Output.Written env (w'.context.legend S) (depth + 1)) table.table w.context.label selection
            es by
          obtain ⟨label, o, hw, hjoined, hwritten⟩ := h
          exact ⟨_, hw, label, o, _, hjoined, ⟨hwritten.row_eq, rfl⟩, hwritten, rfl⟩
      cases selection <;> exact hrelation

theorem selections_writes (hnest : NestWrites S env (depth + 1) nest) (fragment : String)
    {table : NamedTable}
    (hjoins : ∀ name f, table.table.fields.get? name = some f → f.kind.EveryJoin S)
    (selections : List Selection) (ht : w.context.Tidy) (hf : w.context.Faithful S)
    (seen : List String) :
    Leads (Compile.selections env nest fragment (readsWholeRow env table.table) table seen
      selections) w fun _ w' => ∃ es, w.Writes S w' es ∧
        Selection.WrittenAll env (w'.context.legend S)
          (Output.Written env (w'.context.legend S) (depth + 1)) table.table w.context.label selections
          es := by
  induction selections generalizing w seen with
  | nil => exact Meets.pure ⟨[], .refl ht hf, rfl⟩
  | cons s rest ih =>
      rw [Compile.selections]
      refine Meets.ite (fun _ => Meets.bind (Meets.throw trivial)) fun _ => ?_
      refine leads_lookup fun field hlookup => ?_
      have hfield := Request.lookupField_ok hlookup
      -- the rest goes on from where the first selection ends
      have hrest : ∀ {w₁ : Work} {first : List (String × Expr Placeholder)}, w.Writes S w₁ first →
          s.Written env (w₁.context.legend S) (Output.Written env (w₁.context.legend S) (depth + 1))
            table.table w.context.label first →
          Leads (Compile.selections env nest fragment (readsWholeRow env table.table) table
            (s.name :: seen) rest) w₁ fun _ w' => ∃ es, w.Writes S w' es ∧
              Selection.WrittenAll env (w'.context.legend S)
                (Output.Written env (w'.context.legend S) (depth + 1)) table.table w.context.label
                (s :: rest) es := by
        intro w₁ first hw₁ hfirst
        refine (ih hw₁.tidy hw₁.faithful (s.name :: seen)).mono fun _ w₂ h₂ => ?_
        obtain ⟨more, hw₂, hmore⟩ := h₂
        rw [hw₁.place.label] at hmore
        refine ⟨first ++ more, hw₁.trans hw₂, first, more, ?_, hmore, rfl⟩
        exact hfirst.mono hw₂.within fun _ _ _ _ => Output.Written.mono hw₂.within
      refine Meets.ite (fun hread => Meets.bind ?_) fun hread => Meets.bind (meets_drop ?_)
      · refine (readableField_writes hnest ht hf (hjoins _ _ hfield)).mono fun _ w₁ h₁ => ?_
        obtain ⟨first, hw₁, hfirst⟩ := h₁
        refine hrest hw₁ ⟨field, hfield, ?_⟩
        rw [if_pos hread]
        exact hfirst
      · refine hrest (.drop ht hf _) ⟨field, hfield, ?_⟩
        rw [if_neg hread]

/-- What a compiled fragment writes, by induction over the room that is left for nesting. -/
theorem fragment_writes (hjoins : env.metadata.EveryJoin S) (room : Nat) (path : FragmentPath) :
    ∀ depth, room < depth → NestWrites S env depth (fragment env room path) := by
  induction room generalizing path with
  | zero =>
      intro depth _ name f w hblank ht hf hget
      exact leads_lookup fun _ _ => Meets.throw trivial
  | succ room ih =>
      intro depth hdepth name f w hblank ht hf hget
      -- related rows are one level deeper, and there is one level at least
      obtain ⟨depth, rfl⟩ : ∃ k, depth = k + 2 := ⟨depth - 2, by omega⟩
      refine leads_lookup fun path' _ => ?_
      obtain ⟨hwhole, hbase⟩ := baseRow_key env hblank ht
      refine Meets.bind (meets_onContext (Meets.get ?_))
      dsimp only
      rw [hwhole]
      have hplace : (baseRow env false w.context).2.table = w.context.table := hbase.place.table
      rw [hplace]
      obtain ⟨hgrows, hcarries, hfaithful⟩ := baseRow_writes hf hbase
      refine (selections_writes (w := { w with context := (baseRow env false w.context).2 })
        (ih path' (depth + 1) (by omega)) name (hjoins _ _ hget) f.selections hbase.tidy hfaithful
        []).mono
        fun _ w₂ h₂ => ?_
      obtain ⟨es, hw₂, hes⟩ := h₂
      obtain ⟨ds, ha⟩ := hw₂.adds
      have hlabel : w₂.context.label = w.context.label := (hgrows.trans ha.grows).place.label
      have hfirst : (baseRow env false w.context).2.label = w.context.label := hbase.place.label
      refine ⟨hgrows.trans ha.grows, ha.tidy, hcarries.trans hw₂.carries, hw₂.faithful,
        ⟨ds, ha.dropped⟩, _, es, hget, ?_, ?_, ?_⟩
      · show (if w₂.context.wholeRow then some w₂.context.label else none) = _
        rw [ha.wholeRow, hlabel, hbase.wholeRow]
      · rw [← hfirst]
        exact hes
      · rw [ha.entries, hbase.entries]
        rfl

end fragments

end Compile

/-! ### Requests -/

namespace Request

variable {S : JoinSpec → Prop} {env : Env} {r : Request} {aliases : Aliases} {q : Query}

/-- How a request was compiled: its fragment in the context `w`, and the select statement from it
with further values.  What it shows is written as its fields say. -/
structure Trace (S : JoinSpec → Prop) (env : Env) (r : Request) (aliases : Aliases) (q : Query)
    (f : Fragment) (table : NamedTable) (w w' : Work) : Prop where
  fragment : env.metadata.fragments.get? r.fragment = some f
  lookup : env.metadata.lookupTable f.table = .ok table
  run : compileIn env r table (r.start env table aliases) = .ok q.select w'
  resolved : Compile.namedFragment env r.fragment (r.begun env table aliases) = .ok () w
  context : ∃ args, w'.context = { w.context with arguments := args }
  params : q.params = w'.context.arguments.values
  completes : Completes w.context q.select
  source : q.select.source = some ⟨f.table, rootAlias f.table⟩
  displays : q.select.Displays w.context.output
  faithful : w.context.Faithful S
  supplied : w.context.resolverArgs = r.resolverArgs
  written : ∀ depth, env.settings.maxFragmentDepth.toNat + 1 < depth →
    Output.Written env (w.context.legend S) depth (.fields r.fragment f.selections) f.table
      (rootAlias f.table) w.context.output

/-- **What a compiled request shows is written as its fields say**, under the legend of the context
that its select statement is completed from. -/
theorem compile_writes (hjoins : env.metadata.EveryJoin S) (h : r.compile env aliases = .ok q) :
    ∃ f table w w', Trace S env r aliases q f table w w' := by
  obtain ⟨f, table, w', hf, ht, hrun, -⟩ := exists_compileIn h
  obtain ⟨w, hw, hcompletes, hcontext⟩ := compileIn_completes.of_ok hrun
  obtain ⟨hname, hget⟩ := lookupTable_ok ht
  have hown : env.metadata.tables.get? table.name = some table.table := by
    rw [hname]
    exact hget
  have htidy : (r.begun env table aliases).context.Tidy := by
    refine ⟨List.forall_mem_nil _, List.forall_mem_singleton.mpr ?_⟩
    intro spec hspec
    cases hspec
  have hfaithful : (r.begun env table aliases).context.Faithful S := by
    refine ⟨List.nodup_nil, List.Pairwise.nil, List.forall_mem_nil _, List.forall_mem_nil _, ?_⟩
    refine List.forall_mem_singleton.mpr ?_
    intro spec hspec
    cases hspec
  have hresolves : ∀ depth, env.settings.maxFragmentDepth.toNat + 1 < depth →
      Compile.Resolves S env depth (.fields r.fragment f.selections) (r.begun env table aliases)
        w := by
    intro depth hdepth
    have hnamed : Compile.Leads (Compile.namedFragment env r.fragment) (r.begun env table aliases)
        fun _ w' => Compile.Resolves S env depth (.fields r.fragment f.selections)
          (r.begun env table aliases) w' := by
      unfold Compile.namedFragment
      rw [hf]
      refine Compile.leads_lookup fun f' hf' => ?_
      cases hf'
      exact Compile.fragment_writes hjoins _ _ depth hdepth r.fragment f _ ⟨rfl, rfl⟩ htidy hfaithful
        hown
    exact hnamed.of_ok hw
  have hresolved := hresolves _ (Nat.lt_succ_self _)
  have hlabel : w.context.label = rootAlias table.name := hresolved.grows.place.label
  have htable : w.context.table = table := hresolved.grows.place.table
  refine ⟨f, table, w, w', lookupFragment_ok hf, ht, hrun, hw, hcontext, ?_, hcompletes, ?_, ?_,
    hresolved.faithful, hresolved.carries.supplied, fun depth hdepth => ?_⟩
  · rw [compile_eq env hf ht, hrun] at h
    exact (congrArg Query.params (Except.ok.inj h)).symm
  · rw [hcompletes.source, htable, hlabel, hname]
  · obtain ⟨rest, hitems, hentries⟩ := hresolved.tidy.selectItems_eq hresolved.grows.place.nested
    exact ⟨rest, hcompletes.items.trans hitems, hentries⟩
  · rw [← hname]
    exact (hresolves depth hdepth).written

end Request

end ShapedQuery
