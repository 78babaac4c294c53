import ShapedQuery.Proofs.References
import ShapedQuery.Proofs.Runs

/-! # Aliases in scope

In a select statement all aliases are different, each alias that is used is bound, and a join uses
only its own alias and those bound before it (`Select.Scoped`).  Whatever the metadata and the
sequence of aliases, the statement of a compiled request is of this kind
(`Request.compile_scoped`).

A context in the making has less to go by: its own alias is bound outside of it, and so is that of
the user if it is nested.  Given these, its joins are in order and what it shows uses aliases that
it sees (`Context.Scoped`).  Every step of a run keeps that, folding a nested context back included
(`Context.Scoped.folded`). -/

namespace ShapedQuery

/-! ### Joins in order -/

namespace Join

variable {π : Type} {P Q : String → Prop}

/-- Each of the joins uses its own alias, those of the joins before it, and those in `P`. -/
def InOrder (P : String → Prop) : List (Join π) → Prop
  | [] => True
  | j :: js => (∀ e ∈ j.on, e.EveryLabel fun l => l = j.label ∨ P l) ∧
      InOrder (fun l => l = j.label ∨ P l) js

theorem InOrder.mono {js : List (Join π)} (h : InOrder P js) (hPQ : ∀ l, P l → Q l) :
    InOrder Q js := by
  induction js generalizing P Q with
  | nil => trivial
  | cons j js ih =>
      have hor : ∀ l, l = j.label ∨ P l → l = j.label ∨ Q l := fun l hl => hl.imp_right (hPQ l)
      exact ⟨fun e he => (h.1 e he).mono hor, ih h.2 hor⟩

/-- One more join comes last. -/
theorem InOrder.concat {js : List (Join π)} {j : Join π} (h : InOrder P js)
    (hj : ∀ e ∈ j.on, e.EveryLabel fun l => l = j.label ∨ P l ∨ l ∈ js.map Join.label) :
    InOrder P (js ++ [j]) := by
  induction js generalizing P with
  | nil =>
      refine ⟨fun e he => (hj e he).mono fun l hl => ?_, trivial⟩
      simpa using hl
  | cons i js ih =>
      refine ⟨h.1, ih h.2 fun e he => (hj e he).mono fun l hl => ?_⟩
      rw [List.map_cons, List.mem_cons] at hl
      tauto

/-- What the join at a place uses. -/
theorem InOrder.of_getElem? {js : List (Join π)} (h : InOrder P js) {i : Nat} {j : Join π}
    (hj : js[i]? = some j) :
    ∀ e ∈ j.on, e.EveryLabel fun l => P l ∨ l ∈ (js.take (i + 1)).map Join.label := by
  induction js generalizing P i with
  | nil => cases hj
  | cons k js ih =>
      cases i with
      | zero =>
          cases hj
          exact fun e he => (h.1 e he).mono fun l hl => by simpa [or_comm] using hl
      | succ i =>
          refine fun e he => (ih h.2 hj e he).mono fun l hl => ?_
          rw [List.take_succ_cons, List.map_cons, List.mem_cons]
          tauto

end Join

/-- Joins that are put together stay in order, if what the second list relies on is there. -/
theorem Context.inOrder_mergeJoins {P Q : String → Prop} {joins more : List OwnedJoin}
    (h : Join.InOrder P (joins.map OwnedJoin.join))
    (hmore : Join.InOrder Q (more.map OwnedJoin.join))
    (hQ : ∀ l, Q l → P l ∨ l ∈ OwnedJoin.labels joins) :
    Join.InOrder P ((mergeJoins joins more).map OwnedJoin.join) := by
  induction more generalizing joins Q with
  | nil => exact h
  | cons j more ih =>
      rw [List.map_cons] at hmore
      obtain ⟨hj, hrest⟩ := hmore
      rw [mergeJoins]
      split
      · -- the join is there already, under the alias that the later ones rely on
        rename_i hany
        obtain ⟨k, hk, hsame⟩ := List.any_eq_true.mp hany
        rw [OwnedJoin.same, Bool.and_eq_true] at hsame
        have hlabel : k.join.label = j.join.label :=
          label_eq_of_map_eq ((Join.beq_iff _ _).mp hsame.2)
        refine ih h hrest fun l hl => ?_
        rcases hl with rfl | hl
        · exact .inr (hlabel ▸ List.mem_map_of_mem hk)
        · exact hQ l hl
      · refine ih ?_ hrest fun l hl => ?_
        · rw [List.map_append, List.map_singleton]
          refine h.concat fun e he => (hj e he).mono fun l hl => ?_
          rw [List.map_map]
          exact hl.imp_right (hQ l)
        · rw [OwnedJoin.labels, List.map_append, List.map_singleton, List.mem_append,
            List.mem_singleton]
          rcases hl with rfl | hl
          · exact .inr (.inr rfl)
          · exact (hQ l hl).imp_right .inl

/-! ### Contexts -/

namespace Context

/-- What is bound outside of a context: its own alias, and for a nested one that of the user. -/
def Outside (c : Context) (label : String) : Prop :=
  label = c.label ∨ (c.nested = true ∧ c.currentUserJoined = true ∧ label = currentUserAlias)

/-- What a context shows and joins is in scope. -/
structure Scoped (c : Context) : Prop where
  user : c.currentUserJoined = true → c.nested = true ∨ currentUserAlias ∈ OwnedJoin.labels c.joins
  projections : ∀ p ∈ c.projections, p.EveryLabel c.Sees
  joins : Join.InOrder c.Outside (c.joins.map OwnedJoin.join)

variable {c : Context}

/-- What is seen is bound outside or by a join. -/
theorem Scoped.bound (h : c.Scoped) {l : String} (hl : c.Sees l) :
    c.Outside l ∨ l ∈ OwnedJoin.labels c.joins := by
  rcases hl with rfl | hl | ⟨hjoined, rfl⟩
  · exact .inl (.inl rfl)
  · exact .inr hl
  · exact (h.user hjoined).imp_left fun hn => .inr ⟨hn, hjoined, rfl⟩

theorem Scoped.addProjection (h : c.Scoped) {p : Projection} (hp : p.EveryLabel c.Sees) :
    Scoped { c with projections := c.projections ++ [p] } where
  user := h.user
  projections := List.forall_mem_append.mpr ⟨h.projections, List.forall_mem_singleton.mpr hp⟩
  joins := h.joins

theorem scoped_child (c : Context) (table : NamedTable) (label : String) :
    (c.child table label).Scoped :=
  ⟨fun _ => .inl rfl, List.forall_mem_nil _, trivial⟩

theorem Scoped.addJoin (h : c.Scoped) (spec : JoinSpec) {label : String}
    {on : List (Expr Placeholder)}
    (hon : ∀ e ∈ on, e.EveryLabel fun l => l = label ∨ c.Sees l) :
    (c.addJoin spec label on).Scoped := by
  have hsub : c.joins ⊆ (c.addJoin spec label on).joins := List.subset_append_left _ _
  refine ⟨fun hjoined => ?_, fun p hp => ?_, ?_⟩
  · exact (h.user hjoined).imp_right fun hl => List.map_subset _ hsub hl
  · exact (h.projections p hp).mono fun l hl => hl.mono rfl rfl hsub
  · show Join.InOrder c.Outside ((c.joins ++ [_]).map OwnedJoin.join)
    rw [List.map_append, List.map_singleton]
    refine h.joins.concat fun e he => (hon e he).mono fun l hl => ?_
    rw [List.map_map]
    exact hl.imp_right h.bound

/-- A nested context over the row of a join is folded back. -/
theorem Scoped.folded (h : c.Scoped) {child : Context} (hchild : child.Scoped)
    (hlabel : child.label ∈ OwnedJoin.labels c.joins)
    (huser : child.currentUserJoined = c.currentUserJoined) (name : String) :
    (c.folded child name).Scoped := by
  have hsub : c.joins ⊆ (c.folded child name).joins := (prefix_mergeJoins _ _).subset
  have hsees : ∀ l, c.Sees l → (c.folded child name).Sees l := fun l hl => hl.mono rfl rfl hsub
  -- what the nested context sees, the outer one sees when it has the joins
  have hnested : ∀ l, child.Sees l → (c.folded child name).Sees l := by
    intro l hl
    rcases hl with rfl | hl | ⟨hjoined, rfl⟩
    · exact .inr (.inl (List.map_subset _ hsub hlabel))
    · exact .inr (.inl ((labels_subset_mergeJoins c.joins child.joins).2 hl))
    · exact .inr (.inr ⟨huser.symm.trans hjoined, rfl⟩)
  have houtside : ∀ l, child.Outside l → c.Outside l ∨ l ∈ OwnedJoin.labels c.joins := by
    rintro l (rfl | ⟨-, hjoined, rfl⟩)
    · exact .inr hlabel
    · exact h.bound (.inr (.inr ⟨huser.symm.trans hjoined, rfl⟩))
  refine ⟨fun hjoined => ?_, ?_, inOrder_mergeJoins h.joins hchild.joins houtside⟩
  · exact (h.user hjoined).imp_right fun hl => List.map_subset _ hsub hl
  · refine List.forall_mem_append.mpr ⟨fun p hp => (h.projections p hp).mono hsees, ?_⟩
    refine List.forall_mem_singleton.mpr (everyLabel_namedProjection c name ?_)
    refine everyLabel_nestedRow child (hnested _ (.inl rfl)) fun p hp => ?_
    exact (hchild.projections p hp).mono hnested

end Context

theorem Context.Scoped.of_binds {w w' : Work} (h : w.context.Scoped) (hb : w.Binds w') :
    w'.context.Scoped := by
  refine ⟨?_, ?_, ?_⟩
  · rw [hb.place.userJoined, hb.place.nested, hb.joins]
    exact h.user
  · rw [hb.projections]
    exact fun p hp => (h.projections p hp).mono (Work.Grows.of_binds hb).sees
  · rw [hb.joins]
    refine h.joins.mono fun l hl => ?_
    unfold Outside
    rw [hb.place.label, hb.place.nested, hb.place.userJoined]
    exact hl

/-- Runs keep what they work on in scope. -/
theorem Work.Runs.scoped {S : JoinSpec → Prop} {P : List JoinSpec → Prop} {w w' : Work}
    {opened : List JoinSpec} (h : w.Runs S P opened w') (hs : w.context.Scoped) :
    w'.context.Scoped := by
  have hfold : ∀ {w wc : Work} {j : OwnedJoin} {table : NamedTable} (name : String),
      w.context.Scoped → wc.context.Scoped → j ∈ w.context.joins →
      Work.Grows ⟨w.context.child table j.join.label, w.aliases, w.dropped⟩ wc →
      (w.context.folded wc.context name).Scoped := by
    intro w wc j table name hs hc hj hg
    refine hs.folded hc ?_ hg.place.userJoined name
    rw [hg.place.label]
    exact List.mem_map_of_mem hj
  induction h with
  | binds h => exact hs.of_binds h
  | drops w d => exact hs
  | row w => exact ⟨hs.user, hs.projections, hs.joins⟩
  | column w name =>
      exact hs.addProjection (Context.everyLabel_fieldProjection _ name (.inl rfl))
  | named w name he => exact hs.addProjection (Context.everyLabel_namedProjection _ name he)
  | @join w w₁ spec on hspec hnew hb hon =>
      have hs₁ : w₁.context.Scoped :=
        Context.Scoped.of_binds (w := ⟨w.context, w.aliases.next.2, w.dropped⟩) hs hb
      refine hs₁.addJoin spec fun e he => (hon e he).mono fun l hl => ?_
      exact hl.imp_right ((Work.Grows.of_binds hb).sees l)
  | plain table name hj h hplain ih =>
      exact hfold name hs (ih (Context.scoped_child _ _ _)) hj h.grows
  | fold table name hj hspec h hopened ih =>
      exact hfold name hs (ih (Context.scoped_child _ _ _)) hj h.grows
  | trans h h' ih ih' => exact ih' (ih hs)

/-! ### Select statements -/

/-- All aliases of a select statement are different, each one that is used is bound, and each join
uses those bound before it and its own. -/
structure Select.Scoped {π : Type} (s : Select π) : Prop where
  distinct : s.labels.Nodup
  items : ∀ i ∈ s.items, i.EveryLabel (· ∈ s.labels)
  condition : s.condition.EveryLabel (· ∈ s.labels)
  order : ∀ t ∈ s.order, t.target.EveryLabel (· ∈ s.labels)
  joins : ∀ (i : Nat) (j : Join π), s.joins[i]? = some j → ∀ e ∈ j.on, e.EveryLabel fun l =>
    l ∈ s.source.toList.map Source.label ∨ l ∈ (s.joins.take (i + 1)).map Join.label

namespace Request

variable {env : Env} {r : Request} {table : NamedTable} {aliases : Aliases}

theorem scoped_begun (env : Env) (r : Request) (table : NamedTable) (aliases : Aliases) :
    (r.begun env table aliases).context.Scoped where
  user _ := .inr (List.mem_singleton_self _)
  projections := List.forall_mem_nil _
  joins := ⟨List.forall_mem_singleton.mpr ⟨trivial, .inl rfl, trivial⟩, trivial⟩

/-- A statement is scoped if the outermost context that it completes is. -/
theorem Completes.scoped {c : Context} {s : Select Placeholder} (h : Completes c s)
    (hc : c.Scoped) (hroot : c.nested = false) : s.Scoped := by
  have hlabels : s.labels = c.label :: OwnedJoin.labels c.joins := by
    rw [Select.labels, h.source, h.joins, List.map_map]
    rfl
  have hown : ∀ l, l = c.label → l ∈ s.labels := by
    rintro l rfl
    rw [hlabels]
    exact List.mem_cons_self
  have houtside : ∀ l, c.Outside l → l = c.label := by
    rintro l (rfl | ⟨hn, -⟩)
    · rfl
    · rw [hroot] at hn
      cases hn
  have hsees : ∀ l, c.Sees l → l ∈ s.labels := by
    intro l hl
    rw [hlabels, List.mem_cons]
    exact (hc.bound hl).imp_left (houtside l)
  refine ⟨?_, ?_, h.condition.mono hown, fun t ht => (h.order t ht).mono hown, ?_⟩
  · obtain ⟨hnodup, hnot⟩ := Context.nodup_of_repeatedAlias? h.labels
    rw [hlabels]
    exact List.nodup_cons.mpr ⟨fun hmem => hnot _ hmem (List.mem_singleton_self _), hnodup⟩
  · rw [h.items]
    refine Context.everyLabel_selectItems c (hown _ rfl) fun p hp => ?_
    exact (hc.projections p hp).mono hsees
  · intro i j hj e he
    rw [h.joins] at hj ⊢
    refine (hc.joins.of_getElem? hj e he).mono fun l hl => hl.imp_left fun ho => ?_
    rw [h.source, houtside l ho]
    exact List.mem_singleton_self _

end Request

/-! ### Joins that are taken in -/

/-- The context `c'` comes of `c` by taking in the joins of a nested context: they follow those of
`c` in their order, and one that is left out is there already. -/
structure Context.TakesIn (c child c' : Context) : Prop where
  added : ∃ added, c'.joins = c.joins ++ added ∧ added.Sublist child.joins
  kept : ∀ j ∈ child.joins, ∃ k ∈ c'.joins, k = j ∨ k.same j = true

namespace Context

/-- Folding a nested context back takes its joins in. -/
theorem takesIn_of_aggregate {c child c' : Context} {name : String}
    (h : c.aggregate child name = .ok () c') : c.TakesIn child c' := by
  rw [aggregate_eq] at h
  split at h
  · cases h
    obtain ⟨added, heq, hsub, -⟩ := mergeJoins_eq_append c.joins child.joins
    exact ⟨⟨added, heq, hsub⟩, fun j => exists_same_mergeJoins c.joins⟩
  · cases h

end Context

namespace Request

/-- **Aliases are in scope.**  In the statement of a compiled request all aliases are different,
each one that is used is bound, and a join uses its own alias and those bound before it.  No join of
a nested context gets lost or changes places when it is folded back. -/
theorem compile_scoped (env : Env) (r : Request) (aliases : Aliases) :
    (∀ q, r.compile env aliases = .ok q → q.select.Scoped) ∧
      ∀ (c child c' : Context) (name : String),
        c.aggregate child name = .ok () c' → c.TakesIn child c' := by
  refine ⟨fun q h => ?_, fun _ _ _ _ => Context.takesIn_of_aggregate⟩
  obtain ⟨f, table, w, w', -, -, -, -, hruns, hcompletes⟩ :=
    compile_runs (Compile.admits_true env) h
  have hscoped := hruns.scoped (scoped_begun env r table aliases)
  have hroot : w.context.nested = false := hruns.grows.place.nested
  exact hcompletes.scoped hscoped hroot

end Request

namespace Sample

/-- Posts, joined with their authors. -/
def outer : Context :=
  (Context.root ⟨"Posts", posts⟩ "Users" []).addJoin ⟨"Users", .left, []⟩ "author" []

/-- The author of a post, joined with the users once more. -/
def inner : Context :=
  (outer.child ⟨"Users", users⟩ "author").addJoin ⟨"Users", .inner, []⟩ "peer" []

theorem aggregate_inner :
    outer.aggregate inner "author" = .ok () (outer.folded inner "author") := by
  rw [Context.aggregate_eq]
  exact if_pos rfl

end Sample

/-- One alias over and over is enough for one join. -/
theorem Request.compile_scoped_sample :
    (∃ q, Sample.request.compile Sample.env (.constant "q") = .ok q ∧ q.select.Scoped) ∧
      Sample.outer.aggregate Sample.inner "author" =
        .ok () (Sample.outer.folded Sample.inner "author") ∧
      Sample.outer.TakesIn Sample.inner (Sample.outer.folded Sample.inner "author") := by
  have hrun : (Sample.request.compile Sample.env (.constant "q")).toOption.map (fun _ => ()) =
      some () := by decide +kernel
  obtain ⟨q, hq, -⟩ := Sample.exists_ok_of_map hrun
  obtain ⟨hscoped, htakes⟩ := compile_scoped Sample.env Sample.request (.constant "q")
  exact ⟨⟨q, hq, hscoped q hq⟩, Sample.aggregate_inner, htakes _ _ _ _ Sample.aggregate_inner⟩

end ShapedQuery
