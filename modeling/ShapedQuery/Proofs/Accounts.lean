import Mathlib.Data.List.Nodup
import ShapedQuery.Proofs.Keyed
import ShapedQuery.Proofs.SelectorValues

/-! # Placeholders and the values they stand for

`Covers base vs ps` says that the placeholders `ps` and the values `vs`, which are bound behind
the values `base`, belong to each other: each placeholder finds its own value at its number, and
each of the values has a placeholder.

`Context.Accounts` says this of a context: of the placeholders in its projections and joins
together with some that are `pending`, that is, in an expression that is still being put
together.  Every operation on contexts keeps it; an operation that makes an expression adds its
placeholders to those pending, and one that puts an expression into the context takes them away.
Folding a nested context back (`Accounts.folded`) joins the two accounts. -/

namespace ShapedQuery

/-! ### Placeholders among values -/

/-- A placeholder finds its value at its number. -/
def Placeholder.At (vs : List Param) (p : Placeholder) : Prop :=
  0 < p.index ∧ vs[p.index - 1]? = some p.value

theorem Placeholder.At.append {vs : List Param} {p : Placeholder} (h : p.At vs) (us : List Param) :
    p.At (vs ++ us) := by
  refine ⟨h.1, ?_⟩
  obtain ⟨hlt, _⟩ := List.getElem?_eq_some_iff.mp h.2
  rw [List.getElem?_append_left hlt]
  exact h.2

/-- Placeholders and the values bound behind `base` belong to each other. -/
structure Covers (base vs : List Param) (ps : List Placeholder) : Prop where
  sound : ∀ p ∈ ps, p.At (base ++ vs)
  complete : ∀ i, base.length < i → i ≤ base.length + vs.length → ∃ p ∈ ps, p.index = i

namespace Covers

variable {base vs us : List Param} {ps qs : List Placeholder}

theorem nil : Covers base [] [] := by
  refine ⟨nofun, fun i h₁ h₂ => ?_⟩
  simp only [List.length_nil] at h₂
  omega

theorem congr (h : Covers base vs ps) (hm : ∀ p, p ∈ ps ↔ p ∈ qs) : Covers base vs qs := by
  refine ⟨fun p hp => h.sound p ((hm p).mpr hp), fun i h₁ h₂ => ?_⟩
  obtain ⟨p, hp, hi⟩ := h.complete i h₁ h₂
  exact ⟨p, (hm p).mp hp, hi⟩

/-- Placeholders whose numbers are taken care of by others may go. -/
theorem shrink (h : Covers base vs ps) (hs : ∀ q ∈ qs, q ∈ ps)
    (hc : ∀ p ∈ ps, ∃ q ∈ qs, q.index = p.index) : Covers base vs qs := by
  refine ⟨fun q hq => h.sound q (hs q hq), fun i h₁ h₂ => ?_⟩
  obtain ⟨p, hp, rfl⟩ := h.complete i h₁ h₂
  exact hc p hp

theorem join (h : Covers base vs ps) (h' : Covers (base ++ vs) us qs) :
    Covers base (vs ++ us) (ps ++ qs) := by
  constructor
  · intro p hp
    rw [← List.append_assoc]
    rcases List.mem_append.mp hp with hp | hp
    · exact (h.sound p hp).append us
    · exact h'.sound p hp
  · intro i h₁ h₂
    simp only [List.length_append] at h₂
    by_cases hi : i ≤ base.length + vs.length
    · obtain ⟨p, hp, rfl⟩ := h.complete i h₁ hi
      exact ⟨p, List.mem_append_left _ hp, rfl⟩
    · obtain ⟨p, hp, rfl⟩ := h'.complete i (by simp only [List.length_append]; omega)
        (by simp only [List.length_append]; omega)
      exact ⟨p, List.mem_append_right _ hp, rfl⟩

end Covers

/-- Placeholders numbered one after the other cover their own values. -/
theorem Consecutive.covers {base : List Param} {ps : List Placeholder}
    (h : Consecutive base.length ps) : Covers base (ps.map Placeholder.value) ps := by
  have hi : ∀ k (hk : k < ps.length), (ps.get ⟨k, hk⟩).index = base.length + 1 + k := by
    intro k hk
    have := congrArg (fun l => l[k]?) h
    simpa [List.getElem?_range', hk] using this
  constructor
  · intro p hp
    obtain ⟨⟨k, hlt⟩, rfl⟩ := List.get_of_mem hp
    have hk := hi k hlt
    refine ⟨by omega, ?_⟩
    have hsub : base.length + 1 + k - 1 - base.length = k := by omega
    rw [List.getElem?_append_right (by omega), hk, hsub]
    simp [hlt]
  · intro i h₁ h₂
    rw [List.length_map] at h₂
    refine ⟨ps.get ⟨i - base.length - 1, by omega⟩, List.get_mem _ _, ?_⟩
    rw [hi]
    omega

/-! ### Entries -/

namespace Entries

variable {α : Type}

theorem mem_of_mem_foldl_insert {es more : Entries α} {e : String × α}
    (h : e ∈ more.foldl (fun bound (name, p) => bound.insert name p) es) : e ∈ es ∨ e ∈ more := by
  induction more generalizing es with
  | nil => exact .inl h
  | cons e' more ih =>
      rcases ih h with h | h
      · rcases mem_of_mem_insert h with h | rfl
        · exact .inl h
        · exact .inr List.mem_cons_self
      · exact .inr (List.mem_cons_of_mem _ h)

end Entries

/-! ### Joins put together -/

namespace Context

/-- The joins that are added come in their order.  None of them is there already, and one that is
left out is. -/
theorem mergeJoins_eq_append (joins more : List OwnedJoin) :
    ∃ added, mergeJoins joins more = joins ++ added ∧ added.Sublist more ∧
      (∀ j ∈ added, ∀ k ∈ joins, k.same j = false) ∧
      ∀ j ∈ more, ∃ k ∈ joins ++ added, k = j ∨ k.same j = true := by
  induction more generalizing joins with
  | nil =>
      exact ⟨[], (List.append_nil joins).symm, List.Sublist.refl _, List.forall_mem_nil _,
        List.forall_mem_nil _⟩
  | cons j more ih =>
      rw [mergeJoins]
      split
      · rename_i hany
        obtain ⟨added, heq, hsub, hnew, hall⟩ := ih joins
        obtain ⟨k, hk, hsame⟩ := List.any_eq_true.mp hany
        refine ⟨added, heq, hsub.cons j, hnew, List.forall_mem_cons.mpr ⟨?_, hall⟩⟩
        exact ⟨k, List.mem_append_left _ hk, .inr hsame⟩
      · rename_i hnone
        obtain ⟨added, heq, hsub, hnew, hall⟩ := ih (joins ++ [j])
        rw [List.append_assoc] at heq hall
        refine ⟨j :: added, heq, hsub.cons_cons j, List.forall_mem_cons.mpr ⟨?_, ?_⟩,
          List.forall_mem_cons.mpr ⟨?_, hall⟩⟩
        · intro k hk
          rw [← Bool.not_eq_true]
          exact fun hsame => hnone (List.any_eq_true.mpr ⟨k, hk, hsame⟩)
        · exact fun i hi k hk => hnew i hi k (List.mem_append_left _ hk)
        · exact ⟨j, List.mem_append_right _ List.mem_cons_self, .inl rfl⟩

theorem mem_of_mem_mergeJoins {joins more : List OwnedJoin} {j : OwnedJoin}
    (h : j ∈ mergeJoins joins more) : j ∈ joins ∨ j ∈ more := by
  obtain ⟨added, heq, hsub, -⟩ := mergeJoins_eq_append joins more
  rw [heq, List.mem_append] at h
  exact h.imp_right fun hadded => hsub.subset hadded

theorem prefix_mergeJoins (joins more : List OwnedJoin) : joins <+: mergeJoins joins more := by
  obtain ⟨added, heq, -⟩ := mergeJoins_eq_append joins more
  exact ⟨added, heq.symm⟩

theorem exists_same_mergeJoins (joins : List OwnedJoin) {more : List OwnedJoin} {j : OwnedJoin}
    (h : j ∈ more) : ∃ k ∈ mergeJoins joins more, k = j ∨ k.same j = true := by
  obtain ⟨added, heq, -, -, hall⟩ := mergeJoins_eq_append joins more
  rw [heq]
  exact hall j h

/-- A join that is left out is there already, up to the values of its placeholders. -/
theorem exists_mem_mergeJoins (joins : List OwnedJoin) {more : List OwnedJoin} {j : OwnedJoin}
    (h : j ∈ more) :
    ∃ k ∈ mergeJoins joins more,
      k.join.map Placeholder.index = j.join.map Placeholder.index := by
  obtain ⟨k, hk, rfl | hsame⟩ := exists_same_mergeJoins joins h
  · exact ⟨k, hk, rfl⟩
  · rw [OwnedJoin.same, Bool.and_eq_true] at hsame
    exact ⟨k, hk, (Join.beq_iff _ _).mp hsame.2⟩

end Context

/-! ### Contexts -/

/-- What stays the same while a context is worked on: the values bound before it, the values that
the request supplies, and whether it is nested. -/
structure Frame where
  base : List Param
  args : Entries Json
  nested : Bool

/-- Is it a field of a JSON object? -/
def Projection.isField : Projection → Bool
  | .item _ => false
  | .field _ _ => true

def Projection.bounds : Projection → List Placeholder
  | .item i => i.bounds
  | .field _ value => value.bounds

namespace Context

/-- What stands at the placeholders of a context. -/
def bounds (c : Context) : List Placeholder :=
  c.projections.flatMap Projection.bounds ++ c.joins.flatMap fun j => j.join.bounds

section projections

variable (c : Context) (name : String) (e : Expr Placeholder)

theorem bounds_namedProjection : (c.namedProjection name e).bounds = e.bounds := by
  unfold namedProjection
  split <;> rfl

theorem isField_namedProjection : (c.namedProjection name e).isField = c.nested := by
  unfold namedProjection
  cases c.nested <;> rfl

theorem bounds_fieldProjection : (c.fieldProjection name).bounds = [] := by
  unfold fieldProjection
  split <;> rfl

theorem isField_fieldProjection : (c.fieldProjection name).isField = c.nested := by
  unfold fieldProjection
  cases c.nested <;> rfl

theorem joins_resolverArg : (c.resolverArg name).2.joins = c.joins := by
  unfold resolverArg
  split
  · rfl
  · split <;> rfl

end projections

theorem setCurrentUser_ok {c c' : Context} {user : Option User}
    (h : c.setCurrentUser user = .ok c') :
    c' = { (c.bind (userKey user)).2 with
      joins := c.joins ++ [⟨c.label, none, ⟨.left, c.currentUserTable, currentUserAlias,
        [.binary (.columnOf currentUserAlias primaryKey) .eq
          (.bound (c.bind (userKey user)).1)]⟩⟩]
      currentUserJoined := true } := by
  unfold setCurrentUser at h
  split at h
  · cases h
  · split at h
    · cases h
    · cases h
      cases user <;> rfl

/-- The values of a context belong to its placeholders and those pending. -/
structure Accounts (F : Frame) (c : Context) (pending : List Placeholder) : Prop where
  nested : c.nested = F.nested
  offset : c.arguments.offset = F.base.length
  args : c.resolverArgs = F.args
  covers : Covers F.base c.arguments.values (c.bounds ++ pending)
  /-- A resolver argument that is bound has the value supplied. -/
  bound : ∀ k ∈ c.boundArgs, k.2.At (F.base ++ c.arguments.values) ∧
    (F.args.get? k.1).map Param.ofJson = some k.2.value
  /-- A context shows fields exactly if it is nested. -/
  shown : ∀ p ∈ c.projections, p.isField = F.nested

namespace Accounts

variable {F : Frame} {c : Context} {pending pending' : List Placeholder}

theorem size_eq (h : c.Accounts F pending) :
    c.arguments.size = (F.base ++ c.arguments.values).length := by
  rw [Arguments.size, h.offset, List.length_append]

theorem congr (h : c.Accounts F pending) (hm : ∀ p, p ∈ pending ↔ p ∈ pending') :
    c.Accounts F pending' :=
  { h with covers := h.covers.congr fun p => by simp [hm] }

theorem root (table : NamedTable) (currentUserTable : String) (args : Entries Json) :
    (Context.root table currentUserTable args).Accounts ⟨[], args, false⟩ [] where
  nested := rfl
  offset := rfl
  args := rfl
  covers := Covers.nil
  bound := nofun
  shown := nofun

/-- Values bound one after the other. -/
theorem extend (h : c.Accounts F pending) (ps : List Placeholder)
    (hps : Consecutive c.arguments.size ps) :
    Context.Accounts F { c with arguments := c.arguments.extend (ps.map Placeholder.value) }
      (pending ++ ps) where
  nested := h.nested
  offset := h.offset
  args := h.args
  covers := by
    rw [h.size_eq] at hps
    refine (h.covers.join hps.covers).congr fun p => ?_
    rw [List.append_assoc]
    exact Iff.rfl
  bound := by
    intro k hk
    obtain ⟨hat, hval⟩ := h.bound k hk
    refine ⟨?_, hval⟩
    rw [Arguments.extend, ← List.append_assoc]
    exact hat.append _
  shown := h.shown

theorem bind (h : c.Accounts F pending) (value : Param) :
    (c.bind value).2.Accounts F (pending ++ [(c.bind value).1]) :=
  h.extend [(c.bind value).1] rfl

/-- Put a projection into the context. -/
theorem project {p : Projection} (h : c.Accounts F (pending ++ p.bounds))
    (hp : p.isField = F.nested) :
    Context.Accounts F { c with projections := c.projections ++ [p] } pending where
  nested := h.nested
  offset := h.offset
  args := h.args
  covers := h.covers.congr fun q => by simp [bounds, or_assoc, or_comm, or_left_comm]
  bound := h.bound
  shown := by
    intro q hq
    rcases List.mem_append.mp hq with hq | hq
    · exact h.shown q hq
    · rw [List.mem_singleton.mp hq, hp]

theorem addNamed {name : String} {e : Expr Placeholder} (h : c.Accounts F (pending ++ e.bounds)) :
    (c.addNamed name e).Accounts F pending := by
  refine project ?_ ?_
  · rwa [bounds_namedProjection]
  · rw [isField_namedProjection, h.nested]

theorem addColumn (h : c.Accounts F pending) (name : String) :
    (c.addColumn name).Accounts F pending := by
  refine project ?_ ?_
  · rwa [bounds_fieldProjection, List.append_nil]
  · rw [isField_fieldProjection, h.nested]

theorem addRow (h : c.Accounts F pending) : c.addRow.Accounts F pending := { h with }

theorem foldl_addColumn (h : c.Accounts F pending) (names : List String) :
    (names.foldl Context.addColumn c).Accounts F pending := by
  induction names generalizing c with
  | nil => exact h
  | cons name names ih => exact ih (h.addColumn name)

theorem baseRow (h : c.Accounts F pending) (env : Env) (allReadable : Bool) :
    (Compile.baseRow env allReadable c).2.Accounts F pending := by
  unfold Compile.baseRow
  split
  · exact h.addRow
  · have hk := h.addColumn primaryKey
    split
    · exact hk.foldl_addColumn _
    · exact hk

/-- Put a join into the context. -/
theorem addJoin {j : OwnedJoin} (h : c.Accounts F (pending ++ j.join.bounds)) :
    Context.Accounts F { c with joins := c.joins ++ [j] } pending :=
  { h with covers := h.covers.congr fun q => by simp [bounds, or_comm] }

theorem setCurrentUser {c' : Context} (h : c.Accounts F pending) {user : Option User}
    (hc : c.setCurrentUser user = .ok c') : c'.Accounts F pending := by
  obtain rfl := setCurrentUser_ok hc
  have hj := addJoin (j := ⟨c.label, none, ⟨.left, c.currentUserTable, currentUserAlias,
    [.binary (.columnOf currentUserAlias primaryKey) .eq (.bound (c.bind (userKey user)).1)]⟩⟩)
    (h.bind (userKey user))
  exact { hj with }

/-- The context of a related row starts with no values of its own. -/
theorem child (h : c.Accounts F pending) (table : NamedTable) (label : String) :
    (c.child table label).Accounts ⟨F.base ++ c.arguments.values, F.args, true⟩ [] where
  nested := rfl
  offset := h.size_eq
  args := h.args
  covers := Covers.nil
  bound := by
    intro k hk
    obtain ⟨hat, hval⟩ := h.bound k hk
    refine ⟨?_, hval⟩
    exact hat.append _
  shown := nofun

/-- A resolver argument is bound, or was bound before. -/
theorem resolverArg (h : c.Accounts F pending) (name : String) :
    (c.resolverArg name).2.Accounts F (pending ++ (c.resolverArg name).1.bounds) := by
  unfold Context.resolverArg
  cases hb : c.boundArgs.get? name with
  | some p =>
      -- no value is bound, so the placeholder must be one that the values cover already
      have hp := (h.bound _ (Entries.mem_of_get? hb)).1
      refine { h with covers := ⟨fun q hq => ?_, fun i h₁ h₂ => ?_⟩ }
      · rw [← List.append_assoc] at hq
        rcases List.mem_append.mp hq with hq | hq
        · exact h.covers.sound q hq
        · rwa [List.mem_singleton.mp hq]
      · obtain ⟨q, hq, hi⟩ := h.covers.complete i h₁ h₂
        refine ⟨q, ?_, hi⟩
        rw [← List.append_assoc]
        exact List.mem_append_left _ hq
  | none =>
      cases ha : c.resolverArgs.get? name with
      | none =>
          refine h.congr fun p => ?_
          simp [Expr.bounds]
      | some j =>
          have hbind := h.bind (Param.ofJson j)
          refine { hbind with bound := fun k hk => ?_ }
          rcases Entries.mem_of_mem_insert hk with hk | rfl
          · exact hbind.bound k hk
          · refine ⟨hbind.covers.sound _ (by simp), ?_⟩
            rw [← h.args, ha]
            rfl

theorem map_resolverArg (h : c.Accounts F pending) (name : String) :
    (c.resolverArg name).1.map Placeholder.value = Inline.resolverArg F.args name := by
  unfold Context.resolverArg Inline.resolverArg
  cases hb : c.boundArgs.get? name with
  | some p =>
      have hp := (h.bound _ (Entries.mem_of_get? hb)).2
      obtain ⟨j, hj, hv⟩ := Option.map_eq_some_iff.mp hp
      rw [hj]
      simp only [Inline.value, hv, Expr.map]
  | none =>
      rw [h.args]
      cases F.args.get? name <;> rfl

/-- The placeholders of a related row are those of its context's projections. -/
theorem mem_bounds_relatedRow {p : Placeholder} (h : c.Accounts F pending) (hn : F.nested = true) :
    p ∈ c.relatedRow.bounds ↔ p ∈ c.projections.flatMap Projection.bounds := by
  rw [relatedRow, Expr.bounds_relatedRow, Expr.boundsFields_eq]
  simp only [objectFields, List.mem_flatMap, List.mem_filterMap]
  constructor
  · rintro ⟨f, ⟨q, hq, hf⟩, hp⟩
    cases q with
    | item i => cases hf
    | field key value =>
        cases hf
        exact ⟨_, hq, hp⟩
  · rintro ⟨q, hq, hp⟩
    have hfield := h.shown q hq
    cases q with
    | item i => cases hfield.trans hn
    | field key value => exact ⟨(key, value), ⟨_, hq, rfl⟩, hp⟩

end Accounts

theorem exists_mem_bounds_mergeJoins (joins : List OwnedJoin) {more : List OwnedJoin}
    {p : Placeholder}
    (h : p ∈ more.flatMap fun j => j.join.bounds) :
    ∃ q ∈ (mergeJoins joins more).flatMap fun j => j.join.bounds, q.index = p.index := by
  obtain ⟨j, hj, hp⟩ := List.mem_flatMap.mp h
  obtain ⟨k, hk, hkj⟩ := exists_mem_mergeJoins joins hj
  have hb : k.join.bounds.map Placeholder.index = j.join.bounds.map Placeholder.index := by
    rw [← Join.bounds_map, ← Join.bounds_map, hkj]
  have hi : p.index ∈ k.join.bounds.map Placeholder.index := by
    rw [hb]
    exact List.mem_map_of_mem hp
  obtain ⟨q, hq, hqp⟩ := List.mem_map.mp hi
  exact ⟨q, List.mem_flatMap.mpr ⟨k, hk, hq⟩, hqp⟩

namespace Accounts

variable {F G : Frame} {c child : Context} {pending : List Placeholder}

theorem mem_bounds_folded (hchild : child.Accounts G []) (hn : G.nested = true) (name : String)
    (p : Placeholder) : p ∈ (c.folded child name).bounds ↔
      p ∈ c.projections.flatMap Projection.bounds ∨
        p ∈ child.projections.flatMap Projection.bounds ∨
        p ∈ (mergeJoins c.joins child.joins).flatMap fun j => j.join.bounds := by
  show p ∈ (c.projections ++ [c.namedProjection name child.relatedRow]).flatMap Projection.bounds ++
    (mergeJoins c.joins child.joins).flatMap (fun j => j.join.bounds) ↔ _
  rw [List.flatMap_append, List.append_assoc, List.mem_append, List.mem_append,
    List.flatMap_singleton, bounds_namedProjection, hchild.mem_bounds_relatedRow hn]

/-- **Folding a nested context back keeps the account**: its values follow, its projections are
in the field that is added, and a join that is left out has its numbers in the one that is
there. -/
theorem folded (h : c.Accounts F pending)
    (hchild : child.Accounts ⟨F.base ++ c.arguments.values, F.args, true⟩ []) (name : String) :
    (c.folded child name).Accounts F pending := by
  have hbounds := mem_bounds_folded (c := c) hchild rfl name
  constructor
  case nested => exact h.nested
  case offset => exact h.offset
  case args => exact h.args
  case covers =>
    refine (h.covers.join hchild.covers).shrink ?_ ?_
    · intro q hq
      simp only [List.mem_append, hbounds] at hq
      simp only [bounds, List.mem_append]
      rcases hq with (hq | hq | hq) | hq
      · exact .inl (.inl (.inl hq))
      · exact .inr (.inl (.inl hq))
      · obtain ⟨j, hj, hq⟩ := List.mem_flatMap.mp hq
        rcases mem_of_mem_mergeJoins hj with hj | hj
        · exact .inl (.inl (.inr (List.mem_flatMap.mpr ⟨j, hj, hq⟩)))
        · exact .inr (.inl (.inr (List.mem_flatMap.mpr ⟨j, hj, hq⟩)))
      · exact .inl (.inr hq)
    · intro p hp
      simp only [bounds, List.append_nil, List.mem_append] at hp
      simp only [List.mem_append, hbounds]
      rcases hp with ((hp | hp) | hp) | (hp | hp)
      · exact ⟨p, .inl (.inl hp), rfl⟩
      · obtain ⟨j, hj, hp⟩ := List.mem_flatMap.mp hp
        have hj' := (prefix_mergeJoins c.joins child.joins).subset hj
        exact ⟨p, .inl (.inr (.inr (List.mem_flatMap.mpr ⟨j, hj', hp⟩))), rfl⟩
      · exact ⟨p, .inr hp, rfl⟩
      · exact ⟨p, .inl (.inr (.inl hp)), rfl⟩
      -- a join of the nested context may be left out: then another has its numbers
      · obtain ⟨q, hq, hi⟩ := exists_mem_bounds_mergeJoins c.joins hp
        exact ⟨q, .inl (.inr (.inr hq)), hi⟩
  case bound =>
    intro k hk
    have hvs : (c.folded child name).arguments.values =
        c.arguments.values ++ child.arguments.values := rfl
    rw [hvs, ← List.append_assoc]
    rcases Entries.mem_of_mem_foldl_insert hk with hk | hk
    · obtain ⟨hat, hval⟩ := h.bound k hk
      exact ⟨hat.append _, hval⟩
    · exact hchild.bound k hk
  case shown =>
    intro p hp
    rcases List.mem_append.mp hp with hp | hp
    · exact h.shown p hp
    · rw [List.mem_singleton.mp hp, isField_namedProjection, h.nested]

end Accounts

/-! ### Joins that clash -/

/-- Two different joins under one alias. -/
def Clash (joins : List OwnedJoin) : Prop :=
  ∃ j ∈ joins, ∃ k ∈ joins, j.join.label = k.join.label ∧
    j.join.map Placeholder.index ≠ k.join.map Placeholder.index

theorem Clash.mono {joins more : List OwnedJoin} (h : Clash joins) (hs : joins ⊆ more) :
    Clash more := by
  obtain ⟨j, hj, k, hk, hl, hne⟩ := h
  exact ⟨j, hs hj, k, hs hk, hl, hne⟩

theorem label_eq_of_map_eq {π : Type} {f : Placeholder → π} {j k : Join Placeholder}
    (h : j.map f = k.map f) : j.label = k.label :=
  congrArg (fun i : Join π => i.label) h

/-- Joins that clash in a nested context still do so when it is folded back. -/
theorem Clash.mergeJoins {joins more : List OwnedJoin} (h : Clash more) :
    Clash (mergeJoins joins more) := by
  obtain ⟨j, hj, k, hk, hl, hne⟩ := h
  obtain ⟨j', hj', hjj⟩ := exists_mem_mergeJoins joins hj
  obtain ⟨k', hk', hkk⟩ := exists_mem_mergeJoins joins hk
  refine ⟨j', hj', k', hk', ?_, ?_⟩
  · rw [label_eq_of_map_eq hjj, label_eq_of_map_eq hkk, hl]
  · rwa [hjj, hkk]

theorem nodup_of_repeatedAlias? {seen labels : List String}
    (h : repeatedAlias? seen labels = none) : labels.Nodup ∧ ∀ l ∈ labels, l ∉ seen := by
  induction labels generalizing seen with
  | nil => exact ⟨List.nodup_nil, nofun⟩
  | cons l labels ih =>
      rw [repeatedAlias?] at h
      split at h
      · cases h
      · rename_i hl
        obtain ⟨hnodup, hnot⟩ := ih h
        refine ⟨List.nodup_cons.mpr ⟨fun hmem => hnot l hmem List.mem_cons_self, hnodup⟩, ?_⟩
        intro l' hl'
        rcases List.mem_cons.mp hl' with rfl | hl'
        · simpa using hl
        · exact fun hs => hnot l' hl' (List.mem_cons_of_mem _ hs)

/-- A select statement has the parts of its context, and all of its aliases are different. -/
theorem select_ok {c : Context} {condition : Expr Placeholder}
    {order : List (OrderTerm Placeholder)} {limit offset : Option Placeholder}
    {s : Select Placeholder} (h : c.select condition order limit offset = .ok s) :
    repeatedAlias? [c.label] ((c.joins.map OwnedJoin.join).map Join.label) = none ∧
      s = ⟨none, c.selectItems, some ⟨c.table.name, c.label⟩, c.joins.map OwnedJoin.join, condition,
        order, limit, offset⟩ := by
  rw [select] at h
  split at h
  · cases h
  · rename_i hrep
    cases h
    exact ⟨hrep, rfl⟩

/-- A select statement has no two joins under one alias. -/
theorem not_clash_of_select {c : Context} {condition : Expr Placeholder}
    {order : List (OrderTerm Placeholder)} {limit offset : Option Placeholder}
    {s : Select Placeholder} (h : c.select condition order limit offset = .ok s) :
    ¬ Clash c.joins := by
  rintro ⟨j, hj, k, hk, hl, hne⟩
  have hnodup := (nodup_of_repeatedAlias? (select_ok h).1).1
  rw [List.map_map] at hnodup
  have hjk := List.inj_on_of_nodup_map hnodup hj hk hl
  exact hne (by rw [hjk])

theorem same_joined {π : Type} [DecidableEq π] {f : Placeholder → π} {k j : OwnedJoin}
    (h : k.join.map f = j.join.map f ↔
      k.join.map Placeholder.index = j.join.map Placeholder.index) :
    (k.joined f).same (j.joined f) = k.same j := by
  have hb : (k.join.map f).beq (j.join.map f) =
      (k.join.map Placeholder.index).beq (j.join.map Placeholder.index) := by
    rw [Bool.eq_iff_iff, Join.beq_iff, Join.beq_iff, h]
  exact congrArg (_ && ·) hb

/-- Placeholders among the same values that have the same numbers have the same values. -/
theorem map_value_eq_of_map_index_eq {vs : List Param} {j k : Join Placeholder}
    (hj : ∀ p ∈ j.bounds, p.At vs) (hk : ∀ p ∈ k.bounds, p.At vs)
    (h : k.map Placeholder.index = j.map Placeholder.index) :
    k.map Placeholder.value = j.map Placeholder.value := by
  have look : ∀ i : Join Placeholder, (∀ p ∈ i.bounds, p.At vs) →
      i.map Placeholder.value =
        (i.map Placeholder.index).map fun n => (vs[n - 1]?).getD .null := by
    intro i hi
    rw [Join.map_map]
    refine Join.map_congr fun p hp => ?_
    simp [(hi p hp).2]
  rw [look k hk, look j hj, h]

/-- Under values, the same joins are left out as under numbers: a join that is the same only by
its values would clash. -/
theorem joined_value_mergeJoins (vs : List Param) {joins more : List OwnedJoin}
    (hat : ∀ j ∈ joins ++ more, ∀ p ∈ j.join.bounds, p.At vs)
    (hc : ¬ Clash (mergeJoins joins more)) :
    (mergeJoins joins more).map (OwnedJoin.joined Placeholder.value) =
      Joined.merge (joins.map (OwnedJoin.joined Placeholder.value))
        (more.map (OwnedJoin.joined Placeholder.value)) := by
  induction more generalizing joins with
  | nil => rfl
  | cons j more ih =>
      have hsame : ∀ k ∈ joins,
          (k.joined Placeholder.value).same (j.joined Placeholder.value) = k.same j := by
        intro k hk
        refine same_joined ⟨fun hv => ?_, fun hi => ?_⟩
        -- the join that is kept for `j` has the alias of `k`, but is another one
        · by_contra hne
          obtain ⟨i, hi, hij⟩ := exists_mem_mergeJoins joins (List.mem_cons_self (a := j))
          refine hc ⟨k, (prefix_mergeJoins joins _).subset hk, i, hi, ?_, ?_⟩
          · rw [label_eq_of_map_eq hij, label_eq_of_map_eq hv]
          · rwa [hij]
        · exact map_value_eq_of_map_index_eq (hat j (by simp)) (hat k (by simp [hk])) hi
      have hany : ((joins.map (OwnedJoin.joined Placeholder.value)).any fun k =>
          k.same (j.joined Placeholder.value)) = joins.any fun k => k.same j := by
        rw [List.any_map, Bool.eq_iff_iff, List.any_eq_true, List.any_eq_true]
        refine exists_congr fun k => and_congr_right fun hk => ?_
        rw [Function.comp_apply, hsame k hk]
      simp only [mergeJoins, List.map_cons, Joined.merge, hany] at hc ⊢
      split
      · rename_i h
        rw [if_pos h] at hc
        refine ih (fun i hi => hat i ?_) hc
        grind
      · rename_i h
        rw [if_neg h] at hc
        have := ih (fun i hi => hat i (by simpa using hi)) hc
        rw [this, List.map_append, List.map_singleton]

theorem Accounts.scope_folded {F : Frame} {c child : Context} {pending : List Placeholder}
    (h : c.Accounts F pending)
    (hchild : child.Accounts ⟨F.base ++ c.arguments.values, F.args, true⟩ []) {name : String}
    (hc : ¬ Clash (c.folded child name).joins) :
    (c.folded child name).scope Placeholder.value =
      (c.scope Placeholder.value).aggregate (child.scope Placeholder.value) name := by
  refine scope_folded_of _ _ _ _ (joined_value_mergeJoins
    (F.base ++ c.arguments.values ++ child.arguments.values) ?_ hc)
  intro j hj p hp
  rcases List.mem_append.mp hj with hj | hj
  · refine (h.covers.sound p ?_).append _
    simp only [bounds, List.mem_append, List.mem_flatMap]
    exact .inl (.inr ⟨j, hj, hp⟩)
  · refine hchild.covers.sound p ?_
    simp only [bounds, List.mem_append, List.mem_flatMap]
    exact .inl (.inr ⟨j, hj, hp⟩)

end Context

end ShapedQuery
