import ShapedQuery.Proofs.Simulation
import ShapedQuery.Proofs.Steps

/-! # What compiling adds

While a fragment is compiled its context only grows: joins are added at the end, each under the
next alias of the sequence, and the rest of what says where the context stands stays the same
(`Work.Grows`).  A nested context that has grown can be folded back without fail, and the outer
context has then grown in the same sense (`Work.Grows.fold`). -/

namespace ShapedQuery

/-! ### Aliases in the order they were drawn -/

/-- The labels are those drawn at some of the places from `lo` up to `hi`, in order. -/
def Numbered (name : Nat → String) (lo hi : Nat) (labels : List String) : Prop :=
  ∃ places : List Nat, places.Pairwise (· < ·) ∧ (∀ k ∈ places, lo ≤ k ∧ k < hi) ∧
    labels = places.map name

namespace Numbered

variable {name : Nat → String} {lo mid hi : Nat} {labels labels' : List String}

theorem nil : Numbered name lo hi [] := ⟨[], List.Pairwise.nil, nofun, rfl⟩

theorem next (n : Nat) : Numbered name n (n + 1) [name n] := by
  refine ⟨[n], List.pairwise_singleton _ _, fun k hk => ?_, rfl⟩
  rw [List.mem_singleton.mp hk]
  omega

theorem append (h : Numbered name lo mid labels) (h' : Numbered name mid hi labels')
    (hlo : lo ≤ mid) (hhi : mid ≤ hi) : Numbered name lo hi (labels ++ labels') := by
  obtain ⟨ks, hks, hrange, rfl⟩ := h
  obtain ⟨ks', hks', hrange', rfl⟩ := h'
  refine ⟨ks ++ ks', List.pairwise_append.mpr ⟨hks, hks', ?_⟩, ?_, List.map_append.symm⟩
  · intro a ha b hb
    have h₁ := hrange a ha
    have h₂ := hrange' b hb
    omega
  · intro k hk
    rcases List.mem_append.mp hk with hk | hk
    · have h₁ := hrange k hk
      omega
    · have h₂ := hrange' k hk
      omega

theorem sublist (h : Numbered name lo hi labels) (hs : labels'.Sublist labels) :
    Numbered name lo hi labels' := by
  obtain ⟨ks, hks, hrange, rfl⟩ := h
  obtain ⟨ks', hsub, rfl⟩ := List.sublist_map_iff.mp hs
  exact ⟨ks', hks.sublist hsub, fun k hk => hrange k (hsub.subset hk), rfl⟩

end Numbered

/-- The aliases of joins. -/
abbrev OwnedJoin.labels (joins : List OwnedJoin) : List String := joins.map fun j => j.join.label

/-! ### Growth -/

/-- What says where a context stands. -/
structure Context.SamePlace (c c' : Context) : Prop where
  table : c'.table = c.table
  label : c'.label = c.label
  nested : c'.nested = c.nested
  userTable : c'.currentUserTable = c.currentUserTable
  userJoined : c'.currentUserJoined = c.currentUserJoined
  offset : c'.arguments.offset = c.arguments.offset

namespace Context

variable {c c' c'' : Context}

theorem SamePlace.refl (c : Context) : c.SamePlace c := ⟨rfl, rfl, rfl, rfl, rfl, rfl⟩

theorem SamePlace.trans (h : c.SamePlace c') (h' : c'.SamePlace c'') : c.SamePlace c'' where
  table := h'.table.trans h.table
  label := h'.label.trans h.label
  nested := h'.nested.trans h.nested
  userTable := h'.userTable.trans h.userTable
  userJoined := h'.userJoined.trans h.userJoined
  offset := h'.offset.trans h.offset

theorem samePlace_addColumn (name : String) : c.SamePlace (c.addColumn name) :=
  ⟨rfl, rfl, rfl, rfl, rfl, rfl⟩

theorem samePlace_addNamed (name : String) (e : Expr Placeholder) :
    c.SamePlace (c.addNamed name e) :=
  ⟨rfl, rfl, rfl, rfl, rfl, rfl⟩

theorem samePlace_addRow : c.SamePlace c.addRow := ⟨rfl, rfl, rfl, rfl, rfl, rfl⟩

theorem samePlace_foldl_addColumn (names : List String) :
    c.SamePlace (names.foldl addColumn c) := by
  induction names generalizing c with
  | nil => exact .refl c
  | cons name names ih =>
      have hfirst : c.SamePlace (c.addColumn name) := ⟨rfl, rfl, rfl, rfl, rfl, rfl⟩
      exact hfirst.trans ih

theorem joins_foldl_addColumn (names : List String) :
    (names.foldl addColumn c).joins = c.joins := by
  induction names generalizing c with
  | nil => rfl
  | cons name names ih => exact ih

end Context

/-- Only values were bound. -/
structure Work.Binds (w w' : Work) : Prop where
  place : w.context.SamePlace w'.context
  wholeRow : w'.context.wholeRow = w.context.wholeRow
  projections : w'.context.projections = w.context.projections
  joins : w'.context.joins = w.context.joins
  aliases : w'.aliases = w.aliases
  dropped : w'.dropped = w.dropped

namespace Work.Binds

variable {w w' w'' : Work}

theorem refl (w : Work) : w.Binds w := ⟨.refl _, rfl, rfl, rfl, rfl, rfl⟩

theorem trans (h : w.Binds w') (h' : w'.Binds w'') : w.Binds w'' where
  place := h.place.trans h'.place
  wholeRow := h'.wholeRow.trans h.wholeRow
  projections := h'.projections.trans h.projections
  joins := h'.joins.trans h.joins
  aliases := h'.aliases.trans h.aliases
  dropped := h'.dropped.trans h.dropped

theorem bind (w : Work) (value : Param) : w.Binds { w with context := (w.context.bind value).2 } :=
  ⟨⟨rfl, rfl, rfl, rfl, rfl, rfl⟩, rfl, rfl, rfl, rfl, rfl⟩

theorem resolverArg (w : Work) (name : String) :
    w.Binds { w with context := (w.context.resolverArg name).2 } := by
  unfold Context.resolverArg
  split
  · exact refl w
  · split
    · exact refl w
    · exact ⟨⟨rfl, rfl, rfl, rfl, rfl, rfl⟩, rfl, rfl, rfl, rfl, rfl⟩

end Work.Binds

/-- The context stands where it stood, and joins were added to it under new aliases. -/
structure Work.Grows (w w' : Work) : Prop where
  place : w.context.SamePlace w'.context
  names : w'.aliases.name = w.aliases.name
  drawn : w.aliases.drawn ≤ w'.aliases.drawn
  joins : ∃ added, w'.context.joins = w.context.joins ++ added ∧
    Numbered w.aliases.name w.aliases.drawn w'.aliases.drawn (OwnedJoin.labels added)

namespace Work.Grows

variable {w w' w'' : Work}

/-- Growth without joins. -/
theorem of_context {c : Context} (place : w.context.SamePlace c) (joins : c.joins = w.context.joins)
    (dropped : List Dropped) : w.Grows ⟨c, w.aliases, dropped⟩ where
  place := place
  names := rfl
  drawn := Nat.le_refl _
  joins := ⟨[], by rw [joins, List.append_nil], Numbered.nil⟩

theorem refl (w : Work) : w.Grows w := of_context (.refl _) rfl _

theorem trans (h : w.Grows w') (h' : w'.Grows w'') : w.Grows w'' where
  place := h.place.trans h'.place
  names := h'.names.trans h.names
  drawn := Nat.le_trans h.drawn h'.drawn
  joins := by
    obtain ⟨added, he, hn⟩ := h.joins
    obtain ⟨added', he', hn'⟩ := h'.joins
    rw [h.names] at hn'
    refine ⟨added ++ added', by rw [he', he, List.append_assoc], ?_⟩
    rw [OwnedJoin.labels, List.map_append]
    exact hn.append hn' h.drawn h'.drawn

theorem of_binds (h : w.Binds w') : w.Grows w' where
  place := h.place
  names := by rw [h.aliases]
  drawn := Nat.le_of_eq (by rw [h.aliases])
  joins := ⟨[], by rw [h.joins, List.append_nil], Numbered.nil⟩

/-- No join gets lost. -/
theorem mem_joins (h : w.Grows w') {j : OwnedJoin} (hj : j ∈ w.context.joins) :
    j ∈ w'.context.joins := by
  obtain ⟨added, he, -⟩ := h.joins
  rw [he]
  exact List.mem_append_left _ hj

/-- A join is added under the next alias. -/
theorem addJoin {j : OwnedJoin} (h : Work.Binds ⟨w.context, w.aliases.next.2, w.dropped⟩ w')
    (hlabel : j.join.label = w.aliases.next.1) :
    w.Grows { w' with context := { w'.context with joins := w'.context.joins ++ [j] } } where
  place := ⟨h.place.table, h.place.label, h.place.nested, h.place.userTable, h.place.userJoined,
    h.place.offset⟩
  names := by
    rw [h.aliases]
    rfl
  drawn := by
    rw [h.aliases]
    exact Nat.le_succ _
  joins := by
    refine ⟨[j], by rw [h.joins], ?_⟩
    rw [h.aliases, OwnedJoin.labels, List.map_singleton, hlabel]
    exact Numbered.next w.aliases.drawn

/-- A context nested in that of `w` and compiled to `wc` can be folded back. -/
theorem fold {table : NamedTable} {label : String} {wc : Work}
    (h : Work.Grows ⟨w.context.child table label, w.aliases, w.dropped⟩ wc) (name : String) :
    Compile.aggregate wc.context name { wc with context := w.context } =
      .ok () { wc with context := w.context.folded wc.context name } ∧
    w.Grows { wc with context := w.context.folded wc.context name } := by
  constructor
  · have hoffset : wc.context.arguments.offset = w.context.arguments.size := h.place.offset
    rw [Compile.aggregate, Context.aggregate_eq, if_pos hoffset]
  · obtain ⟨added, he, hn⟩ := h.joins
    obtain ⟨kept, hk, hs, -⟩ := Context.mergeJoins_eq_append w.context.joins wc.context.joins
    rw [show wc.context.joins = added from he] at hs
    exact ⟨⟨rfl, rfl, rfl, rfl, rfl, rfl⟩, h.names, h.drawn, kept, hk, hn.sublist (hs.map _)⟩

end Work.Grows

end ShapedQuery
