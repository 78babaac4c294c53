import ShapedQuery.Proofs.OutputShape
import ShapedQuery.Proofs.References

/-! # Compiling gives the output its shape

While a fragment is compiled, entries are added to what the context shows and fields are noted that
are left out (`Work.Adds`).  Each step adds what its selection asks for, so the output of a compiled
fragment has the shape that is described by `Shaped`, and what is left out is `Demand.dropped`. -/

namespace ShapedQuery

/-! ### What a context shows -/

/-- The key and the value of an item of the select list. -/
def SelectItem.pair? : SelectItem Placeholder → Option (String × Expr Placeholder)
  | .star _ => none
  | .column (.bare _) => none
  | .column (.qualified label name) => some (name, .columnOf label name)
  | .named e name => some (name, e)

def Projection.pair? : Projection → Option (String × Expr Placeholder)
  | .item i => i.pair?
  | .field key e => some (key, e)

namespace Context

variable (c : Context)

/-- What a context shows. -/
def output : Output where
  row := if c.wholeRow then some c.label else none
  entries := c.projections.filterMap Projection.pair?

/-- A join binds an alias to a table. -/
def Joins (label table : String) : Prop :=
  ∃ j ∈ c.joins, j.join.label = label ∧ j.join.table = table

/-- Every projection is of the kind that the context shows, and joins are those asked for. -/
structure Tidy : Prop where
  shown : ∀ p ∈ c.projections, p.isField = c.nested ∧ p.pair?.isSome = true
  specs : ∀ j ∈ c.joins, ∀ spec, j.spec = some spec → j.join.table = spec.table

theorem pair?_fieldProjection (name : String) :
    (c.fieldProjection name).pair? = some (name, .columnOf c.label name) := by
  unfold fieldProjection
  split <;> rfl

theorem pair?_namedProjection (name : String) (e : Expr Placeholder) :
    (c.namedProjection name e).pair? = some (name, e) := by
  unfold namedProjection
  split <;> rfl

theorem entries_addColumn (name : String) : (c.addColumn name).output.entries =
    c.output.entries ++ [(name, .columnOf c.label name)] := by
  show (c.projections ++ [c.fieldProjection name]).filterMap Projection.pair? = _
  rw [List.filterMap_append, List.filterMap_cons_some (pair?_fieldProjection c name)]
  rfl

theorem entries_addNamed (name : String) (e : Expr Placeholder) :
    (c.addNamed name e).output.entries = c.output.entries ++ [(name, e)] := by
  show (c.projections ++ [c.namedProjection name e]).filterMap Projection.pair? = _
  rw [List.filterMap_append, List.filterMap_cons_some (pair?_namedProjection c name e)]
  rfl

variable {c}

theorem Tidy.addProjection (h : c.Tidy) {p : Projection} (hfield : p.isField = c.nested)
    (hentry : p.pair?.isSome = true) : Tidy { c with projections := c.projections ++ [p] } where
  shown := List.forall_mem_append.mpr ⟨h.shown, List.forall_mem_singleton.mpr ⟨hfield, hentry⟩⟩
  specs := h.specs

theorem Tidy.addColumn (h : c.Tidy) (name : String) : (c.addColumn name).Tidy := by
  refine h.addProjection (isField_fieldProjection ..) ?_
  rw [pair?_fieldProjection]
  rfl

theorem Tidy.addNamed (h : c.Tidy) (name : String) (e : Expr Placeholder) :
    (c.addNamed name e).Tidy := by
  refine h.addProjection (isField_namedProjection ..) ?_
  rw [pair?_namedProjection]
  rfl

/-- A nested context becomes the object that it shows. -/
theorem Tidy.relatedRow_eq (h : c.Tidy) (hnested : c.nested = true) :
    c.relatedRow = .relatedRow c.label primaryKey c.output.row c.output.entries := by
  have hfields : c.objectFields = c.output.entries := by
    refine List.filterMap_congr fun p hp => ?_
    have hfield := (h.shown p hp).1
    rw [hnested] at hfield
    cases p with
    | item i => cases hfield
    | field key e => rfl
  rw [relatedRow, hfields]
  rfl

/-- The context of a select statement becomes the list of what it shows. -/
theorem Tidy.selectItems_eq (h : c.Tidy) (hnested : c.nested = false) :
    ∃ rest, c.selectItems = c.output.row.toList.map .star ++ rest ∧
      rest.map SelectItem.pair? = c.output.entries.map some := by
  have hrow : (if c.wholeRow then [.star c.label] else [] : List (SelectItem Placeholder)) =
      c.output.row.toList.map .star := by
    unfold output
    cases c.wholeRow <;> rfl
  refine ⟨_, congrArg (· ++ _) hrow, ?_⟩
  have hshown := h.shown
  unfold output
  dsimp only
  generalize c.projections = ps at hshown
  induction ps with
  | nil => rfl
  | cons p ps ih =>
      rw [List.forall_mem_cons] at hshown
      obtain ⟨⟨hfield, hentry⟩, hrest⟩ := hshown
      rw [hnested] at hfield
      cases p with
      | field key e => cases hfield
      | item i =>
          obtain ⟨entry, he⟩ := Option.isSome_iff_exists.mp hentry
          rw [List.filterMap_cons_some he, List.map_cons, ← ih hrest, ← he]
          rfl

end Context

/-! ### Steps that add something -/

/-- Entries were added to what is shown, and fields to those left out. -/
structure Work.Adds (w w' : Work) (es : List (String × Expr Placeholder)) (ds : List Dropped) :
    Prop where
  grows : w.Grows w'
  tidy : w'.context.Tidy
  wholeRow : w'.context.wholeRow = w.context.wholeRow
  entries : w'.context.output.entries = w.context.output.entries ++ es
  dropped : w'.dropped = w.dropped ++ ds

namespace Work.Adds

variable {w w' w'' : Work} {es es' : List (String × Expr Placeholder)} {ds ds' : List Dropped}

theorem refl (h : w.context.Tidy) : w.Adds w [] [] :=
  ⟨.refl w, h, rfl, (List.append_nil _).symm, (List.append_nil _).symm⟩

theorem trans (h : w.Adds w' es ds) (h' : w'.Adds w'' es' ds') :
    w.Adds w'' (es ++ es') (ds ++ ds') where
  grows := h.grows.trans h'.grows
  tidy := h'.tidy
  wholeRow := h'.wholeRow.trans h.wholeRow
  entries := by rw [h'.entries, h.entries, List.append_assoc]
  dropped := by rw [h'.dropped, h.dropped, List.append_assoc]

theorem of_binds (h : w.context.Tidy) (hb : w.Binds w') : w.Adds w' [] [] where
  grows := .of_binds hb
  tidy := by
    refine ⟨?_, ?_⟩
    · rw [hb.projections, hb.place.nested]
      exact h.shown
    · rw [hb.joins]
      exact h.specs
  wholeRow := hb.wholeRow
  entries := by
    rw [List.append_nil]
    exact congrArg (List.filterMap _) hb.projections
  dropped := by rw [hb.dropped, List.append_nil]

theorem addColumn (h : w.context.Tidy) (name : String) :
    w.Adds { w with context := w.context.addColumn name }
      [(name, .columnOf w.context.label name)] [] where
  grows := .of_context (Context.samePlace_addColumn name) rfl _
  tidy := h.addColumn name
  wholeRow := rfl
  entries := w.context.entries_addColumn name
  dropped := (List.append_nil _).symm

theorem addNamed (h : w.context.Tidy) (name : String) (e : Expr Placeholder) :
    w.Adds { w with context := w.context.addNamed name e } [(name, e)] [] where
  grows := .of_context (Context.samePlace_addNamed name e) rfl _
  tidy := h.addNamed name e
  wholeRow := rfl
  entries := w.context.entries_addNamed name e
  dropped := (List.append_nil _).symm

theorem drop (h : w.context.Tidy) (d : Dropped) :
    w.Adds { w with dropped := w.dropped ++ [d] } [] [d] where
  grows := .of_context (.refl _) rfl _
  tidy := h
  wholeRow := rfl
  entries := (List.append_nil _).symm
  dropped := rfl

end Work.Adds

theorem Work.Grows.joins_mono {w w' : Work} (h : w.Grows w') {label table : String}
    (hj : w.context.Joins label table) : w'.context.Joins label table := by
  obtain ⟨j, hmem, hl, ht⟩ := hj
  exact ⟨j, h.mem_joins hmem, hl, ht⟩

namespace Compile

variable {w : Work}

/-- A step that ends with `Q` unless it fails. -/
abbrev Leads {α : Type} (x : Compile α) (w : Work) (Q : α → Work → Prop) : Prop :=
  Meets x w (fun _ => True) Q

/-- Something is looked up and used; it does not matter why it may be missing. -/
theorem leads_lookup {α β : Type} {r : Except QueryError α} {k : α → Compile β}
    {Q : β → Work → Prop} (h : ∀ a, r = .ok a → Leads (k a) w Q) : Leads (ofExcept r >>= k) w Q :=
  meets_lookup h fun _ _ => trivial

theorem joinOperand_binds (o : JoinOperand) : Leads (joinOperand o) w fun _ w' => w.Binds w' := by
  cases o with
  | column name => exact Meets.get (leads_lookup fun _ _ => Meets.pure (.refl w))
  | currentUserColumn name =>
      exact Meets.get (meets_ofExcept (fun _ _ => .refl w) fun _ _ => trivial)
  | resolverArg name => exact Work.Binds.resolverArg w name
  | value j => exact Work.Binds.bind w _

theorem joinConditions_binds (label : String) (on : Entries JoinOperand) :
    Leads (joinConditions label on) w fun _ w' => w.Binds w' := by
  induction on generalizing w with
  | nil => exact Meets.pure (.refl w)
  | cons entry on ih =>
      obtain ⟨column, operand⟩ := entry
      refine Meets.bind ((joinOperand_binds operand).mono fun _ w₁ h₁ => ?_)
      exact Meets.bind (ih.mono fun _ w₂ h₂ => Meets.pure (h₁.trans h₂))

theorem addJoin_adds (ht : w.context.Tidy) (spec : JoinSpec) :
    Leads (addJoin spec) w fun label w' =>
      w.Adds w' [] [] ∧ w'.context.Joins label spec.table := by
  unfold addJoin
  refine Meets.get ?_
  dsimp only
  split
  · rename_i j hj
    have hmem := List.mem_of_find?_eq_some hj
    have hserves := List.find?_some hj
    obtain ⟨spec', hsome, htable⟩ := OwnedJoin.exists_spec_of_serves hserves
    refine Meets.pure ⟨.refl ht, j, hmem, rfl, ?_⟩
    rw [ht.specs j hmem spec' hsome, htable]
  · refine Meets.bind ?_
    have hconditions := joinConditions_binds (w := ⟨w.context, w.aliases.next.2, w.dropped⟩)
      w.aliases.next.1 spec.on
    refine Meets.bind (hconditions.mono fun on w₁ hb => ?_)
    refine Meets.bind (meets_modifyContext (Meets.pure ⟨?_, ?_⟩))
    · have htidy := (Work.Adds.of_binds (w := ⟨w.context, w.aliases.next.2, w.dropped⟩) ht hb)
      refine ⟨.addJoin hb rfl, ⟨htidy.tidy.shown, ?_⟩, htidy.wholeRow, htidy.entries, htidy.dropped⟩
      refine List.forall_mem_append.mpr ⟨htidy.tidy.specs, List.forall_mem_singleton.mpr ?_⟩
      intro spec' hspec'
      cases hspec'
      rfl
    · exact ⟨_, List.mem_append_right _ (List.mem_singleton_self _), rfl, rfl⟩

mutual

/-- Computing a field shows nothing by itself. -/
theorem computed_adds : ∀ {w : Work} (e : Computed), w.context.Tidy →
    Leads (computed e) w fun _ w' => w.Adds w' [] []
  | _, .column name, ht => (joinOperand_binds (.column name)).mono fun _ _ => .of_binds ht
  | _, .currentUserColumn name, ht =>
      (joinOperand_binds (.currentUserColumn name)).mono fun _ _ => .of_binds ht
  | _, .resolverArg name, ht => (joinOperand_binds (.resolverArg name)).mono fun _ _ => .of_binds ht
  | _, .value j, ht => (joinOperand_binds (.value j)).mono fun _ _ => .of_binds ht
  | _, .joinedColumn join _, ht =>
      Meets.bind ((addJoin_adds ht join).mono fun _ _ h => Meets.pure h.1)
  | _, .joinedRow join, ht =>
      Meets.bind ((addJoin_adds ht join).mono fun _ _ h => Meets.pure h.1)
  | _, .call _ arguments, ht =>
      leads_lookup fun _ _ =>
        Meets.bind ((computedAll_adds arguments ht).mono fun _ _ h => Meets.pure h)
  | _, .binary left _ right, ht => by
      refine Meets.bind ((computed_adds left ht).mono fun _ w₁ h₁ => ?_)
      exact Meets.bind ((computed_adds right h₁.tidy).mono fun _ w₂ h₂ => Meets.pure (h₁.trans h₂))
  | _, .isNull e, ht => Meets.bind ((computed_adds e ht).mono fun _ _ h => Meets.pure h)

theorem computedAll_adds : ∀ {w : Work} (es : List Computed), w.context.Tidy →
    Leads (computedAll es) w fun _ w' => w.Adds w' [] []
  | _, [], ht => Meets.pure (.refl ht)
  | _, e :: es, ht => by
      refine Meets.bind ((computed_adds e ht).mono fun _ w₁ h₁ => ?_)
      exact Meets.bind ((computedAll_adds es h₁.tidy).mono fun _ w₂ h₂ => Meets.pure (h₁.trans h₂))

end

/-! ### The row that comes first -/

/-- Nothing is shown yet. -/
structure Blank (c : Context) : Prop where
  projections : c.projections = []
  wholeRow : c.wholeRow = false

theorem Blank.entries {c : Context} (h : Blank c) : c.output.entries = [] := by
  show c.projections.filterMap _ = []
  rw [h.projections]
  rfl

/-- Columns under their own names. -/
abbrev columnEntries (label : String) (names : List String) : List (String × Expr Placeholder) :=
  names.map fun name => (name, .columnOf label name)

theorem entries_foldl_addColumn (names : List String) {c : Context} (ht : c.Tidy) :
    (names.foldl Context.addColumn c).Tidy ∧
      (names.foldl Context.addColumn c).wholeRow = c.wholeRow ∧
      (names.foldl Context.addColumn c).output.entries =
        c.output.entries ++ columnEntries c.label names := by
  induction names generalizing c with
  | nil => exact ⟨ht, rfl, (List.append_nil _).symm⟩
  | cons name names ih =>
      obtain ⟨htidy, hrow, hentries⟩ := ih (ht.addColumn name)
      refine ⟨htidy, hrow, ?_⟩
      rw [List.foldl_cons, hentries, Context.entries_addColumn, List.append_assoc]
      rfl

/-- The row that comes first shows the whole row or the key, and if asked all readable columns. -/
structure BaseRow (env : Env) (c : Context) (names : List String) (c' : Context) : Prop where
  place : c.SamePlace c'
  joins : c'.joins = c.joins
  tidy : c'.Tidy
  wholeRow : c'.wholeRow = readsWholeRow env c.table.table
  entries : c'.output.entries = columnEntries c.label names

variable {env : Env}

theorem baseRow_key (env : Env) {c : Context} (hb : Blank c) (ht : c.Tidy) :
    (baseRow env false c).1 = readsWholeRow env c.table.table ∧
      BaseRow env c (if readsWholeRow env c.table.table then [] else [primaryKey])
        (baseRow env false c).2 := by
  have hnone := hb.entries
  unfold baseRow
  cases hwhole : readsWholeRow env c.table.table with
  | true =>
      exact ⟨rfl, Context.samePlace_addRow, rfl, ⟨ht.shown, ht.specs⟩, hwhole.symm, hnone⟩
  | false =>
      refine ⟨rfl, Context.samePlace_addColumn _, rfl, ht.addColumn primaryKey, ?_, ?_⟩
      · rw [hwhole]
        exact hb.wholeRow
      · exact (c.entries_addColumn primaryKey).trans (by rw [hnone]; rfl)

/-- Without the whole row, the key comes first and then the other columns that may be read. -/
theorem baseRow_all (env : Env) {c : Context} (hb : Blank c) (ht : c.Tidy) :
    BaseRow env c (if readsWholeRow env c.table.table then []
      else primaryKey :: (readableColumns env c.table.table).filter fun name => name != primaryKey)
      (baseRow env true c).2 := by
  have hnone := hb.entries
  unfold baseRow
  cases hwhole : readsWholeRow env c.table.table with
  | true => exact ⟨Context.samePlace_addRow, rfl, ⟨ht.shown, ht.specs⟩, hwhole.symm, hnone⟩
  | false =>
      have hfirst := Context.samePlace_addColumn (c := c) primaryKey
      obtain ⟨htidy, hrow, hentries⟩ := entries_foldl_addColumn
        ((readableColumns env c.table.table).filter fun name => name != primaryKey)
        (ht.addColumn primaryKey)
      refine ⟨hfirst.trans (Context.samePlace_foldl_addColumn _), ?_, htidy, ?_, ?_⟩
      · exact Context.joins_foldl_addColumn _
      · rw [hwhole]
        exact hrow.trans hb.wholeRow
      · exact hentries.trans (by rw [Context.entries_addColumn, hnone]; rfl)

theorem baseRow_columns (env : Env) {c : Context} (hb : Blank c) (ht : c.Tidy)
    (hkeyed : c.table.table.Keyed) :
    BaseRow env c (Demand.columns.keys env c.table.table) (baseRow env true c).2 := by
  rw [Demand.keys_columns hkeyed, ← readsWholeRow_eq hkeyed]
  exact baseRow_all env hb ht

theorem BaseRow.row {c c' : Context} {names : List String} (h : BaseRow env c names c') :
    c'.output.row = if readsWholeRow env c.table.table then some c.label else none := by
  show (if c'.wholeRow then some c'.label else none) = _
  rw [h.wholeRow, h.place.label]

/-- The columns of the first row are entries as they should be. -/
theorem entryShaped_column {B : String → String → Prop}
    {below : Demand → String → String → Output → Prop} {t : Table} {d : Demand}
    {table label name : String} (h : (t.column? name).isSome = true) :
    EntryShaped env B below t d table label (name, .columnOf label name) := by
  obtain ⟨c, hc⟩ := Option.isSome_iff_exists.mp h
  unfold Table.column? at hc
  split at hc
  · rename_i c' rules hfield
    exact ⟨⟨.column c', rules⟩, hfield, rfl⟩
  · cases hc

/-! ### Related rows -/

/-- A nested context is folded back: its output becomes an entry, and its joins stay. -/
theorem aggregate_adds {w wc : Work} {table : NamedTable} {label : String} {ds : List Dropped}
    (ht : w.context.Tidy)
    (hg : Work.Grows ⟨w.context.child table label, w.aliases, w.dropped⟩ wc)
    (htc : wc.context.Tidy) (hd : wc.dropped = w.dropped ++ ds) (name : String) :
    Leads (aggregate wc.context name) { wc with context := w.context } fun _ w' =>
      w.Adds w' [(name, .relatedRow label primaryKey wc.context.output.row
        wc.context.output.entries)] ds ∧
      ∀ l n, wc.context.Joins l n → w'.context.Joins l n := by
  obtain ⟨hok, hgrows⟩ := hg.fold name
  have hlabel : wc.context.label = label := hg.place.label
  have hvalue := htc.relatedRow_eq hg.place.nested
  rw [hlabel] at hvalue
  unfold Leads Meets
  rw [hok]
  refine ⟨⟨hgrows, ⟨?_, ?_⟩, rfl, ?_, hd⟩, ?_⟩
  · exact (ht.addNamed name wc.context.relatedRow).shown
  · intro j hj
    rcases Context.mem_of_mem_mergeJoins hj with hj | hj
    · exact ht.specs j hj
    · exact htc.specs j hj
  · rw [← hvalue]
    exact w.context.entries_addNamed name wc.context.relatedRow
  · rintro l n ⟨j, hj, hl, hn⟩
    obtain ⟨k, hk, hsame⟩ := Context.exists_mem_mergeJoins w.context.joins hj
    have hkl : k.join.label = j.join.label := congrArg (fun i : Join Nat => i.label) hsame
    have hkn : k.join.table = j.join.table := congrArg (fun i : Join Nat => i.table) hsame
    exact ⟨k, hk, hkl.trans hl, hkn.trans hn⟩

/-- `nest` gives the output of a fragment its shape, with related rows down to a depth. -/
def NestShapes (env : Env) (depth : Nat) (nest : String → Fragment → Compile Unit) : Prop :=
  ∀ (name : String) (f : Fragment) (w : Work), Blank w.context → w.context.Tidy →
    env.metadata.tables.get? w.context.table.name = some w.context.table.table →
    Leads (nest name f) w fun _ w' => w.Grows w' ∧ w'.context.Tidy ∧
      Shaped env w'.context.Joins depth (.fields name f.selections) w.context.table.name
        w.context.label w'.context.output ∧
      w'.dropped =
        w.dropped ++ Demand.dropped env depth (.fields name f.selections) w.context.table.name

/-- The readable columns of a related row. -/
theorem shaped_columns {B : String → String → Prop} {c c' : Context} (hkeyed : c.table.table.Keyed)
    (ht : env.metadata.tables.get? c.table.name = some c.table.table)
    (h : BaseRow env c (Demand.columns.keys env c.table.table) c') (depth : Nat) :
    Shaped env B (depth + 1) .columns c.table.name c.label c'.output := by
  have hrow := h.row
  rw [readsWholeRow_eq hkeyed] at hrow
  refine ⟨c.table.table, ht, fits_of_entries hkeyed hkeyed.nodup_columnNames hrow ?_, ?_⟩
  · rw [h.entries, List.map_map]
    exact List.map_id _
  · intro entry hentry
    rw [h.entries] at hentry
    obtain ⟨name, hname, rfl⟩ := List.mem_map.mp hentry
    exact entryShaped_column (Demand.isSome_of_mem_keys_columns hkeyed hname)

section fragments

variable {nest : String → Fragment → Compile Unit} {depth : Nat}

theorem relation_adds (hm : env.metadata.Keyed) (hnest : NestShapes env (depth + 1) nest)
    (ht : w.context.Tidy) (selection : Selection) (join : JoinSpec) :
    Leads (relation env nest selection join) w fun _ w' => ∃ label o,
      w.Adds w' [(selection.name, .relatedRow label primaryKey o.row o.entries)]
        (Demand.dropped env (depth + 1) (selection.demand env.metadata) join.table) ∧
      w'.context.Joins label join.table ∧
      Shaped env w'.context.Joins (depth + 1) (selection.demand env.metadata) join.table label
        o := by
  refine Meets.bind ((addJoin_adds ht join).mono fun label w₁ h₁ => ?_)
  obtain ⟨ha₁, hj₁⟩ := h₁
  refine leads_lookup fun table htable => Meets.get ?_
  obtain ⟨hname, hget⟩ := Request.lookupTable_ok htable
  have hown : env.metadata.tables.get? table.name = some table.table := by
    rw [hname]
    exact hget
  have hblank : Blank (w₁.context.child table label) := ⟨rfl, rfl⟩
  have htidy : (w₁.context.child table label).Tidy := ⟨nofun, nofun⟩
  rw [← hname]
  cases selection with
  | field name =>
      have hbase := baseRow_columns env hblank htidy (hm _ _ hown)
      have hg : Work.Grows ⟨w₁.context.child table label, w₁.aliases, w₁.dropped⟩
          ⟨(baseRow env true (w₁.context.child table label)).2, w₁.aliases, w₁.dropped⟩ :=
        .of_context hbase.place hbase.joins _
      refine (aggregate_adds ha₁.tidy hg hbase.tidy (List.append_nil _).symm name).mono
        fun _ w₂ h₂ => ?_
      refine ⟨label, _, ha₁.trans h₂.1, ?_, shaped_columns (hm _ _ hown) hown hbase depth⟩
      rw [hname]
      exact h₂.1.grows.joins_mono hj₁
  | nested name fragmentName =>
      refine leads_lookup fun f hf => ?_
      refine Meets.ite (fun _ => Meets.bind (Meets.throw trivial)) fun _ => ?_
      refine Meets.bind (meets_inChild ?_)
      refine (hnest fragmentName f ⟨_, w₁.aliases, w₁.dropped⟩ hblank htidy hown).mono
        fun _ wc hc => ?_
      obtain ⟨hg, htc, hshaped, hdropped⟩ := hc
      refine (aggregate_adds ha₁.tidy hg htc hdropped name).mono fun _ w₂ h₂ => ?_
      have hdemand : (Selection.nested name fragmentName).demand env.metadata =
          .fields fragmentName f.selections := by
        rw [Selection.demand, Request.lookupFragment_ok hf]
      rw [hdemand]
      refine ⟨label, _, ha₁.trans h₂.1, ?_, hshaped.mono h₂.2⟩
      rw [hname]
      exact h₂.1.grows.joins_mono hj₁

/-- The selections with these names were answered, and `ds` was left out. -/
def Answers (env : Env) (depth : Nat) (t : NamedTable) (d : Demand) (w w' : Work)
    (names : List String) (ds : List Dropped) : Prop :=
  ∃ es, w.Adds w' es ds ∧ es.map Prod.fst = names.filter (t.table.shows env) ∧
    ∀ entry ∈ es, EntryShaped env w'.context.Joins (Shaped env w'.context.Joins depth) t.table d
      t.name w.context.label entry

theorem Answers.trans {t : NamedTable} {d : Demand} {w w' w'' : Work} {names names' : List String}
    {ds ds' : List Dropped} (h : Answers env depth t d w w' names ds)
    (h' : Answers env depth t d w' w'' names' ds') :
    Answers env depth t d w w'' (names ++ names') (ds ++ ds') := by
  obtain ⟨es, ha, hkeys, hentries⟩ := h
  obtain ⟨es', ha', hkeys', hentries'⟩ := h'
  refine ⟨es ++ es', ha.trans ha', ?_, List.forall_mem_append.mpr ⟨fun entry he => ?_, ?_⟩⟩
  · rw [List.map_append, hkeys, hkeys', List.filter_append]
  · have hjoins : ∀ l n, w'.context.Joins l n → w''.context.Joins l n :=
      fun _ _ => ha'.grows.joins_mono
    exact (hentries entry he).mono hjoins fun _ _ _ _ => Shaped.mono hjoins
  · rw [← ha.grows.place.label]
    exact hentries'

/-- A field that may be read is answered by an entry, unless it is there anyway. -/
theorem readableField_answers (hm : env.metadata.Keyed) (hnest : NestShapes env (depth + 1) nest)
    (ht : w.context.Tidy) {table : NamedTable} (htable : w.context.table = table)
    (hkeyed : table.table.Keyed) {d : Demand} {selection : Selection} {field : Field}
    (hfield : table.table.fields.get? selection.name = some field)
    (hread : canRead env.user field.rules = true)
    (hasks : d.Asks env.metadata selection.name (selection.demand env.metadata)) :
    Leads (readableField env nest (table.table.readsAll env.user) table.name selection field.kind) w
      fun _ w' => Answers env (depth + 1) table d w w' [selection.name]
        (FieldKind.dropped env (Demand.dropped env (depth + 1)) selection field.kind) := by
  cases hk : field.kind with
  | column c =>
      cases selection with
      | nested name fragment => exact trivial
      | field name =>
          have hshows := Table.shows_column hfield hread hk
          refine Meets.ite (fun hcond => meets_modifyContext ?_) fun hcond => Meets.pure ?_
          · refine ⟨[(name, .columnOf w.context.label name)], .addColumn ht name, ?_, ?_⟩
            · rw [List.filter_cons_of_pos (hshows.trans hcond)]
              rfl
            · have hcolumn := Table.column?_of_kind hfield hk
              exact List.forall_mem_singleton.mpr
                (entryShaped_column (Option.isSome_iff_exists.mpr ⟨c, hcolumn⟩))
          · refine ⟨[], .refl ht, ?_, List.forall_mem_nil _⟩
            rw [List.filter_cons_of_neg (by rw [hshows]; exact hcond)]
            rfl
  | computed e =>
      cases selection with
      | nested name fragment => exact trivial
      | field name =>
          have hshows := hkeyed.shows_other hfield hread fun c hc => by
            rw [hk] at hc
            cases hc
          refine Meets.bind ((computed_adds e ht).with_ok.mono fun a w₁ h₁ => ?_)
          obtain ⟨ha, hrun⟩ := h₁
          refine meets_modifyContext ⟨[(name, a)], ha.trans (.addNamed ha.tidy name a), ?_, ?_⟩
          · rw [List.filter_cons_of_pos hshows]
            rfl
          · refine List.forall_mem_singleton.mpr ⟨field, hfield, ?_⟩
            rw [hk]
            exact ⟨w, w₁, by rw [htable], rfl, hrun⟩
  | relation join =>
      have hshows := hkeyed.shows_other hfield hread fun c hc => by
            rw [hk] at hc
            cases hc
      have hrelation : Leads (relation env nest selection join) w fun _ w' =>
          Answers env (depth + 1) table d w w' [selection.name]
            (Demand.dropped env (depth + 1) (selection.demand env.metadata) join.table) := by
        refine (relation_adds hm hnest ht selection join).mono fun _ w' h => ?_
        obtain ⟨label, o, ha, hjoins, hshaped⟩ := h
        refine ⟨_, ha, ?_, List.forall_mem_singleton.mpr ⟨field, hfield, ?_⟩⟩
        · rw [List.filter_cons_of_pos hshows]
          rfl
        · rw [hk]
          exact ⟨_, label, o, hasks, hjoins, rfl, hshaped⟩
      cases selection <;> exact hrelation

/-- The selections of a fragment are answered one after the other, and none comes twice. -/
theorem selections_answers (hm : env.metadata.Keyed) (hnest : NestShapes env (depth + 1) nest)
    (fragment : String) {table : NamedTable}
    (hget : env.metadata.tables.get? table.name = some table.table) {d : Demand}
    (selections : List Selection) (ht : w.context.Tidy) (htable : w.context.table = table)
    (seen : List String)
    (hasks : ∀ s ∈ selections, d.Asks env.metadata s.name (s.demand env.metadata)) :
    Leads (Compile.selections env nest fragment (table.table.readsAll env.user) table seen
      selections) w fun _ w' =>
        Answers env (depth + 1) table d w w' (selections.map Selection.name)
          (selections.flatMap (Selection.dropped env (Demand.dropped env (depth + 1)) fragment
            table.name)) ∧
        (selections.map Selection.name).Nodup ∧ ∀ s ∈ selections, s.name ∉ seen := by
  induction selections generalizing w seen with
  | nil => exact Meets.pure ⟨⟨[], .refl ht, rfl, List.forall_mem_nil _⟩, List.nodup_nil,
      List.forall_mem_nil _⟩
  | cons s rest ih =>
      rw [List.forall_mem_cons] at hasks
      rw [Compile.selections]
      refine Meets.ite (fun _ => Meets.bind (Meets.throw trivial)) fun hseen => ?_
      refine leads_lookup fun field hlookup => ?_
      have hfield := Request.lookupField_ok hlookup
      have hdropped : Selection.dropped env (Demand.dropped env (depth + 1)) fragment table.name s =
          if canRead env.user field.rules then
            FieldKind.dropped env (Demand.dropped env (depth + 1)) s field.kind
          else [⟨fragment, table.name, s.name⟩] := by
        simp only [Selection.dropped, hget, Option.bind_some, hfield]
      -- the rest goes on from where the first selection ends
      have hrest : ∀ w₁, Answers env (depth + 1) table d w w₁ [s.name]
          (Selection.dropped env (Demand.dropped env (depth + 1)) fragment table.name s) →
          Leads (Compile.selections env nest fragment (table.table.readsAll env.user) table
            (s.name :: seen) rest) w₁ fun _ w' =>
              Answers env (depth + 1) table d w w' ((s :: rest).map Selection.name)
                ((s :: rest).flatMap (Selection.dropped env (Demand.dropped env (depth + 1))
                  fragment table.name)) ∧
              ((s :: rest).map Selection.name).Nodup ∧ ∀ s' ∈ s :: rest, s'.name ∉ seen := by
        intro w₁ h₁
        obtain ⟨es, ha, -⟩ := id h₁
        have ht₁ := ha.grows.place.table.trans htable
        refine (ih ha.tidy ht₁ (s.name :: seen) hasks.2).mono fun _ w₂ h₂ => ?_
        obtain ⟨hanswers, hnodup, hnew⟩ := h₂
        refine ⟨h₁.trans hanswers, List.nodup_cons.mpr ⟨fun hmem => ?_, hnodup⟩, ?_⟩
        · obtain ⟨s', hs', heq⟩ := List.mem_map.mp hmem
          exact hnew s' hs' (by rw [heq]; exact List.mem_cons_self)
        · refine List.forall_mem_cons.mpr ⟨by simpa using hseen, fun s' hs' hmem => ?_⟩
          exact hnew s' hs' (List.mem_cons_of_mem _ hmem)
      refine Meets.ite (fun hread => Meets.bind ?_) fun hread => Meets.bind (meets_drop ?_)
      · rw [if_pos hread] at hdropped
        rw [hdropped] at hrest
        exact (readableField_answers hm hnest ht htable (hm _ _ hget) hfield hread hasks.1).mono
          fun _ w₁ => hrest w₁
      · rw [if_neg hread] at hdropped
        rw [hdropped] at hrest
        refine hrest _ ⟨[], .drop ht _, ?_, List.forall_mem_nil _⟩
        · have hshows : ¬ table.table.shows env s.name = true := fun hshows => by
            have hreads := Table.reads_of_shows hshows
            rw [Table.reads_of_get? hfield] at hreads
            exact hread hreads
          rw [List.filter_cons_of_neg hshows]
          rfl

/-- The output of a compiled fragment, by induction over the room that is left for nesting. -/
theorem fragment_shapes (hm : env.metadata.Keyed) (room : Nat) (path : FragmentPath) :
    ∀ depth, room < depth → NestShapes env depth (fragment env room path) := by
  induction room generalizing path with
  | zero =>
      intro depth _ name f w hblank ht hget
      exact leads_lookup fun _ _ => Meets.throw trivial
  | succ room ih =>
      intro depth hdepth name f w hblank ht hget
      -- related rows are one level deeper, and there is one level at least
      obtain ⟨depth, rfl⟩ : ∃ k, depth = k + 2 := ⟨depth - 2, by omega⟩
      refine leads_lookup fun path' _ => ?_
      obtain ⟨hwhole, hbase⟩ := baseRow_key env hblank ht
      have hkeyed := hm _ _ hget
      rw [readsWholeRow_eq hkeyed] at hwhole hbase
      refine Meets.bind (meets_onContext (Meets.get ?_))
      dsimp only
      rw [hwhole]
      have hplace : (baseRow env false w.context).2.table = w.context.table := hbase.place.table
      rw [hplace]
      have hselections := selections_answers
        (w := { w with context := (baseRow env false w.context).2 })
        (d := .fields name f.selections) hm (ih path' (depth + 1) (by omega)) name hget
        f.selections hbase.tidy hplace [] fun s hs => ⟨s, hs, rfl, rfl⟩
      refine hselections.mono fun _ w₂ h₂ => ?_
      obtain ⟨⟨es, ha, hkeys, hentries⟩, hnodup, -⟩ := h₂
      have hg : w.Grows { w with context := (baseRow env false w.context).2 } :=
        .of_context hbase.place hbase.joins _
      have hlabel : w₂.context.label = w.context.label := (hg.trans ha.grows).place.label
      have hall := ha.entries
      rw [hbase.entries] at hall
      refine ⟨hg.trans ha.grows, ha.tidy, ⟨_, hget, fits_of_entries hkeyed hnodup ?_ ?_, ?_⟩, ?_⟩
      · show (if w₂.context.wholeRow then some w₂.context.label else none) = _
        rw [ha.wholeRow, hlabel, hbase.wholeRow, readsWholeRow_eq hkeyed]
      · rw [hall, List.map_append, hkeys, List.map_map, Demand.keys]
        exact congrArg (· ++ _) (List.map_id _)
      · rw [hall]
        refine List.forall_mem_append.mpr ⟨fun entry he => ?_, ?_⟩
        · obtain ⟨key, hkey, rfl⟩ := List.mem_map.mp he
          refine entryShaped_column ?_
          split at hkey
          · cases hkey
          · rw [List.mem_singleton.mp hkey]
            exact hkeyed.key
        · have hfirst : (baseRow env false w.context).2.label = w.context.label := hbase.place.label
          rw [← hfirst]
          exact hentries
      · exact ha.dropped

end fragments

end Compile

/-! ### The output of a request -/

/-- A select list shows an output: the whole row first, if at all, and then the entries. -/
def Select.Displays (s : Select Placeholder) (o : Output) : Prop :=
  ∃ rest, s.items = o.row.toList.map .star ++ rest ∧
    rest.map SelectItem.pair? = o.entries.map some

namespace Request

variable {env : Env} {r : Request}

theorem namedFragment_shapes (hm : env.metadata.Keyed) {f : Fragment} {table : NamedTable}
    (hf : env.metadata.lookupFragment r.fragment = .ok f)
    (ht : env.metadata.tables.get? table.name = some table.table) (aliases : Aliases) {depth : Nat}
    (hdepth : env.settings.maxFragmentDepth.toNat + 1 < depth) :
    Compile.Leads (Compile.namedFragment env r.fragment) (r.begun env table aliases) fun _ w =>
      (r.begun env table aliases).Grows w ∧ w.context.Tidy ∧
      Shaped env w.context.Joins depth (.fields r.fragment f.selections) table.name
        (rootAlias table.name) w.context.output ∧
      w.dropped = Demand.dropped env depth (.fields r.fragment f.selections) table.name := by
  unfold Compile.namedFragment
  rw [hf]
  refine Compile.leads_lookup fun f' hf' => ?_
  cases hf'
  have htidy : (r.begun env table aliases).context.Tidy :=
    ⟨nofun, List.forall_mem_singleton.mpr nofun⟩
  exact Compile.fragment_shapes hm _ _ depth hdepth r.fragment f _ ⟨rfl, rfl⟩ htidy ht

/-- A compiled request shows what its fragment leaves in the context: the columns and joins of the
context become those of the select, and no alias is bound twice. -/
theorem exists_fragment_run (hm : env.metadata.Keyed) {aliases : Aliases} {q : Query}
    (h : r.compile env aliases = .ok q) :
    ∃ f table w, env.metadata.lookupFragment r.fragment = .ok f ∧ table.name = f.table ∧
      env.metadata.tables.get? table.name = some table.table ∧
      Compile.namedFragment env r.fragment (r.begun env table aliases) = .ok () w ∧
      q.select.source = some ⟨table.name, rootAlias table.name⟩ ∧
      q.select.Displays w.context.output ∧ q.select.labels.Nodup ∧
      (∀ label name, w.context.Joins label name → q.select.Binds label name) ∧
      q.dropped = w.dropped := by
  obtain ⟨f, table, w', hf, ht, hrun, hdropped⟩ := exists_compileIn h
  obtain ⟨hname, hget⟩ := lookupTable_ok ht
  rw [← hname] at hget
  have hfragment := (namedFragment_shapes hm hf hget aliases (Nat.lt_succ_self _)).with_ok
  have hmeets := compileIn_meets
    (P := fun w => (r.begun env table aliases).Grows w ∧ w.context.Tidy ∧
      Compile.namedFragment env r.fragment (r.begun env table aliases) = .ok () w)
    (hfragment.mono fun _ w hw => ⟨hw.1.1.place.label, hw.1.1, hw.1.2.1, hw.2⟩)
    (fun _ _ _ _ => trivial) fun _ _ _ _ => trivial
  obtain ⟨w, ⟨hg, htidy, hcompiled⟩, hs, hsame⟩ := hmeets.of_ok hrun
  have hlabel : w.context.label = rootAlias table.name := hg.place.label
  have htable : w.context.table = table := hg.place.table
  obtain ⟨rest, hitems, hentries⟩ := htidy.selectItems_eq hg.place.nested
  refine ⟨f, table, w, hf, hname, hget, hcompiled, ?_, ⟨rest, hs.items.trans hitems, hentries⟩,
    labels_nodup_of_shows hs, fun _ _ hj => binds_of_shows hs (.inr hj), hdropped.trans hsame⟩
  rw [hs.source, htable, hlabel]

/-- **The output of a request.**  It is what the user gets who asks for the fields of the fragment,
at the root and in every related row, and the fields that are left out are those asked for that the
user may not read.  The depth of related rows is bounded by the settings; any larger bound will
do. -/
theorem compile_shaped (hm : env.metadata.Keyed) {aliases : Aliases} {q : Query}
    (h : r.compile env aliases = .ok q) :
    ∃ f label o, env.metadata.fragments.get? r.fragment = some f ∧
      q.select.source = some ⟨f.table, label⟩ ∧ q.select.Displays o ∧
      ∀ depth, env.settings.maxFragmentDepth.toNat + 1 < depth →
        Shaped env q.select.Binds depth (.fields r.fragment f.selections) f.table label o ∧
        q.dropped = Demand.dropped env depth (.fields r.fragment f.selections) f.table := by
  obtain ⟨f, table, w, hf, hname, hget, hrun, hsource, hdisplays, -, hbinds, hdropped⟩ :=
    exists_fragment_run hm h
  refine ⟨f, rootAlias table.name, w.context.output, lookupFragment_ok hf, ?_⟩
  rw [← hname]
  refine ⟨hsource, hdisplays, fun depth hdepth => ?_⟩
  obtain ⟨-, -, hshaped, hd⟩ := (namedFragment_shapes hm hf hget aliases hdepth).of_ok hrun
  exact ⟨hshaped.mono hbinds, hdropped.trans hd⟩

end Request

/-! ### A library to try

Books with a price for the staff and an author, who has an address for the staff. -/

namespace Sample

def staffColumn : Field := ⟨.column ⟨.scalar .text, false⟩, [.group "staff"]⟩

def books : Table where
  fields := [("_id", textColumn), ("title", textColumn), ("price", staffColumn),
    ("authorId", textColumn),
    ("author", ⟨.relation ⟨"People", .left, [("_id", .column "authorId")]⟩, []⟩)]
  indexes := []

def people : Table where
  fields := [("_id", textColumn), ("name", textColumn), ("address", staffColumn)]
  indexes := []

/-- The library as it is seen by someone who is logged out. -/
def libraryEnv : Env where
  metadata := ⟨[("Books", books), ("People", people)],
    [("Book", ⟨"Books", [.field "title", .field "price", .nested "author" "Author"]⟩),
      ("Author", ⟨"People", [.field "address", .field "name"]⟩)]⟩
  settings := .default
  user := none

/-- A librarian may read every column. -/
def librarian : User := ⟨"kim", ["staff"], false⟩

/-- The library as it is seen by a librarian. -/
def staffEnv : Env := { libraryEnv with user := some librarian }

def libraryRequest : Request := ⟨"Book", .filter [], [], none, none, none, []⟩

theorem keyed_library : libraryEnv.metadata.Keyed := by
  intro name t ht
  have hmem := Entries.mem_of_get? ht
  simp only [libraryEnv, List.mem_cons, List.not_mem_nil, or_false, Prod.mk.injEq] at hmem
  rcases hmem with ⟨-, rfl⟩ | ⟨-, rfl⟩
  · exact ⟨by decide, by decide⟩
  · exact ⟨by decide, by decide⟩

theorem compile_libraryRequest : ∃ q, libraryRequest.compile libraryEnv .sequential = .ok q ∧
    q.dropped = [⟨"Book", "Books", "price"⟩, ⟨"Author", "People", "address"⟩] := by
  have h : (libraryRequest.compile libraryEnv .sequential).toOption.map Query.dropped =
      some [⟨"Book", "Books", "price"⟩, ⟨"Author", "People", "address"⟩] := by decide +kernel
  exact exists_ok_of_map h

theorem compile_staffEnv : ∃ q, libraryRequest.compile staffEnv .sequential = .ok q ∧
    q.dropped = [] := by
  have h : (libraryRequest.compile staffEnv .sequential).toOption.map Query.dropped = some [] := by
    decide +kernel
  exact exists_ok_of_map h

end Sample

/-- Someone who is logged out is shown the key and single columns, a librarian the whole row. -/
theorem Request.compile_shaped_sample : Sample.libraryEnv.metadata.Keyed ∧
    (∃ q, Sample.libraryRequest.compile Sample.libraryEnv .sequential = .ok q ∧
      q.dropped = [⟨"Book", "Books", "price"⟩, ⟨"Author", "People", "address"⟩] ∧
      ∃ f label o, Sample.libraryEnv.metadata.fragments.get? "Book" = some f ∧
        q.select.source = some ⟨f.table, label⟩ ∧ q.select.Displays o ∧
        ∀ depth, Sample.libraryEnv.settings.maxFragmentDepth.toNat + 1 < depth →
          Shaped Sample.libraryEnv q.select.Binds depth (.fields "Book" f.selections) f.table label
            o ∧
          q.dropped = Demand.dropped Sample.libraryEnv depth (.fields "Book" f.selections)
            f.table) ∧
    Sample.books.readsAll none = false ∧ Sample.books.readsAll (some Sample.librarian) = true ∧
    ∃ q, Sample.libraryRequest.compile Sample.staffEnv .sequential = .ok q ∧ q.dropped = [] ∧
      ∃ label o, q.select.source = some ⟨"Books", label⟩ ∧ q.select.Displays o ∧
        o.row = some label ∧ o.entries.map Prod.fst = ["author"] := by
  obtain ⟨q, hq, hdropped⟩ := Sample.compile_libraryRequest
  obtain ⟨q', hq', hdropped'⟩ := Sample.compile_staffEnv
  refine ⟨Sample.keyed_library, ⟨q, hq, hdropped, compile_shaped Sample.keyed_library hq⟩,
    by decide, by decide, q', hq', hdropped', ?_⟩
  have hkeyed : Sample.staffEnv.metadata.Keyed := Sample.keyed_library
  obtain ⟨f, label, o, hf, hsource, hdisplays, hshaped⟩ := compile_shaped hkeyed hq'
  cases hf
  obtain ⟨t, ht, hfits, -⟩ := (hshaped 12 (by decide)).1
  cases ht
  exact ⟨label, o, hsource, hdisplays, hfits.row, hfits.entries⟩

end ShapedQuery
