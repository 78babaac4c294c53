import Mathlib.Logic.Function.Basic
import ShapedQuery.Proofs.Runs

/-! # Renaming aliases

`relabel f` renames all aliases of a statement, or of a context under construction, by `f`.  Other
names stay as they are: those of tables, columns and keys.

Most operations on contexts commute with every renaming.  Those that compare aliases do so if
different aliases stay different: looking for a join that serves, putting joins together, and the
check for aliases that come twice. -/

namespace ShapedQuery

variable {π ρ : Type} (f g : String → String)

/-! ### Statements -/

def ColumnRef.relabel : ColumnRef → ColumnRef
  | .qualified label name => .qualified (f label) name
  | .bare name => .bare name

namespace Expr

mutual

/-- Rename the aliases in an expression. -/
def relabel : Expr π → Expr π
  | .all es => .all (relabelAll es)
  | .any es => .any (relabelAll es)
  | .not e => .not (relabel e)
  | .binary l op r => .binary (relabel l) op (relabel r)
  | .isIn l es => .isIn (relabel l) (relabelAll es)
  | .test e t => .test (relabel e) t
  | .call h es => .call h (relabelAll es)
  | .array es => .array (relabelAll es)
  | .column c => .column (c.relabel f)
  | .path e steps asText => .path (relabel e) steps asText
  | .cases c y n => .cases (relabel c) (relabel y) (relabel n)
  | .object row fields => .object (row.map f) (relabelFields fields)
  | .cast e type => .cast (relabel e) type
  | .constant c => .constant c
  | .bound p => .bound p

def relabelAll : List (Expr π) → List (Expr π)
  | [] => []
  | e :: es => relabel e :: relabelAll es

def relabelFields : List (String × Expr π) → List (String × Expr π)
  | [] => []
  | (k, e) :: es => (k, relabel e) :: relabelFields es

end

theorem relabelAll_eq (es : List (Expr π)) : relabelAll f es = es.map (relabel f) := by
  induction es with
  | nil => rfl
  | cons e es ih => simp [relabelAll, ih]

theorem relabelFields_eq (fields : List (String × Expr π)) :
    relabelFields f fields = fields.map fun k => (k.1, k.2.relabel f) := by
  induction fields with
  | nil => rfl
  | cons k fields ih => simp [relabelFields, ih]

theorem relabel_relabel (e : Expr π) : (e.relabel f).relabel g = e.relabel (g ∘ f) := by
  induction e using induct with
  | all es ih => simpa [relabel, relabelAll_eq] using ih
  | any es ih => simpa [relabel, relabelAll_eq] using ih
  | not e ih => simp [relabel, ih]
  | binary l op r ihl ihr => simp [relabel, ihl, ihr]
  | isIn l es ihl ih => simpa [relabel, relabelAll_eq, ihl] using ih
  | test e t ih => simp [relabel, ih]
  | call h es ih => simpa [relabel, relabelAll_eq] using ih
  | array es ih => simpa [relabel, relabelAll_eq] using ih
  | column c => cases c <;> rfl
  | path e steps asText ih => simp [relabel, ih]
  | cases c y n ihc ihy ihn => simp [relabel, ihc, ihy, ihn]
  | object row fields ih => simpa [relabel, relabelFields_eq] using ih
  | cast e type ih => simp [relabel, ih]
  | constant c => rfl
  | bound p => rfl

/-- A renaming that leaves all aliases of an expression alone leaves it alone. -/
theorem relabel_eq_self {e : Expr π} (h : e.EveryLabel fun l => f l = l) : e.relabel f = e := by
  have hall : ∀ {es : List (Expr π)}, EveryAll (AtLabel fun l => f l = l) es →
      (∀ e ∈ es, e.EveryLabel (fun l => f l = l) → e.relabel f = e) → relabelAll f es = es := by
    intro es hes ih
    have hself : ∀ e ∈ es, e.relabel f = id e := fun e he => ih e he (everyAll_iff.mp hes e he)
    rw [relabelAll_eq, List.map_congr_left hself, List.map_id]
  induction e using induct with
  | all es ih => rw [relabel, hall h.2 ih]
  | any es ih => rw [relabel, hall h.2 ih]
  | not e ih => rw [relabel, ih h.2]
  | binary l op r ihl ihr => rw [relabel, ihl h.2.1, ihr h.2.2]
  | isIn l es ihl ih => rw [relabel, ihl h.2.1, hall h.2.2 ih]
  | test e t ih => rw [relabel, ih h.2]
  | call g es ih => rw [relabel, hall h.2 ih]
  | array es ih => rw [relabel, hall h.2 ih]
  | column c =>
      cases c with
      | qualified label name => exact congrArg (columnOf · name) h
      | bare name => rfl
  | path e steps asText ih => rw [relabel, ih h.2]
  | cases c y n ihc ihy ihn => rw [relabel, ihc h.2.1, ihy h.2.2.1, ihn h.2.2.2]
  | object row fields ih =>
      have hrow : row.map f = row := by
        cases row with
        | none => rfl
        | some row => exact congrArg some h.1
      have hself : ∀ k ∈ fields, (k.1, k.2.relabel f) = id k := fun k hk =>
        Prod.ext rfl (ih k hk (everyFields_iff.mp h.2 k hk))
      rw [relabel, hrow, relabelFields_eq, List.map_congr_left hself, List.map_id]
  | cast e type ih => rw [relabel, ih h.2]
  | constant c => rfl
  | bound p => rfl

variable {f} in
/-- A renaming that keeps aliases apart can be undone. -/
theorem relabel_injective (hf : Function.Injective f) :
    Function.Injective (relabel (π := π) f) := by
  obtain ⟨g, hg⟩ := hf.hasLeftInverse
  refine Function.LeftInverse.injective (g := relabel g) fun e => ?_
  rw [relabel_relabel]
  exact relabel_eq_self _ (everyLabel_of_forall hg e)

/-- Renaming has nothing to do with placeholders. -/
theorem map_relabel (h : π → ρ) (e : Expr π) : (e.relabel f).map h = (e.map h).relabel f := by
  induction e using induct with
  | all es ih => simpa [relabel, relabelAll_eq, map, mapAll_eq] using ih
  | any es ih => simpa [relabel, relabelAll_eq, map, mapAll_eq] using ih
  | not e ih => simp [relabel, map, ih]
  | binary l op r ihl ihr => simp [relabel, map, ihl, ihr]
  | isIn l es ihl ih => simpa [relabel, relabelAll_eq, map, mapAll_eq, ihl] using ih
  | test e t ih => simp [relabel, map, ih]
  | call g es ih => simpa [relabel, relabelAll_eq, map, mapAll_eq] using ih
  | array es ih => simpa [relabel, relabelAll_eq, map, mapAll_eq] using ih
  | column c => rfl
  | path e steps asText ih => simp [relabel, map, ih]
  | cases c y n ihc ihy ihn => simp [relabel, map, ihc, ihy, ihn]
  | object row fields ih => simpa [relabel, relabelFields_eq, map, mapFields_eq] using ih
  | cast e type ih => simp [relabel, map, ih]
  | constant c => rfl
  | bound p => rfl

end Expr

def SelectItem.relabel : SelectItem π → SelectItem π
  | .star label => .star (f label)
  | .column c => .column (c.relabel f)
  | .named e name => .named (e.relabel f) name

def Join.relabel (j : Join π) : Join π := ⟨j.kind, j.table, f j.label, j.on.map (Expr.relabel f)⟩

def OrderTerm.relabel (t : OrderTerm π) : OrderTerm π := { t with target := t.target.relabel f }

/-- Rename the aliases in a select statement. -/
def Select.relabel (s : Select π) : Select π where
  comment := s.comment
  items := s.items.map (SelectItem.relabel f)
  source := s.source.map fun src => { src with label := f src.label }
  joins := s.joins.map (Join.relabel f)
  condition := s.condition.relabel f
  order := s.order.map (OrderTerm.relabel f)
  limit := s.limit
  offset := s.offset

theorem SelectItem.relabel_relabel (i : SelectItem π) :
    (i.relabel f).relabel g = i.relabel (g ∘ f) := by
  cases i with
  | star label => rfl
  | column c => cases c <;> rfl
  | named e name => simp [relabel, Expr.relabel_relabel]

theorem Join.relabel_relabel (j : Join π) : (j.relabel f).relabel g = j.relabel (g ∘ f) := by
  simp [relabel, Expr.relabel_relabel]

theorem OrderTerm.relabel_relabel (t : OrderTerm π) :
    (t.relabel f).relabel g = t.relabel (g ∘ f) := by
  simp [relabel, Expr.relabel_relabel]

theorem Select.relabel_relabel (s : Select π) : (s.relabel f).relabel g = s.relabel (g ∘ f) := by
  simp [relabel, SelectItem.relabel_relabel, Join.relabel_relabel, OrderTerm.relabel_relabel,
    Expr.relabel_relabel, Function.comp_def]

theorem Join.map_relabel (h : π → ρ) (j : Join π) : (j.relabel f).map h = (j.map h).relabel f := by
  simp [relabel, map, Expr.map_relabel, Function.comp_def]

variable {f} in
theorem Join.relabel_injective (hf : Function.Injective f) :
    Function.Injective (Join.relabel (π := π) f) := by
  intro j k h
  obtain ⟨kind, table, label, on⟩ := j
  obtain ⟨kind', table', label', on'⟩ := k
  simp only [relabel, Join.mk.injEq] at h
  obtain ⟨rfl, rfl, hlabel, hon⟩ := h
  rw [hf hlabel, (Expr.relabel_injective hf).list_map hon]

/-! ### Contexts -/

def Projection.relabel : Projection → Projection
  | .item i => .item (i.relabel f)
  | .field key e => .field key (e.relabel f)

def OwnedJoin.relabel (j : OwnedJoin) : OwnedJoin := ⟨f j.owner, j.spec, j.join.relabel f⟩

namespace Context

/-- Rename the aliases of a context under construction. -/
def relabel (c : Context) : Context :=
  { c with
    label := f c.label
    projections := c.projections.map (Projection.relabel f)
    joins := c.joins.map (OwnedJoin.relabel f) }

variable (c : Context)

theorem relabel_currentUserColumn (huser : f currentUserAlias = currentUserAlias) (name : String) :
    (c.relabel f).currentUserColumn name = (c.currentUserColumn name).map (Expr.relabel f) := by
  unfold currentUserColumn
  by_cases h : c.currentUserJoined = true
  · rw [if_pos h, if_pos (show (c.relabel f).currentUserJoined = true from h)]
    simp [Except.map, Expr.columnOf, Expr.relabel, ColumnRef.relabel, huser]
  · rw [if_neg h, if_neg (show ¬ (c.relabel f).currentUserJoined = true from h)]
    rfl

theorem relabel_resolverArg (name : String) :
    (c.relabel f).resolverArg name =
      ((c.resolverArg name).1.relabel f, (c.resolverArg name).2.relabel f) := by
  have hbound : (c.relabel f).boundArgs = c.boundArgs := rfl
  have hargs : (c.relabel f).resolverArgs = c.resolverArgs := rfl
  unfold resolverArg
  rw [hbound, hargs]
  cases c.boundArgs.get? name with
  | some p => rfl
  | none => cases c.resolverArgs.get? name <;> rfl

theorem relabel_namedProjection (name : String) (e : Expr Placeholder) :
    (c.relabel f).namedProjection name (e.relabel f) = (c.namedProjection name e).relabel f := by
  cases hn : c.nested <;>
    simp [namedProjection, relabel, hn, Projection.relabel, SelectItem.relabel]

theorem relabel_fieldProjection (name : String) :
    (c.relabel f).fieldProjection name = (c.fieldProjection name).relabel f := by
  cases hn : c.nested <;>
    simp [fieldProjection, relabel, hn, Projection.relabel, SelectItem.relabel, ColumnRef.relabel,
      column, Expr.columnOf, Expr.relabel]

theorem relabel_addNamed (name : String) (e : Expr Placeholder) :
    (c.addNamed name e).relabel f = (c.relabel f).addNamed name (e.relabel f) := by
  unfold addNamed
  rw [relabel_namedProjection]
  simp [relabel]

theorem relabel_addColumn (name : String) :
    (c.addColumn name).relabel f = (c.relabel f).addColumn name := by
  unfold addColumn
  rw [relabel_fieldProjection]
  simp [relabel]

theorem relabel_foldl_addColumn (names : List String) :
    (names.foldl addColumn c).relabel f = names.foldl addColumn (c.relabel f) := by
  induction names generalizing c with
  | nil => rfl
  | cons name names ih => rw [List.foldl_cons, ih, relabel_addColumn, List.foldl_cons]

theorem relabel_baseRow (env : Env) (allReadable : Bool) :
    Compile.baseRow env allReadable (c.relabel f) =
      ((Compile.baseRow env allReadable c).1, (Compile.baseRow env allReadable c).2.relabel f) := by
  have htable : (c.relabel f).table = c.table := rfl
  unfold Compile.baseRow
  rw [htable]
  split
  · rfl
  · dsimp only
    rw [← relabel_addColumn, ← relabel_foldl_addColumn]
    split <;> rfl

theorem relabel_child (table : NamedTable) (label : String) :
    (c.child table label).relabel f = (c.relabel f).child table (f label) := rfl

theorem relabel_addJoin (spec : JoinSpec) (label : String) (on : List (Expr Placeholder)) :
    (c.addJoin spec label on).relabel f =
      (c.relabel f).addJoin spec (f label) (on.map (Expr.relabel f)) := by
  simp [addJoin, relabel, OwnedJoin.relabel, Join.relabel]

theorem relabel_relatedRow : (c.relabel f).relatedRow = c.relatedRow.relabel f := by
  have hfields : (c.relabel f).objectFields = Expr.relabelFields f c.objectFields := by
    rw [Expr.relabelFields_eq]
    unfold objectFields
    simp only [relabel, List.filterMap_map, List.map_filterMap]
    refine List.filterMap_congr fun p _ => ?_
    cases p <;> rfl
  simp only [relatedRow, Expr.relatedRow, hfields, Expr.columnOf, Expr.relabel, ColumnRef.relabel]
  cases hrow : c.wholeRow <;> simp [relabel, hrow]

theorem relabel_selectItems :
    (c.relabel f).selectItems = c.selectItems.map (SelectItem.relabel f) := by
  have hrow : (if c.wholeRow then [SelectItem.star (f c.label)] else []) =
      (if c.wholeRow then [.star c.label] else []).map
        (SelectItem.relabel (π := Placeholder) f) := by
    cases c.wholeRow <;> rfl
  unfold selectItems
  rw [List.map_append, ← hrow]
  refine congrArg _ ?_
  simp only [relabel, List.filterMap_map, List.map_filterMap]
  refine List.filterMap_congr fun p _ => ?_
  cases p <;> rfl

/-! ### Comparing aliases -/

section injective

variable {f} (hf : Function.Injective f)

include hf

theorem relabel_serves (j : OwnedJoin) (owner : String) (spec : JoinSpec) :
    (j.relabel f).serves (f owner) spec = j.serves owner spec := by
  have howner : (f j.owner == f owner) = (j.owner == owner) := by
    rw [Bool.eq_iff_iff, beq_iff_eq, beq_iff_eq]
    exact hf.eq_iff
  simp only [OwnedJoin.serves, OwnedJoin.relabel, howner]

theorem relabel_find? (spec : JoinSpec) :
    ((c.relabel f).joins.find? fun j => j.serves (c.relabel f).label spec) =
      (c.joins.find? fun j => j.serves c.label spec).map (OwnedJoin.relabel f) := by
  have hserves : ((fun j => OwnedJoin.serves j (f c.label) spec) ∘ OwnedJoin.relabel f) =
      fun j => j.serves c.label spec := funext fun j => relabel_serves hf j c.label spec
  simp only [relabel, List.find?_map, hserves]

theorem relabel_same (j k : OwnedJoin) : (j.relabel f).same (k.relabel f) = j.same k := by
  have howner : (f j.owner == f k.owner) = (j.owner == k.owner) := by
    rw [Bool.eq_iff_iff, beq_iff_eq, beq_iff_eq]
    exact hf.eq_iff
  have hjoin : ((j.join.relabel f).map Placeholder.index).beq
      ((k.join.relabel f).map Placeholder.index) =
      (j.join.map Placeholder.index).beq (k.join.map Placeholder.index) := by
    rw [Bool.eq_iff_iff, Join.beq_iff, Join.beq_iff, Join.map_relabel, Join.map_relabel]
    exact (Join.relabel_injective hf).eq_iff
  simp only [OwnedJoin.same, OwnedJoin.relabel, howner, hjoin]

theorem relabel_mergeJoins (joins more : List OwnedJoin) :
    (mergeJoins joins more).map (OwnedJoin.relabel f) =
      mergeJoins (joins.map (OwnedJoin.relabel f)) (more.map (OwnedJoin.relabel f)) := by
  induction more generalizing joins with
  | nil => rfl
  | cons j more ih =>
      have hany : ((joins.map (OwnedJoin.relabel f)).any fun k => k.same (j.relabel f)) =
          joins.any fun k => k.same j := by
        rw [List.any_map]
        exact congrArg (joins.any ·) (funext fun k => relabel_same hf k j)
      rw [mergeJoins, List.map_cons, mergeJoins, hany]
      split
      · exact ih joins
      · rw [ih, List.map_append, List.map_singleton]

theorem relabel_folded (child : Context) (name : String) :
    (c.folded child name).relabel f = (c.relabel f).folded (child.relabel f) name := by
  have hprojection := relabel_namedProjection f c name child.relatedRow
  rw [← relabel_relatedRow] at hprojection
  have hjoins := relabel_mergeJoins hf c.joins child.joins
  simp only [folded, addNamed, relabel, List.map_append, List.map_singleton, hjoins]
    at hprojection ⊢
  rw [← hprojection]

theorem relabel_repeatedAlias? (seen labels : List String) :
    repeatedAlias? (seen.map f) (labels.map f) = (repeatedAlias? seen labels).map f := by
  induction labels generalizing seen with
  | nil => rfl
  | cons l labels ih =>
      have hcontains : (seen.map f).contains (f l) = seen.contains l := by
        rw [Bool.eq_iff_iff, List.contains_iff_mem, List.contains_iff_mem]
        exact List.mem_map_of_injective hf
      rw [List.map_cons, repeatedAlias?, repeatedAlias?, hcontains]
      split
      · rfl
      · exact ih (l :: seen)

/-- The select statement is renamed with its context, if there is one. -/
theorem relabel_select
    (hlabels : repeatedAlias? [c.label] ((c.joins.map OwnedJoin.join).map Join.label) = none)
    (condition : Expr Placeholder) (order : List (OrderTerm Placeholder))
    (limit offset : Option Placeholder) :
    (c.relabel f).select (condition.relabel f) (order.map (OrderTerm.relabel f)) limit offset =
      (c.select condition order limit offset).map (Select.relabel f) := by
  have hjoins : (c.relabel f).joins.map OwnedJoin.join =
      (c.joins.map OwnedJoin.join).map (Join.relabel f) := by
    simp [relabel, OwnedJoin.relabel, Function.comp_def]
  have hnone : repeatedAlias? [(c.relabel f).label]
      (((c.joins.map OwnedJoin.join).map (Join.relabel f)).map Join.label) = none := by
    have hmap := relabel_repeatedAlias? hf [c.label] ((c.joins.map OwnedJoin.join).map Join.label)
    rw [hlabels] at hmap
    simpa [Join.relabel, Function.comp_def, relabel] using hmap
  simp only [select, hjoins, hnone, hlabels, Except.map, Select.relabel, relabel_selectItems]
  rfl

end injective

end Context

end ShapedQuery
