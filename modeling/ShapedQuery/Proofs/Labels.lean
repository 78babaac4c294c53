import ShapedQuery.Proofs.SelectorForm

/-! # The aliases that a statement uses

An alias is used by every column that it qualifies and by every whole row, be it an item of the
select list or the row that a JSON object starts from.  `EveryLabel P` says of an expression, an
item or a projection that `P` holds of all aliases it uses. -/

namespace ShapedQuery

variable {π : Type}

/-- `P` holds of the alias of a column. -/
def ColumnRef.AtLabel (P : String → Prop) : ColumnRef → Prop
  | .qualified label _ => P label
  | .bare _ => True

namespace Expr

/-- `P` holds of the alias that the expression itself uses, if it is a column or starts from a
row. -/
def AtLabel (P : String → Prop) : Expr π → Prop
  | .column c => c.AtLabel P
  | .object (some row) _ => P row
  | _ => True

/-- `P` holds of all aliases in an expression. -/
def EveryLabel (P : String → Prop) (e : Expr π) : Prop := e.Every (AtLabel P)

variable {P Q : String → Prop}

theorem EveryLabel.mono {e : Expr π} (h : e.EveryLabel P) (hPQ : ∀ l, P l → Q l) :
    e.EveryLabel Q := by
  refine Every.mono (fun d hd => ?_) h
  cases d with
  | column c =>
      cases c with
      | qualified label name => exact hPQ label hd
      | bare name => trivial
  | object row fields =>
      cases row with
      | none => trivial
      | some row => exact hPQ row hd
  | _ => trivial

theorem everyLabel_of_forall (h : ∀ l, P l) (e : Expr π) : e.EveryLabel P := by
  refine every_of_forall (fun d => ?_) e
  cases d with
  | column c =>
      cases c with
      | qualified label name => exact h label
      | bare name => trivial
  | object row fields =>
      cases row with
      | none => trivial
      | some row => exact h row
  | _ => trivial

/-- A related row is guarded by its key and may start from the whole row. -/
theorem everyLabel_relatedRow {label key : String} {row : Option String}
    {fields : List (String × Expr π)} (hlabel : P label) (hrow : ∀ r, row = some r → P r)
    (hfields : ∀ f ∈ fields, f.2.EveryLabel P) :
    (relatedRow label key row fields).EveryLabel P := by
  have hobject : (Expr.object row fields).EveryLabel P := by
    refine ⟨?_, everyFields_iff.mpr hfields⟩
    cases row with
    | none => trivial
    | some r => exact hrow r rfl
  exact ⟨trivial, ⟨trivial, hlabel⟩, trivial, hobject⟩

end Expr

theorem buildsConditions_atLabel (P : String → Prop) : BuildsConditions (Expr.AtLabel P) where
  all _ _ := trivial
  any _ _ := trivial
  not _ := trivial
  binary _ _ _ := trivial
  isIn _ _ := trivial
  test _ _ := trivial
  array _ := trivial
  lower _ := trivial
  arrayLength _ := trivial
  path _ _ _ _ := trivial
  cast _ _ := trivial
  constant _ := trivial
  bound _ := trivial

def SelectItem.EveryLabel (P : String → Prop) : SelectItem π → Prop
  | .star label => P label
  | .column c => c.AtLabel P
  | .named e _ => e.EveryLabel P

def Projection.EveryLabel (P : String → Prop) : Projection → Prop
  | .item i => i.EveryLabel P
  | .field _ e => e.EveryLabel P

theorem Projection.EveryLabel.mono {P Q : String → Prop} {p : Projection} (h : p.EveryLabel P)
    (hPQ : ∀ l, P l → Q l) : p.EveryLabel Q := by
  cases p with
  | field key e => exact Expr.EveryLabel.mono h hPQ
  | item i =>
      cases i with
      | star label => exact hPQ label h
      | column c =>
          cases c with
          | qualified label name => exact hPQ label h
          | bare name => trivial
      | named e name => exact Expr.EveryLabel.mono h hPQ

namespace Context

variable {P : String → Prop} (c : Context)

theorem everyLabel_namedProjection (name : String) {e : Expr Placeholder} (h : e.EveryLabel P) :
    (c.namedProjection name e).EveryLabel P := by
  unfold namedProjection
  split <;> exact h

theorem everyLabel_fieldProjection (name : String) (h : P c.label) :
    (c.fieldProjection name).EveryLabel P := by
  unfold fieldProjection
  split <;> exact h

theorem everyLabel_resolverArg (name : String) : (c.resolverArg name).1.EveryLabel P := by
  unfold resolverArg
  split
  · trivial
  · split <;> trivial

/-- The object of a nested context uses its alias and what its fields use. -/
theorem everyLabel_nestedRow (hlabel : P c.label) (h : ∀ p ∈ c.projections, p.EveryLabel P) :
    c.relatedRow.EveryLabel P := by
  refine Expr.everyLabel_relatedRow hlabel (fun r hr => ?_) fun f hf => ?_
  · split at hr
    · cases hr
      exact hlabel
    · cases hr
  · obtain ⟨p, hp, hpf⟩ := List.mem_filterMap.mp hf
    have hlabels := h p hp
    cases p with
    | item i => cases hpf
    | field key e =>
        cases hpf
        exact hlabels

theorem everyLabel_selectItems (hlabel : P c.label) (h : ∀ p ∈ c.projections, p.EveryLabel P) :
    ∀ i ∈ c.selectItems, i.EveryLabel P := by
  intro i hi
  rcases List.mem_append.mp hi with hi | hi
  · split at hi
    · rw [List.mem_singleton.mp hi]
      exact hlabel
    · cases hi
  · obtain ⟨p, hp, hpi⟩ := List.mem_filterMap.mp hi
    have hlabels := h p hp
    cases p with
    | item i' =>
        cases hpi
        exact hlabels
    | field key e => cases hpi

end Context

end ShapedQuery
