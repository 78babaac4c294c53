import ShapedQuery.Proofs.SelectorForm
import ShapedQuery.Query.Index

/-! # Well-formed expressions

An expression is well formed if its connectives have two operands or more, its JSON paths lead
somewhere, its casts are to column types, and the functions it calls by name are identifiers other
than those of the compiler's own functions (`Expr.WellFormed`).

All that the compiler makes is well formed: the condition of a selector
(`Target.selector_wellFormed`), a computed field (`Compile.computed_wellFormed`), and what is
indexed for a field (`TableIndex.element_wellFormed`). -/

namespace ShapedQuery

/-- A function called by name is an identifier and none of the compiler's own. -/
def Function.Proper : Function → Prop
  | .named name => isIdentifier name = true ∧ name ∉ ["COALESCE", "LOWER", "ARRAY_LENGTH"]
  | _ => True

namespace Expr

variable {π ρ : Type}

/-- What is asked of an expression, apart from those in it. -/
def Proper : Expr π → Prop
  | .all es => 2 ≤ es.length
  | .any es => 2 ≤ es.length
  | .path _ steps _ => steps ≠ []
  | .cast _ type => ∃ t : ScalarType, t.sqlName = type
  | .call f _ => f.Proper
  | _ => True

/-- An expression of which all parts are proper. -/
def WellFormed (e : Expr π) : Prop := e.Every Proper

theorem proper_map (f : π → ρ) (e : Expr π) : (e.map f).Proper ↔ e.Proper := by
  cases e <;> simp [map, Proper, mapAll_eq]

/-- What stands at the placeholders is of no concern. -/
theorem wellFormed_map (f : π → ρ) (e : Expr π) : (e.map f).WellFormed ↔ e.WellFormed := by
  have hproper : (fun d : Expr π => (d.map f).Proper) = Proper :=
    funext fun d => propext (proper_map f d)
  rw [WellFormed, every_map, hproper]
  rfl

theorem wellFormed_columnOf (table name : String) : (columnOf table name : Expr π).WellFormed :=
  trivial

end Expr

/-! ### Selectors -/

theorem buildsConditions_proper : BuildsConditions Expr.Proper where
  all _ h := h
  any _ h := h
  not _ := trivial
  binary _ _ _ := trivial
  isIn _ _ := trivial
  test _ _ := trivial
  array _ := trivial
  lower _ := trivial
  arrayLength _ := trivial
  path _ _ _ h := h
  cast _ t := ⟨t, rfl⟩
  constant _ := trivial
  bound _ := trivial

theorem Target.selector_wellFormed {t : Target} {s : Selector} {args args' : Arguments}
    {e : Expr Placeholder} (h : t.selector s args = .ok e args') : e.WellFormed :=
  (Target.selector_gives buildsConditions_proper (fun _ _ _ => trivial) s args).of_ok h

/-! ### Computed fields -/

theorem Function.proper_of_ofName {name : String} {f : Function} (h : ofName name = .ok f) :
    f.Proper := by
  unfold ofName at h
  split at h
  · cases h
  · rename_i hid
    have hid : isIdentifier name = true := by simpa using hid
    simp only [Except.ok.injEq] at h
    split at h
    · cases h
      trivial
    · rename_i hcoalesce
      split at h
      · cases h
        trivial
      · rename_i hlower
        split at h
        · cases h
          trivial
        · rename_i hlength
          cases h
          refine ⟨hid, ?_⟩
          -- the compiler's own names are in capitals already
          simp only [List.mem_cons, List.not_mem_nil, or_false, not_or]
          refine ⟨?_, ?_, ?_⟩
          · rintro rfl
            exact hcoalesce (by decide)
          · rintro rfl
            exact hlower (by decide)
          · rintro rfl
            exact hlength (by decide)

namespace Compile

/-- A step that gives well-formed expressions only. -/
abbrev GivesWellFormed (x : Compile (Expr Placeholder)) : Prop :=
  Gives x (fun _ => True) Expr.WellFormed

theorem ofExcept_gives {α : Type} {r : Except QueryError α} {P : α → Prop}
    (h : ∀ a, r = .ok a → P a) : Gives (ofExcept r) (fun _ => True) P :=
  fun _ => meets_ofExcept h fun _ _ => trivial

theorem joinOperand_wellFormed (o : JoinOperand) : GivesWellFormed (joinOperand o) := by
  cases o with
  | column name =>
      intro w
      refine Meets.get (meets_lookup (fun c _ => ?_) fun _ _ => trivial)
      exact Expr.wellFormed_columnOf _ _
  | currentUserColumn name =>
      intro w
      refine Meets.get (meets_ofExcept (fun e he => ?_) fun _ _ => trivial)
      unfold Context.currentUserColumn at he
      split at he
      · cases he
        exact Expr.wellFormed_columnOf _ _
      · cases he
  | resolverArg name =>
      intro w
      show Expr.WellFormed (w.context.resolverArg name).1
      unfold Context.resolverArg
      split
      · trivial
      · split <;> trivial
  | value j => exact fun w => trivial

theorem addJoin_any (join : JoinSpec) : Gives (addJoin join) (fun _ => True) fun _ => True := by
  intro w
  unfold Meets
  split <;> trivial

mutual

theorem computed_gives : ∀ e : Computed, GivesWellFormed (computed e)
  | .column name => joinOperand_wellFormed (.column name)
  | .currentUserColumn name => joinOperand_wellFormed (.currentUserColumn name)
  | .resolverArg name => joinOperand_wellFormed (.resolverArg name)
  | .value j => joinOperand_wellFormed (.value j)
  | .joinedColumn join column =>
      (addJoin_any join).bind fun label _ => Gives.pure (Expr.wellFormed_columnOf label column)
  | .joinedRow join =>
      (addJoin_any join).bind fun label _ => Gives.pure
        ⟨trivial, ⟨trivial, Expr.wellFormed_columnOf label primaryKey⟩, trivial, trivial, trivial⟩
  | .call _ arguments =>
      (ofExcept_gives fun _ hf => Function.proper_of_ofName hf).bind fun _ hf =>
        (computedAll_gives arguments).bind fun _ hes =>
          Gives.pure ⟨hf, Expr.everyAll_iff.mpr hes⟩
  | .binary left _ right =>
      (computed_gives left).bind fun _ hl => (computed_gives right).bind fun _ hr =>
        Gives.pure ⟨trivial, hl, hr⟩
  | .isNull e => (computed_gives e).bind fun _ he => Gives.pure ⟨trivial, he⟩

theorem computedAll_gives : ∀ es : List Computed,
    Gives (computedAll es) (fun _ => True) fun as => ∀ a ∈ as, a.WellFormed
  | [] => Gives.pure nofun
  | e :: es =>
      (computed_gives e).bind fun _ ha => (computedAll_gives es).bind fun _ has =>
        Gives.pure (List.forall_mem_cons.mpr ⟨ha, has⟩)

end

theorem computed_wellFormed {c : Computed} {w w' : Work} {e : Expr Placeholder}
    (h : computed c w = .ok e w') : e.WellFormed :=
  (computed_gives c w).of_ok h

end Compile

/-! ### Indexes -/

namespace TableIndex

theorem asText_wellFormed (textual : Bool) {e : Expr Placeholder} (h : e.WellFormed) :
    (asText textual e).WellFormed := by
  unfold asText
  split
  · exact h
  · exact ⟨⟨.text, rfl⟩, h⟩

theorem element_wellFormed {table : NamedTable} {options : IndexOptions} {field : String}
    {e : Expr Placeholder} (h : element table options field = .ok e) : e.WellFormed := by
  unfold element at h
  dsimp only at h
  split at h
  · cases h
  · rename_i column _
    split at h
    · cases h
    · cases h
      generalize FieldPath.split field = path
      -- first the column or the place inside it, then the guard against nulls, then the case
      have hplace : (if path.steps.isEmpty then (Expr.column (.bare path.column), column.isTextual)
          else (Expr.path (.column (.bare path.column)) path.steps false, false) :
            Expr Placeholder × Bool).1.WellFormed := by
        split
        · trivial
        · rename_i hsteps
          have hne : path.steps ≠ [] := by simpa using hsteps
          exact ⟨hne, trivial⟩
      generalize (if path.steps.isEmpty then (Expr.column (.bare path.column), column.isTextual)
          else (Expr.path (.column (.bare path.column)) path.steps false, false) :
            Expr Placeholder × Bool) = place at hplace ⊢
      have hguard : (if options.unique && column.nullable then
          (Expr.call .coalesce [asText place.2 place.1, .constant .emptyText], true)
          else (place.1, place.2) : Expr Placeholder × Bool).1.WellFormed := by
        split
        · exact ⟨trivial, asText_wellFormed _ hplace, trivial, trivial⟩
        · exact hplace
      split
      · exact ⟨trivial, asText_wellFormed _ hguard, trivial⟩
      · exact hguard

end TableIndex

end ShapedQuery
