import ShapedQuery.Proofs.Placeholders

/-! # What holds all over an expression

`Expr.Every P e` says that `P` holds of the expression `e` and of every expression in it, at any
depth.  What stands at the placeholders can be changed beforehand or afterwards
(`Expr.every_map`). -/

namespace ShapedQuery

namespace Expr

variable {π ρ : Type}

mutual

/-- `P` holds of an expression and of all expressions in it. -/
def Every (P : Expr π → Prop) : Expr π → Prop
  | .all es => P (.all es) ∧ EveryAll P es
  | .any es => P (.any es) ∧ EveryAll P es
  | .not e => P (.not e) ∧ Every P e
  | .binary l op r => P (.binary l op r) ∧ Every P l ∧ Every P r
  | .isIn l es => P (.isIn l es) ∧ Every P l ∧ EveryAll P es
  | .test e t => P (.test e t) ∧ Every P e
  | .call f es => P (.call f es) ∧ EveryAll P es
  | .array es => P (.array es) ∧ EveryAll P es
  | .column c => P (.column c)
  | .path e steps asText => P (.path e steps asText) ∧ Every P e
  | .cases c y n => P (.cases c y n) ∧ Every P c ∧ Every P y ∧ Every P n
  | .object row fields => P (.object row fields) ∧ EveryFields P fields
  | .cast e type => P (.cast e type) ∧ Every P e
  | .constant c => P (.constant c)
  | .bound p => P (.bound p)

def EveryAll (P : Expr π → Prop) : List (Expr π) → Prop
  | [] => True
  | e :: es => Every P e ∧ EveryAll P es

def EveryFields (P : Expr π → Prop) : List (String × Expr π) → Prop
  | [] => True
  | (_, e) :: es => Every P e ∧ EveryFields P es

end

variable {P Q : Expr π → Prop}

theorem everyAll_iff {es : List (Expr π)} : EveryAll P es ↔ ∀ e ∈ es, e.Every P := by
  induction es with
  | nil => exact ⟨fun _ => nofun, fun _ => trivial⟩
  | cons e es ih => rw [EveryAll, ih, List.forall_mem_cons]

theorem everyFields_iff {fields : List (String × Expr π)} :
    EveryFields P fields ↔ ∀ f ∈ fields, f.2.Every P := by
  induction fields with
  | nil => exact ⟨fun _ => nofun, fun _ => trivial⟩
  | cons f fields ih => rw [EveryFields, ih, List.forall_mem_cons]

/-- What holds all over an expression holds of the expression. -/
theorem Every.self {e : Expr π} (h : e.Every P) : P e := by
  cases e with
  | column c => exact h
  | constant c => exact h
  | bound p => exact h
  | _ => exact h.1

theorem Every.mono (hPQ : ∀ d, P d → Q d) {e : Expr π} (h : e.Every P) : e.Every Q := by
  have hall : ∀ {es : List (Expr π)}, (∀ e ∈ es, e.Every P → e.Every Q) →
      EveryAll P es → EveryAll Q es := fun ih hes =>
    everyAll_iff.mpr fun e he => ih e he (everyAll_iff.mp hes e he)
  induction e using Expr.induct with
  | all es ih => exact ⟨hPQ _ h.1, hall ih h.2⟩
  | any es ih => exact ⟨hPQ _ h.1, hall ih h.2⟩
  | not e ih => exact ⟨hPQ _ h.1, ih h.2⟩
  | binary l op r ihl ihr => exact ⟨hPQ _ h.1, ihl h.2.1, ihr h.2.2⟩
  | isIn l es ihl ih => exact ⟨hPQ _ h.1, ihl h.2.1, hall ih h.2.2⟩
  | test e t ih => exact ⟨hPQ _ h.1, ih h.2⟩
  | call g es ih => exact ⟨hPQ _ h.1, hall ih h.2⟩
  | array es ih => exact ⟨hPQ _ h.1, hall ih h.2⟩
  | column c => exact hPQ _ h
  | path e steps asText ih => exact ⟨hPQ _ h.1, ih h.2⟩
  | cases c y n ihc ihy ihn => exact ⟨hPQ _ h.1, ihc h.2.1, ihy h.2.2.1, ihn h.2.2.2⟩
  | object row fields ih =>
      exact ⟨hPQ _ h.1, everyFields_iff.mpr fun f hf => ih f hf (everyFields_iff.mp h.2 f hf)⟩
  | cast e type ih => exact ⟨hPQ _ h.1, ih h.2⟩
  | constant c => exact hPQ _ h
  | bound p => exact hPQ _ h

/-- What holds of every expression holds all over one. -/
theorem every_of_forall (h : ∀ d, P d) (e : Expr π) : e.Every P := by
  induction e using Expr.induct with
  | all es ih => exact ⟨h _, everyAll_iff.mpr ih⟩
  | any es ih => exact ⟨h _, everyAll_iff.mpr ih⟩
  | not e ih => exact ⟨h _, ih⟩
  | binary l op r ihl ihr => exact ⟨h _, ihl, ihr⟩
  | isIn l es ihl ih => exact ⟨h _, ihl, everyAll_iff.mpr ih⟩
  | test e t ih => exact ⟨h _, ih⟩
  | call g es ih => exact ⟨h _, everyAll_iff.mpr ih⟩
  | array es ih => exact ⟨h _, everyAll_iff.mpr ih⟩
  | column c => exact h _
  | path e steps asText ih => exact ⟨h _, ih⟩
  | cases c y n ihc ihy ihn => exact ⟨h _, ihc, ihy, ihn⟩
  | object row fields ih => exact ⟨h _, everyFields_iff.mpr ih⟩
  | cast e type ih => exact ⟨h _, ih⟩
  | constant c => exact h _
  | bound p => exact h _

/-! ### Maps -/

theorem everyAll_mapAll {f : π → ρ} {P : Expr ρ → Prop} {es : List (Expr π)}
    (ih : ∀ e ∈ es, (e.map f).Every P ↔ e.Every fun d => P (d.map f)) :
    EveryAll P (mapAll f es) ↔ EveryAll (fun d => P (d.map f)) es := by
  rw [mapAll_eq, everyAll_iff, everyAll_iff, List.forall_mem_map]
  exact forall₂_congr ih

theorem everyFields_mapFields {f : π → ρ} {P : Expr ρ → Prop} {fields : List (String × Expr π)}
    (ih : ∀ k ∈ fields, (k.2.map f).Every P ↔ k.2.Every fun d => P (d.map f)) :
    EveryFields P (mapFields f fields) ↔ EveryFields (fun d => P (d.map f)) fields := by
  rw [mapFields_eq, everyFields_iff, everyFields_iff, List.forall_mem_map]
  exact forall₂_congr ih

theorem every_map (f : π → ρ) {P : Expr ρ → Prop} (e : Expr π) :
    (e.map f).Every P ↔ e.Every fun d => P (d.map f) := by
  induction e using induct with
  | all es ih => simp only [map, Every, everyAll_mapAll ih]
  | any es ih => simp only [map, Every, everyAll_mapAll ih]
  | not e ih => simp only [map, Every, ih]
  | binary l op r ihl ihr => simp only [map, Every, ihl, ihr]
  | isIn l es ihl ih => simp only [map, Every, ihl, everyAll_mapAll ih]
  | test e t ih => simp only [map, Every, ih]
  | call g es ih => simp only [map, Every, everyAll_mapAll ih]
  | array es ih => simp only [map, Every, everyAll_mapAll ih]
  | column c => rfl
  | path e steps asText ih => simp only [map, Every, ih]
  | cases c y n ihc ihy ihn => simp only [map, Every, ihc, ihy, ihn]
  | object row fields ih => simp only [map, Every, everyFields_mapFields ih]
  | cast e type ih => simp only [map, Every, ih]
  | constant c => rfl
  | bound p => rfl

end Expr

end ShapedQuery
