import ShapedQuery.Sql.Arguments

/-! # Equality and shape of JSON values

`Json.beq` decides whether two values are the same, the order of keys included, so values and
parameters have decidable equality.

The shape of a value (`Json.shape`) forgets its strings, how large its numbers are and which
doubles it holds.  It keeps nulls and booleans, the keys of objects in their order, the lengths of
arrays, and the sign of whole numbers. -/

namespace ShapedQuery

namespace Json

/-- Induction over a value, with the hypothesis for each item and each entry. -/
@[elab_as_elim]
theorem induct {P : Json → Prop} (null : P .null) (bool : ∀ b, P (.bool b))
    (int : ∀ n, P (.int n)) (float : ∀ x, P (.float x)) (str : ∀ s, P (.str s))
    (arr : ∀ items, (∀ j ∈ items, P j) → P (.arr items))
    (obj : ∀ entries, (∀ k ∈ entries, P k.2) → P (.obj entries)) (j : Json) : P j :=
  @Json.rec P (fun items => ∀ j ∈ items, P j) (fun entries => ∀ k ∈ entries, P k.2)
    (fun k => P k.2) null bool int float str arr obj
    (fun _ h => nomatch h) (fun _ _ hj hjs => List.forall_mem_cons.mpr ⟨hj, hjs⟩)
    (fun _ h => nomatch h) (fun _ _ hk hks => List.forall_mem_cons.mpr ⟨hk, hks⟩)
    (fun _ _ h => h) j

/-- Induction over the value of an entry of a filter: an array holds filters, whose entries are
entries again, and so are those of an object. -/
@[elab_as_elim]
theorem filter_induct {P : Json → Prop} (scalar : ∀ v, v.isContainer = false → P v)
    (arr : ∀ items, (∀ j ∈ items, ∀ es, j = .obj es → ∀ k ∈ es, P k.2) → P (.arr items))
    (obj : ∀ es, (∀ k ∈ es, P k.2) → P (.obj es)) (v : Json) : P v := by
  -- an array needs the entries of its items, so these are carried along
  have h : P v ∧ ∀ es, v = .obj es → ∀ k ∈ es, P k.2 := by
    induction v using Json.induct with
    | null => exact ⟨scalar _ rfl, fun _ h => by cases h⟩
    | bool b => exact ⟨scalar _ rfl, fun _ h => by cases h⟩
    | int n => exact ⟨scalar _ rfl, fun _ h => by cases h⟩
    | float x => exact ⟨scalar _ rfl, fun _ h => by cases h⟩
    | str s => exact ⟨scalar _ rfl, fun _ h => by cases h⟩
    | arr items ih => exact ⟨arr items fun j hj => (ih j hj).2, fun _ h => by cases h⟩
    | obj es ih =>
        have hes : ∀ k ∈ es, P k.2 := fun k hk => (ih k hk).1
        refine ⟨obj es hes, ?_⟩
        rintro es' ⟨⟩
        exact hes
  exact h.1

/-- Induction over the operand of an operator: only an object holds further operators. -/
@[elab_as_elim]
theorem operand_induct {P : Json → Prop} (other : ∀ v, (∀ es, v ≠ .obj es) → P v)
    (obj : ∀ es, (∀ k ∈ es, P k.2) → P (.obj es)) (v : Json) : P v := by
  induction v using Json.induct with
  | null => exact other _ fun _ h => by cases h
  | bool b => exact other _ fun _ h => by cases h
  | int n => exact other _ fun _ h => by cases h
  | float x => exact other _ fun _ h => by cases h
  | str s => exact other _ fun _ h => by cases h
  | arr items ih => exact other _ fun _ h => by cases h
  | obj es ih => exact obj es ih

/-! ### Equality -/

mutual

/-- Are two values the same, with their keys in the same order? -/
def beq : Json → Json → Bool
  | .null, .null => true
  | .bool a, .bool b => a == b
  | .int a, .int b => a == b
  | .float a, .float b => a == b
  | .str a, .str b => a == b
  | .arr as, .arr bs => beqItems as bs
  | .obj as, .obj bs => beqEntries as bs
  | _, _ => false

def beqItems : List Json → List Json → Bool
  | [], [] => true
  | a :: as, b :: bs => beq a b && beqItems as bs
  | _, _ => false

def beqEntries : List (String × Json) → List (String × Json) → Bool
  | [], [] => true
  | (k, a) :: as, (l, b) :: bs => k == l && beq a b && beqEntries as bs
  | _, _ => false

end

theorem beqItems_iff {as : List Json} (h : ∀ a ∈ as, ∀ b, a.beq b = true ↔ a = b) :
    ∀ bs, beqItems as bs = true ↔ as = bs := by
  induction as with
  | nil => intro bs; cases bs <;> simp [beqItems]
  | cons a as ih =>
      rw [List.forall_mem_cons] at h
      intro bs
      cases bs <;> simp [beqItems, h.1, ih h.2]

theorem beqEntries_iff {as : List (String × Json)}
    (h : ∀ k ∈ as, ∀ b, k.2.beq b = true ↔ k.2 = b) :
    ∀ bs, beqEntries as bs = true ↔ as = bs := by
  induction as with
  | nil => intro bs; cases bs <;> simp [beqEntries]
  | cons k as ih =>
      rw [List.forall_mem_cons] at h
      intro bs
      cases bs <;> simp [beqEntries, h.1, ih h.2, Prod.ext_iff]

theorem beq_iff (a b : Json) : a.beq b = true ↔ a = b := by
  induction a using induct generalizing b with
  | null => cases b <;> simp [beq]
  | bool x => cases b <;> simp [beq]
  | int n => cases b <;> simp [beq]
  | float x => cases b <;> simp [beq]
  | str s => cases b <;> simp [beq]
  | arr items ih => cases b <;> simp [beq, beqItems_iff ih]
  | obj entries ih => cases b <;> simp [beq, beqEntries_iff ih]

instance : DecidableEq Json := fun a b => decidable_of_iff _ (beq_iff a b)

/-! ### Shape -/

mutual

/-- A value without its strings, its doubles and the size of its whole numbers. -/
def shape : Json → Json
  | .null => .null
  | .bool b => .bool b
  | .int n => .int (if 0 ≤ n then 0 else -1)
  | .float _ => .float ⟨0⟩
  | .str _ => .str ""
  | .arr items => .arr (shapeItems items)
  | .obj entries => .obj (shapeEntries entries)

def shapeItems : List Json → List Json
  | [] => []
  | j :: js => shape j :: shapeItems js

/-- The entries with the same keys, and the shapes of their values. -/
def shapeEntries : List (String × Json) → List (String × Json)
  | [] => []
  | (k, j) :: es => (k, shape j) :: shapeEntries es

end

end Json

deriving instance DecidableEq for Param

end ShapedQuery
