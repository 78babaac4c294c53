import ShapedQuery.Proofs.Placeholders

/-! # Three-valued truth

A condition is true, false, or unknown, as comparisons with null are.  The connectives are those of
Kleene's logic: a conjunction is the least true of its conditions, and a disjunction the most true.

`Expr.truth v` is the truth of a condition whose connectives and constants have this meaning, and
in which every other expression has the truth that `v` gives to it.  That the compiler leaves out a
connective around no condition or a single one does not show in the truth (`Expr.truth_allOf`,
`Expr.truth_anyOf`). -/

namespace ShapedQuery

/-- The truth of a condition. -/
inductive Truth where
  | no
  | unknown
  | yes
  deriving DecidableEq

namespace Truth

def ofBool : Bool → Truth
  | false => .no
  | true => .yes

def not : Truth → Truth
  | .no => .yes
  | .unknown => .unknown
  | .yes => .no

def and : Truth → Truth → Truth
  | .no, _ => .no
  | .unknown, .no => .no
  | .unknown, _ => .unknown
  | .yes, b => b

def or : Truth → Truth → Truth
  | .yes, _ => .yes
  | .unknown, .yes => .yes
  | .unknown, _ => .unknown
  | .no, b => b

/-- The conjunction of a list; nothing is asked by the empty one. -/
def all : List Truth → Truth
  | [] => .yes
  | a :: as => a.and (all as)

/-- The disjunction of a list; nothing is offered by the empty one. -/
def any : List Truth → Truth
  | [] => .no
  | a :: as => a.or (any as)

@[simp] theorem yes_and (a : Truth) : yes.and a = a := rfl

@[simp] theorem and_yes (a : Truth) : a.and .yes = a := by
  cases a <;> rfl

@[simp] theorem yes_or (a : Truth) : yes.or a = .yes := rfl

@[simp] theorem or_yes (a : Truth) : a.or .yes = .yes := by
  cases a <;> rfl

@[simp] theorem or_no (a : Truth) : a.or .no = a := by
  cases a <;> rfl

theorem and_assoc (a b c : Truth) : (a.and b).and c = a.and (b.and c) := by
  cases a <;> cases b <;> cases c <;> rfl

theorem all_append (as bs : List Truth) : all (as ++ bs) = (all as).and (all bs) := by
  induction as with
  | nil => rfl
  | cons a as ih => rw [List.cons_append, all, ih, all, and_assoc]

theorem all_singleton (a : Truth) : all [a] = a := and_yes a

theorem any_singleton (a : Truth) : any [a] = a := or_no a

/-! ### More and less true -/

/-- One truth is at most the other: from false over unknown to true. -/
instance : LE Truth := ⟨fun a b => a.and b = a⟩

instance (a b : Truth) : Decidable (a ≤ b) := inferInstanceAs (Decidable (_ = _))

theorem le_refl (a : Truth) : a ≤ a := by
  cases a <;> rfl

theorem le_yes (a : Truth) : a ≤ .yes := and_yes a

theorem and_le_and {a b c d : Truth} (h : a ≤ b) (h' : c ≤ d) : a.and c ≤ b.and d := by
  revert h h'
  cases a <;> cases b <;> cases c <;> cases d <;> decide

theorem or_le_or {a b c d : Truth} (h : a ≤ b) (h' : c ≤ d) : a.or c ≤ b.or d := by
  revert h h'
  cases a <;> cases b <;> cases c <;> cases d <;> decide

end Truth

/-! ### The truth of a condition -/

namespace Expr

variable {π : Type}

mutual

/-- The truth of a condition, where `v` tells that of everything but connectives and constants. -/
def truth (v : Expr π → Truth) : Expr π → Truth
  | .all es => .all (truths v es)
  | .any es => .any (truths v es)
  | .not e => (truth v e).not
  | .constant (.bool b) => .ofBool b
  | e => v e

def truths (v : Expr π → Truth) : List (Expr π) → List Truth
  | [] => []
  | e :: es => truth v e :: truths v es

end

theorem truths_eq (v : Expr π → Truth) (es : List (Expr π)) : truths v es = es.map (truth v) := by
  induction es with
  | nil => rfl
  | cons e es ih => rw [truths, ih, List.map_cons]

variable (v : Expr π → Truth)

@[simp] theorem truth_isTrue : (isTrue : Expr π).truth v = .yes := rfl

@[simp] theorem truth_isFalse : (isFalse : Expr π).truth v = .no := rfl

@[simp] theorem truth_not (e : Expr π) : (Expr.not e).truth v = (e.truth v).not := rfl

@[simp] theorem truth_allOf (es : List (Expr π)) :
    (allOf es).truth v = .all (es.map (truth v)) := by
  match es with
  | [] => rfl
  | [e] => exact (Truth.all_singleton _).symm
  | e :: e' :: es => exact congrArg Truth.all (truths_eq v _)

@[simp] theorem truth_anyOf (es : List (Expr π)) :
    (anyOf es).truth v = .any (es.map (truth v)) := by
  match es with
  | [] => rfl
  | [e] => exact (Truth.any_singleton _).symm
  | e :: e' :: es => exact congrArg Truth.any (truths_eq v _)

end Expr

end ShapedQuery
