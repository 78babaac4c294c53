import ShapedQuery.Proofs.Binding
import ShapedQuery.Proofs.LexicalSafety
import ShapedQuery.Proofs.SelectorGrammar
import ShapedQuery.Proofs.SelectorShape
import ShapedQuery.Proofs.WellFormed

/-! # Values in the order of the document

Which values a filter binds, said without the compiler.  `Table.entriesValues` walks over a filter
from left to right and collects the operands that are sent as values: none for a comment, a test of
existence, or a comparison with null or a boolean, the items for a list, and the operand itself
otherwise.

`Target.filter_in_order` says that compiling a filter binds exactly these values behind those that
are bound already, that the placeholders found in the text of the condition are the numbers which
follow, each once and in order, and that from another list of values the same filter gives the same
condition with all numbers moved.  The first part is proved of the compiler that writes values in
place (`Inline.filter`), where the values of a condition can be read off; `Yields` follows them
through its steps. -/

namespace ShapedQuery

/-! ### The values of a filter -/

/-- The values that a comparison for equality needs: null and the booleans are tested for. -/
def equalityValues : Json → List Json
  | .null => []
  | .bool _ => []
  | v => [v]

/-- A list as one value, unless it is empty. -/
def wholeValues : Json → List Json
  | .arr [] => []
  | v => [v]

mutual

/-- The values of an operator's operand, behind an array column if `array` holds. -/
def operatorValues (array : Bool) (name : String) (v : Json) : List Json :=
  if name = "$eq" ∨ name = "$ne" then equalityValues v
  else if name = "$exists" then []
  else if name = "$in" ∨ name = "$nin" then v.items?.getD []
  else if name = "$all" then if array then v.items?.getD [] else wholeValues v
  else if name = "$not" then
    match v with
    | .obj entries => operatorsValues array entries
    | _ => []
  else [v]

def operatorsValues (array : Bool) : List (String × Json) → List Json
  | [] => []
  | (name, v) :: rest => operatorValues array name v ++ operatorsValues array rest

end

namespace Table

variable (t : Table)

/-- Does a field's name stand for a whole array column? -/
def isArrayField (key : String) : Bool :=
  !isDotted key && (t.column? (firstSegment key)).any fun c => c.type.isArray

/-- The values behind a field: those of its operators, or the value it must equal. -/
def fieldValues (key : String) (v : Json) : List Json :=
  match v with
  | .obj entries =>
    if isOperatorObject entries then operatorsValues (t.isArrayField key) entries
    else equalityValues v
  | _ => equalityValues v

mutual

/-- The values of an entry. -/
def entryValues (key : String) (v : Json) : List Json :=
  if key = "$and" ∨ key = "$or" then
    match v with
    | .arr items => filtersValues items
    | .obj es => entriesValues es
    | _ => []
  else if key = "$comment" then []
  else t.fieldValues key v

/-- The values of a filter, entry by entry. -/
def entriesValues : List (String × Json) → List Json
  | [] => []
  | (key, v) :: rest => entryValues key v ++ entriesValues rest

def filtersValues : List Json → List Json
  | [] => []
  | v :: rest =>
    (match v with
      | .obj es => entriesValues es
      | _ => []) ++ filtersValues rest

end

end Table

/-! ### What a result holds -/

section yields

variable {α β γ δ : Type} {view : α → List δ} {view' : β → List δ} {out : γ → List δ}

/-- The result, if there is one, holds `xs` from left to right. -/
def Yields (view : α → List δ) (y : Except QueryError α) (xs : List δ) : Prop :=
  ∀ a, y = .ok a → view a = xs

theorem Yields.ok {a : α} {xs : List δ} (h : view a = xs) : Yields view (.ok a) xs := by
  rintro b ⟨⟩
  exact h

theorem Yields.error (e : QueryError) (xs : List δ) : Yields view (.error e) xs := by
  intro a h
  cases h

/-- A result that is changed and holds the same. -/
theorem Yields.map {y : Except QueryError α} {xs : List δ} (h : Yields view y xs) (f : α → β)
    (hf : ∀ a, view' (f a) = view a) : Yields view' (y >>= fun a => pure (f a)) xs := by
  cases y with
  | error e => exact Yields.error e _
  | ok a =>
      apply Yields.ok
      rw [hf, h a rfl]

/-- Two results one after the other. -/
theorem Yields.both {y : Except QueryError α} {y' : Except QueryError β} {xs ys : List δ}
    (h : Yields view y xs) (h' : Yields view' y' ys) (f : α → β → γ)
    (hf : ∀ a b, out (f a b) = view a ++ view' b) :
    Yields out (y >>= fun a => y' >>= fun b => pure (f a b)) (xs ++ ys) := by
  cases y with
  | error e => exact Yields.error e _
  | ok a =>
      cases y' with
      | error e => exact Yields.error e _
      | ok b =>
          apply Yields.ok
          rw [hf, h a rfl, h' b rfl]

end yields

/-- The result, if there is one, holds the values `vs` from left to right. -/
abbrev Carries {α : Type} (view : α → List Param) (y : Except QueryError α) (vs : List Json) :
    Prop :=
  Yields view y (vs.map Param.ofJson)

/-! ### Operators -/

namespace Inline

section operand

variable (o : Operand)

/-- The condition of a negation, whose operand holds further operators. -/
def negation (v : Json) : Except QueryError (Expr Param) :=
  match v with
  | .obj entries =>
    if isOperatorObject entries then do
      let es ← operators o entries
      pure (.not (.allOf es))
    else .error (.invalidOperand "$not" .operatorObject)
  | _ => .error (.invalidOperand "$not" .operatorObject)

theorem negation_yields {δ : Type} {view : Expr Param → List δ}
    {viewAll : List (Expr Param) → List δ}
    (hview : ∀ es, view (.not (.allOf es)) = viewAll es) {v : Json} {xs : List δ}
    (h : ∀ entries, v = .obj entries → Yields viewAll (operators o entries) xs) :
    Yields view (negation o v) xs := by
  unfold negation
  split
  · split
    · exact Yields.map (h _ rfl) (fun es => Expr.not (.allOf es)) hview
    · exact Yields.error _ _
  · exact Yields.error _ _

/-- One case for each operator, and one for all other names. -/
theorem operator_cases {P : String → Except QueryError (Expr Param) → Prop} {v : Json}
    (eq : P "$eq" (.ok (equals o v))) (ne : P "$ne" (.ok (notEquals o v)))
    (lt : P "$lt" (compare o "$lt" .lt v)) (lte : P "$lte" (compare o "$lte" .le v))
    (gt : P "$gt" (compare o "$gt" .gt v)) (gte : P "$gte" (compare o "$gte" .ge v))
    (isIn : P "$in" (isIn o v)) (isNotIn : P "$nin" (isNotIn o v))
    (containsAll : P "$all" (containsAll o v)) (exists? : P "$exists" (exists? o v))
    (negation : P "$not" (negation o v)) (hasSize : P "$size" (hasSize o v))
    (unsupported : ∀ name, P name (.error (.unsupportedOperator name))) (name : String) :
    P name (operator o name v) := by
  unfold operator
  by_cases h : name = "$eq"
  · subst h
    exact eq
  by_cases h : name = "$ne"
  · subst h
    exact ne
  by_cases h : name = "$lt"
  · subst h
    exact lt
  by_cases h : name = "$lte"
  · subst h
    exact lte
  by_cases h : name = "$gt"
  · subst h
    exact gt
  by_cases h : name = "$gte"
  · subst h
    exact gte
  by_cases h : name = "$in"
  · subst h
    exact isIn
  by_cases h : name = "$nin"
  · subst h
    exact isNotIn
  by_cases h : name = "$all"
  · subst h
    exact containsAll
  by_cases h : name = "$exists"
  · subst h
    exact exists?
  by_cases h : name = "$not"
  · subst h
    exact negation
  by_cases h : name = "$size"
  · subst h
    exact hasSize
  simp [*]

@[simp] theorem bounds_right (v : Json) : (right o v).bounds = [Param.ofJson v] := by
  unfold right
  split
  · rfl
  · split <;> rfl

@[simp] theorem bounds_item (v : Json) : (item o v).bounds = [Param.ofJson v] := by
  unfold item
  split <;> rfl

/-- Each of the items holds its value. -/
theorem boundsAll_map {f : Json → Expr Param} (hf : ∀ v, (f v).bounds = [Param.ofJson v])
    (vs : List Json) : Expr.boundsAll (vs.map f) = vs.map Param.ofJson := by
  induction vs with
  | nil => rfl
  | cons v vs ih => rw [List.map_cons, Expr.boundsAll, hf, ih, List.map_cons, List.singleton_append]

variable {o} (ho : o.expr.bounds = [])
include ho

theorem bounds_left (v : Json) : (left o v).bounds = [] := by
  rw [left, Expr.bounds_map, Operand.bounds_left ho, List.map_nil]

/-- A comparison of the left side holds the values of the right side. -/
theorem bounds_binary (v : Json) (op : BinaryOp) (r : Expr Param) :
    (Expr.binary (left o v) op r).bounds = r.bounds := by
  rw [Expr.bounds, bounds_left ho, List.nil_append]

theorem bounds_equals (v : Json) :
    (equals o v).bounds = (equalityValues v).map Param.ofJson := by
  have other : (if o.isArray && !v.isArray then
      Expr.binary (left o v) .contains (.array [item o v])
      else .binary (left o v) .eq (right o v)).bounds = [Param.ofJson v] := by
    split
    · rw [bounds_binary ho, Expr.bounds, Expr.boundsAll, bounds_item]
      rfl
    · rw [bounds_binary ho, bounds_right]
  cases v with
  | null => exact bounds_left ho _
  | bool b => cases b <;> exact bounds_left ho _
  | int n => exact other
  | float x => exact other
  | str s => exact other
  | arr items => exact other
  | obj entries => exact other

theorem bounds_notEquals (v : Json) :
    (notEquals o v).bounds = (equalityValues v).map Param.ofJson := by
  have other (hv : (equalityValues v).map Param.ofJson = [Param.ofJson v]) :
      (if o.isArray && !v.isArray then Expr.not (equals o v)
      else .binary (left o v) (if o.isNullable then .distinctFrom else .ne)
        (right o v)).bounds = (equalityValues v).map Param.ofJson := by
    split
    · exact bounds_equals ho v
    · rw [bounds_binary ho, bounds_right, hv]
  cases v with
  | null => exact bounds_left ho _
  | bool b => cases b <;> exact bounds_left ho _
  | int n => exact other rfl
  | float x => exact other rfl
  | str s => exact other rfl
  | arr items => exact other rfl
  | obj entries => exact other rfl

theorem compare_carries (name : String) (op : BinaryOp) (v : Json) :
    Carries Expr.bounds (compare o name op v) [v] := by
  have single : Carries Expr.bounds (.ok (.binary (left o v) op (right o v))) [v] := by
    apply Yields.ok
    rw [bounds_binary ho, bounds_right]
    rfl
  cases v with
  | bool b => exact single
  | int n => exact single
  | float x => exact single
  | str s => exact single
  | null => exact Yields.error _ _
  | arr items => exact Yields.error _ _
  | obj entries => exact Yields.error _ _

theorem bounds_isOneOf (first : Json) (rest : List Json) :
    (isOneOf o first rest).bounds = (first :: rest).map Param.ofJson := by
  unfold isOneOf
  split
  · rw [bounds_binary ho, Expr.bounds, boundsAll_map (bounds_item o)]
  · rw [Expr.bounds, bounds_left ho, boundsAll_map (bounds_right o), List.nil_append]

theorem isIn_carries (v : Json) : Carries Expr.bounds (isIn o v) (v.items?.getD []) := by
  match v with
  | .arr [] => exact Yields.ok rfl
  | .arr (first :: rest) => exact Yields.ok (bounds_isOneOf ho first rest)
  | .null => exact Yields.error _ _
  | .bool _ => exact Yields.error _ _
  | .int _ => exact Yields.error _ _
  | .float _ => exact Yields.error _ _
  | .str _ => exact Yields.error _ _
  | .obj _ => exact Yields.error _ _

theorem isNotIn_carries (v : Json) : Carries Expr.bounds (isNotIn o v) (v.items?.getD []) := by
  match v with
  | .arr [] => exact Yields.ok rfl
  | .arr (first :: rest) => exact Yields.ok (bounds_isOneOf ho first rest)
  | .null => exact Yields.error _ _
  | .bool _ => exact Yields.error _ _
  | .int _ => exact Yields.error _ _
  | .float _ => exact Yields.error _ _
  | .str _ => exact Yields.error _ _
  | .obj _ => exact Yields.error _ _

theorem containsAll_carries (v : Json) : Carries Expr.bounds (containsAll o v)
    (if o.isArray then v.items?.getD [] else wholeValues v) := by
  cases v with
  | arr values =>
      simp only [containsAll]
      split
      · exact Yields.error _ _
      · cases values with
        | nil =>
            cases o.isArray <;> exact Yields.ok rfl
        | cons v vs =>
            rw [List.isEmpty_cons, if_neg Bool.false_ne_true]
            split
            · apply Yields.ok
              rw [bounds_binary ho, Expr.bounds, boundsAll_map (bounds_item o)]
              rfl
            · apply Yields.ok
              rw [bounds_binary ho, bounds_right]
              rfl
  | null => exact Yields.error _ _
  | bool b => exact Yields.error _ _
  | int n => exact Yields.error _ _
  | float x => exact Yields.error _ _
  | str s => exact Yields.error _ _
  | obj entries => exact Yields.error _ _

theorem exists?_carries (v : Json) : Carries Expr.bounds (exists? o v) [] := by
  cases v with
  | bool b => exact Yields.ok (bounds_left ho .null)
  | null => exact Yields.error _ _
  | int n => exact Yields.error _ _
  | float x => exact Yields.error _ _
  | str s => exact Yields.error _ _
  | arr items => exact Yields.error _ _
  | obj entries => exact Yields.error _ _

theorem hasSize_carries (v : Json) : Carries Expr.bounds (hasSize o v) [v] := by
  unfold hasSize
  split
  · exact Yields.error _ _
  · cases v with
    | int n =>
        dsimp only
        split
        · apply Yields.ok
          simp [Expr.bounds, Expr.boundsAll, ho]
        · exact Yields.error _ _
    | null => exact Yields.error _ _
    | bool b => exact Yields.error _ _
    | float x => exact Yields.error _ _
    | str s => exact Yields.error _ _
    | arr items => exact Yields.error _ _
    | obj entries => exact Yields.error _ _

omit ho in
theorem operators_carries_of {entries : List (String × Json)}
    (h : ∀ k ∈ entries, ∀ name,
      Carries Expr.bounds (operator o name k.2) (operatorValues o.isArray name k.2)) :
    Carries Expr.boundsAll (operators o entries) (operatorsValues o.isArray entries) := by
  induction entries with
  | nil =>
      unfold operators operatorsValues
      exact Yields.ok rfl
  | cons k entries ih =>
      rw [List.forall_mem_cons] at h
      unfold operators operatorsValues
      rw [Carries, List.map_append]
      exact Yields.both (h.1 k.1) (ih h.2) List.cons fun e es => rfl

/-- An operator, given what the operators inside a negation hold. -/
theorem operator_carries_of (v : Json) (hn : ∀ entries, v = .obj entries →
      Carries Expr.boundsAll (operators o entries) (operatorsValues o.isArray entries))
    (name : String) :
    Carries Expr.bounds (operator o name v) (operatorValues o.isArray name v) := by
  refine operator_cases o
    (P := fun name y => Carries Expr.bounds y (operatorValues o.isArray name v))
    ?eq ?ne ?lt ?lte ?gt ?gte ?isIn ?isNotIn ?containsAll ?exists? ?negation ?hasSize
    (fun name => Yields.error _ _) name
  all_goals unfold operatorValues
  case eq => exact Yields.ok (bounds_equals ho v)
  case ne => exact Yields.ok (bounds_notEquals ho v)
  case lt => exact compare_carries ho "$lt" .lt v
  case lte => exact compare_carries ho "$lte" .le v
  case gt => exact compare_carries ho "$gt" .gt v
  case gte => exact compare_carries ho "$gte" .ge v
  case isIn => exact isIn_carries ho v
  case isNotIn => exact isNotIn_carries ho v
  case containsAll => exact containsAll_carries ho v
  case exists? => exact exists?_carries ho v
  case negation =>
    refine negation_yields o Expr.bounds_allOf ?_
    rintro entries rfl
    exact hn entries rfl
  case hasSize => exact hasSize_carries ho v

/-- The values of an operator, by induction over its operand: a negation goes on with the operators
inside. -/
theorem operator_carries (v : Json) (name : String) :
    Carries Expr.bounds (operator o name v) (operatorValues o.isArray name v) := by
  induction v using Json.operand_induct generalizing name with
  | other v hv => exact operator_carries_of ho v (fun entries h => absurd h (hv entries)) name
  | obj entries ih =>
      refine operator_carries_of ho _ ?_ name
      rintro entries' ⟨⟩
      exact operators_carries_of ih

end operand

/-! ### Filters -/

section filter

variable {t : Target}

theorem isArray_ofField {key : String} {o : Operand} (ho : Operand.ofField t key = .ok o) :
    o.isArray = t.table.table.isArrayField key := by
  obtain ⟨hcolumn, -, hplain⟩ := Operand.ofField_eq_ok ho
  rw [Operand.isArray, Table.isArrayField, hcolumn, ← hplain, Bool.not_not, Option.any_some]

theorem field_carries (key : String) (v : Json) :
    Carries Expr.bounds (field t key v) (t.table.table.fieldValues key v) := by
  unfold field Table.fieldValues
  cases ho : Operand.ofField t key with
  | error e => exact Yields.error e _
  | ok o =>
      have hbounds := Operand.bounds_ofField ho
      have hequals : Carries Expr.bounds (.ok (equals o v)) (equalityValues v) :=
        Yields.ok (bounds_equals hbounds v)
      cases v with
      | obj entries =>
          show Carries Expr.bounds (if isOperatorObject entries then _ else _)
            (if isOperatorObject entries then _ else _)
          split
          · rw [← isArray_ofField ho]
            exact Yields.map (operators_carries_of fun k _ => operator_carries hbounds k.2)
              Expr.allOf Expr.bounds_allOf
          · exact hequals
      | null => exact hequals
      | bool b => exact hequals
      | int n => exact hequals
      | float x => exact hequals
      | str s => exact hequals
      | arr items => exact hequals

/-- The values in the condition of an entry, if it has one. -/
def entryBounds (e : Option (Expr Param)) : List Param := Expr.boundsAll e.toList

/-- The condition of an entry, or none, holds the values of the entry. -/
def EntryCarries (t : Target) (v : Json) : Prop :=
  ∀ key, Carries entryBounds (entry t key v) (t.table.table.entryValues key v)

theorem entries_carries_of {es : List (String × Json)} (h : ∀ k ∈ es, EntryCarries t k.2) :
    Carries Expr.boundsAll (entries t es) (t.table.table.entriesValues es) := by
  induction es with
  | nil =>
      unfold entries Table.entriesValues
      exact Yields.ok rfl
  | cons k es ih =>
      rw [List.forall_mem_cons] at h
      unfold entries Table.entriesValues
      rw [Carries, List.map_append]
      exact Yields.both (h.1 k.1) (ih h.2) (fun e es => e.toList ++ es) fun e es =>
        Expr.boundsAll_append e.toList es

theorem singles_carries_of {es : List (String × Json)} (h : ∀ k ∈ es, EntryCarries t k.2) :
    Carries Expr.boundsAll (singles t es) (t.table.table.entriesValues es) := by
  induction es with
  | nil =>
      unfold singles Table.entriesValues
      exact Yields.ok rfl
  | cons k es ih =>
      rw [List.forall_mem_cons] at h
      unfold singles Table.entriesValues
      rw [Carries, List.map_append]
      refine Yields.both (h.1 k.1) (ih h.2) (fun e es => Expr.allOf e.toList :: es) fun e es => ?_
      rw [Expr.boundsAll, Expr.bounds_allOf, entryBounds]

theorem filters_carries_of (connective : String) {items : List Json}
    (h : ∀ j ∈ items, ∀ es, j = .obj es → ∀ k ∈ es, EntryCarries t k.2) :
    Carries Expr.boundsAll (filters t connective items) (t.table.table.filtersValues items) := by
  induction items with
  | nil =>
      unfold filters Table.filtersValues
      exact Yields.ok rfl
  | cons j items ih =>
      rw [List.forall_mem_cons] at h
      unfold filters Table.filtersValues
      cases j with
      | obj es =>
          rw [Carries, List.map_append]
          refine Yields.both (entries_carries_of (h.1 es rfl)) (ih h.2)
            (fun cs fs => Expr.allOf cs :: fs) fun cs fs => ?_
          rw [Expr.boundsAll, Expr.bounds_allOf]
      | null => exact Yields.error _ _
      | bool b => exact Yields.error _ _
      | int n => exact Yields.error _ _
      | float x => exact Yields.error _ _
      | str s => exact Yields.error _ _
      | arr items => exact Yields.error _ _

/-- The values of what a connective combines. -/
def operandsValues (t : Table) : Json → List Json
  | .arr items => t.filtersValues items
  | .obj es => t.entriesValues es
  | _ => []

theorem entryValues_eq (t : Table) (key : String) (v : Json) : t.entryValues key v =
    if key = "$and" ∨ key = "$or" then operandsValues t v
    else if key = "$comment" then []
    else t.fieldValues key v := by
  cases v <;> (unfold Table.entryValues; rfl)

/-- An entry, given what the filters of a connective hold. -/
theorem entry_carries_of {key : String} {v : Json}
    (h : Carries Expr.boundsAll (t.inlineOperands key v) (operandsValues t.table.table v)) :
    Carries entryBounds (entry t key v) (t.table.table.entryValues key v) := by
  rw [Target.inline_entry_eq, entryValues_eq]
  split
  · refine Yields.map h
      (fun fs => some (if key = "$and" then Expr.allOf fs else Expr.anyOf fs)) fun fs => ?_
    split <;> simp [entryBounds, Expr.boundsAll]
  · split
    · exact Yields.ok rfl
    · split
      · exact Yields.error _ _
      · refine Yields.map (field_carries key v) some fun e => ?_
        simp [entryBounds, Expr.boundsAll]

/-- The values of an entry, by induction over its value: a connective takes an array of objects, or
an object, whose entries are entries again. -/
theorem entry_carries (v : Json) : EntryCarries t v := by
  induction v using Json.filter_induct with
  | scalar v hv =>
      intro key
      apply entry_carries_of
      rw [Target.inlineOperands_of_scalar hv]
      exact Yields.error _ _
  | arr items ih => exact fun key => entry_carries_of (filters_carries_of key ih)
  | obj es ih => exact fun key => entry_carries_of (singles_carries_of ih)

/-- The condition of a filter holds the filter's values in the order of the document. -/
theorem bounds_filter {es : Entries Json} {e : Expr Param} (h : filter t es = .ok e) :
    e.bounds = (t.table.table.entriesValues es).map Param.ofJson := by
  have hentries : Carries Expr.boundsAll (entries t es) (t.table.table.entriesValues es) :=
    entries_carries_of fun k _ => entry_carries k.2
  exact Yields.map hentries Expr.allOf Expr.bounds_allOf e h

end filter

end Inline

/-! ### Placeholders in the text -/

namespace Lexer

def Mark.index? : Mark → Option Nat
  | .placeholder index => some index
  | _ => none

/-- The numbers of the placeholders in a text, from left to right. -/
def placeholders? (text : String) : Option (List Nat) :=
  (tokens? text).map fun ts => (marks ts).filterMap Mark.index?

theorem placeholders?_eq {text : String} {ms : List Mark} (h : (tokens? text).map marks = some ms) :
    placeholders? text = some (ms.filterMap Mark.index?) := by
  obtain ⟨ts, hts, rfl⟩ := Option.map_eq_some_iff.mp h
  rw [placeholders?, hts, Option.map_some]

end Lexer

open Lexer in
/-- The placeholders among the marks of an expression are what stands at its placeholders. -/
theorem Expr.filterMap_marks (e : Expr Nat) : e.marks.filterMap Mark.index? = e.bounds := by
  have hall {es : List (Expr Nat)} (ih : ∀ e ∈ es, e.marks.filterMap Mark.index? = e.bounds) :
      (marksAll es).filterMap Mark.index? = boundsAll es := by
    rw [marksAll_eq, boundsAll_eq, List.filterMap_flatMap]
    exact List.flatMap_congr ih
  have hconstant (c : Constant) : c.marks.filterMap Mark.index? = [] := by
    cases c <;> rfl
  have hcolumn (c : ColumnRef) : c.marks.filterMap Mark.index? = [] := by
    cases c <;> rfl
  have hsteps (steps : List PathStep) :
      (steps.flatMap PathStep.marks).filterMap Mark.index? = [] := by
    rw [List.filterMap_flatMap, List.flatMap_eq_nil_iff]
    intro step _
    cases step <;> rfl
  induction e using Expr.induct with
  | all es ih => exact hall ih
  | any es ih => exact hall ih
  | not e ih => exact ih
  | binary l op r ihl ihr => rw [marks, bounds, List.filterMap_append, ihl, ihr]
  | isIn l es ihl ih => rw [marks, bounds, List.filterMap_append, ihl, hall ih]
  | test e t ih => exact ih
  | call g es ih => exact hall ih
  | array es ih => exact hall ih
  | column c => exact hcolumn c
  | path e steps asText ih => rw [marks, bounds, List.filterMap_append, ih, hsteps, List.append_nil]
  | cases c y n ihc ihy ihn =>
      rw [marks, bounds, List.filterMap_append, List.filterMap_append, ihc, ihy, ihn]
  | object row fields ih =>
      have hfields : (marksFields fields).filterMap Mark.index? = boundsFields fields := by
        rw [marksFields_eq, boundsFields_eq, List.filterMap_flatMap]
        exact List.flatMap_congr ih
      have hrow : (row.toList.map Mark.name).filterMap Mark.index? = [] := by
        cases row <;> rfl
      rw [marks, bounds]
      split
      · rename_i h
        rw [Bool.and_eq_true, List.isEmpty_iff] at h
        rw [h.2]
        rfl
      · rw [List.filterMap_append, hrow, hfields, List.nil_append]
  | cast e type ih => exact ih
  | constant c => exact hconstant c
  | bound n => rfl

/-- A well-formed expression is well named. -/
theorem Expr.WellFormed.wellNamed {π : Type} {e : Expr π} (h : e.WellFormed) : e.WellNamed := by
  have hall {es : List (Expr π)} (ih : ∀ e ∈ es, e.WellFormed → e.WellNamed)
      (h : EveryAll Proper es) : WellNamedAll es :=
    wellNamedAll_iff.mpr fun e he => ih e he (everyAll_iff.mp h e he)
  induction e using Expr.induct with
  | all es ih => exact hall ih h.2
  | any es ih => exact hall ih h.2
  | not e ih => exact ih h.2
  | binary l op r ihl ihr => exact ⟨ihl h.2.1, ihr h.2.2⟩
  | isIn l es ihl ih => exact ⟨ihl h.2.1, hall ih h.2.2⟩
  | test e t ih => exact ih h.2
  | call f es ih =>
      refine ⟨?_, hall ih h.2⟩
      cases f with
      | named name => exact h.1.1
      | coalesce => trivial
      | lower => trivial
      | arrayLength => trivial
  | array es ih => exact hall ih h.2
  | column c => trivial
  | path e steps asText ih => exact ih h.2
  | cases c y n ihc ihy ihn => exact ⟨ihc h.2.1, ihy h.2.2.1, ihn h.2.2.2⟩
  | object row fields ih =>
      exact wellNamedFields_iff.mpr fun f hf => ih f hf (everyFields_iff.mp h.2 f hf)
  | cast e type ih => exact ⟨ih h.2, h.1⟩
  | constant c => trivial
  | bound p => trivial

/-- The placeholders in the text of a well-formed expression, from left to right. -/
theorem Expr.placeholders?_sql {e : Expr Placeholder} (h : e.WellFormed) :
    Lexer.placeholders? e.sql = some (e.bounds.map Placeholder.index) := by
  have hreads := (Expr.reads (e.map Placeholder.index) (h.wellNamed.map _)).tokens?
  rw [← Expr.bounds_map, ← Expr.filterMap_marks]
  exact Lexer.placeholders?_eq hreads

/-! ### Moving the numbers -/

/-- The placeholder that stands as far behind `after` as this one stands behind `before`. -/
def Placeholder.moved (before after : Nat) (p : Placeholder) : Placeholder :=
  ⟨p.index - before + after, p.value⟩

theorem Placeholder.eq_of_map_eq {ps qs : List Placeholder}
    (hindex : ps.map Placeholder.index = qs.map Placeholder.index)
    (hvalue : ps.map Placeholder.value = qs.map Placeholder.value) : ps = qs := by
  induction ps generalizing qs with
  | nil =>
      cases qs with
      | nil => rfl
      | cons q qs => cases hindex
  | cons p ps ih =>
      cases qs with
      | nil => cases hindex
      | cons q qs =>
          rw [List.map_cons, List.map_cons, List.cons.injEq] at hindex hvalue
          obtain ⟨i, v⟩ := p
          obtain ⟨j, u⟩ := q
          dsimp only at hindex hvalue
          rw [ih hindex.2 hvalue.2, hindex.1, hvalue.1]

/-- Conditions with the same values, numbered from `n` and from `m` on, differ by a move. -/
theorem Expr.eq_map_moved {n m : Nat} {e e' : Expr Placeholder}
    (hvalue : e'.map Placeholder.value = e.map Placeholder.value) (h : Consecutive n e.bounds)
    (h' : Consecutive m e'.bounds) : e' = e.map (Placeholder.moved n m) := by
  have hshape : e'.shape = e.shape := by
    rw [← Expr.shape_map Placeholder.value e', hvalue, Expr.shape_map]
  have hlength := Expr.length_bounds_of_shape_eq hshape
  have hindex : (List.range' (n + 1) e.bounds.length).map (fun i => i - n + m) =
      List.range' (m + 1) e.bounds.length := by
    apply List.ext_getElem
    · simp
    · intro i _ _
      simp only [List.getElem_map, List.getElem_range']
      omega
  apply Expr.eq_of_shape_eq
  · rw [Expr.shape_map, hshape]
  · rw [Expr.bounds_map]
    apply Placeholder.eq_of_map_eq
    · calc e'.bounds.map Placeholder.index
          = List.range' (m + 1) e.bounds.length := by rw [h', hlength]
        _ = (e.bounds.map Placeholder.index).map (fun i => i - n + m) := by rw [h, hindex]
        _ = (e.bounds.map (Placeholder.moved n m)).map Placeholder.index := by
            rw [List.map_map, List.map_map]
            rfl
    · calc e'.bounds.map Placeholder.value
          = e.bounds.map Placeholder.value := by
            rw [← Expr.bounds_map, hvalue, Expr.bounds_map]
        _ = (e.bounds.map (Placeholder.moved n m)).map Placeholder.value := by
            rw [List.map_map]
            rfl

namespace Target

variable {t : Target} {es : Entries Json}

/-- A filter with its values in place has a condition with the same values bound behind any list. -/
theorem exists_filter {b : Expr Param} (h : Inline.filter t es = .ok b) (args : Arguments) :
    ∃ e, t.filter es args = .ok e (args.extend (e.bounds.map Placeholder.value)) ∧
      e.map Placeholder.value = b ∧ Consecutive args.size e.bounds := by
  have hbinds := filter_binds (t := t) es args
  rw [h] at hbinds
  obtain ⟨e, he, hvalue, hconsecutive⟩ := hbinds
  simp only [Expr.boundsAll, List.append_nil] at he hconsecutive
  simp only [inlined, List.map_cons, List.map_nil, List.cons.injEq, and_true] at hvalue
  exact ⟨e, he, hvalue, hconsecutive⟩

theorem inline_of_filter {args args' : Arguments} {e : Expr Placeholder}
    (h : t.filter es args = .ok e args') :
    Inline.filter t es = .ok (e.map Placeholder.value) ∧
      args' = args.extend (e.bounds.map Placeholder.value) ∧ Consecutive args.size e.bounds := by
  cases hinline : Inline.filter t es with
  | error err =>
      have hbinds := filter_binds (t := t) es args
      rw [hinline] at hbinds
      obtain ⟨rest, hrest⟩ := hbinds
      rw [h] at hrest
      cases hrest
  | ok b =>
      obtain ⟨e', he', rfl, hconsecutive⟩ := exists_filter hinline args
      rw [h] at he'
      cases he'
      exact ⟨rfl, rfl, hconsecutive⟩

theorem filter_wellFormed {args args' : Arguments} {e : Expr Placeholder}
    (h : t.filter es args = .ok e args') : e.WellFormed :=
  (filter_gives buildsConditions_proper (fun _ _ _ => trivial) es args).of_ok h

/-- **The values of a filter are bound once, in the order of the document.**  Those bound before
stay as they are.  The placeholders in the text of the condition are the numbers that follow, in
order.  From any other list of values the filter binds the same values, and its condition is the
same with all numbers moved by the difference. -/
theorem filter_in_order {args args' : Arguments} {e : Expr Placeholder}
    (h : t.filter es args = .ok e args') :
    args'.offset = args.offset ∧
    args'.values = args.values ++ (t.table.table.entriesValues es).map Param.ofJson ∧
    Lexer.placeholders? e.sql =
      some (List.range' (args.size + 1) (t.table.table.entriesValues es).length) ∧
    e.bounds.map Placeholder.value = (t.table.table.entriesValues es).map Param.ofJson ∧
    ∀ other : Arguments, t.filter es other = .ok (e.map (Placeholder.moved args.size other.size))
      ⟨other.offset, other.values ++ (t.table.table.entriesValues es).map Param.ofJson⟩ := by
  obtain ⟨hinline, hargs, hconsecutive⟩ := inline_of_filter h
  have hvalues : e.bounds.map Placeholder.value =
      (t.table.table.entriesValues es).map Param.ofJson := by
    rw [← Expr.bounds_map]
    exact Inline.bounds_filter hinline
  have hlength : e.bounds.length = (t.table.table.entriesValues es).length := by
    simpa using congrArg List.length hvalues
  rw [hvalues] at hargs
  refine ⟨by rw [hargs]; rfl, by rw [hargs]; rfl, ?_, hvalues, fun other => ?_⟩
  · rw [Expr.placeholders?_sql (filter_wellFormed h), hconsecutive, hlength]
  · obtain ⟨e', hother, hvalue, hconsecutive'⟩ := exists_filter hinline other
    rw [hother, ← Expr.bounds_map, hvalue, Expr.bounds_map, hvalues,
      Expr.eq_map_moved hvalue hconsecutive hconsecutive']
    rfl

end Target

namespace Sample

/-- Posts with a title, a score, tags and data of their own. -/
def catalogue : Target where
  table := ⟨"Posts", ⟨[("_id", textColumn), ("title", ⟨.column ⟨.scalar .text, true⟩, []⟩),
    ("score", ⟨.column ⟨.scalar .doublePrecision, false⟩, []⟩),
    ("tags", ⟨.column ⟨.array (.scalar .text), true⟩, []⟩),
    ("data", ⟨.column ⟨.scalar .jsonb, true⟩, []⟩)], []⟩⟩
  label := some "p"
  caseInsensitive := false

/-- A title, one of two tags or a list inside the data, and a score that is not too high. -/
def hot : Entries Json :=
  [("$comment", .str "hot"), ("title", .str "a"),
    ("$or", .arr [.obj [("tags", .obj [("$in", .arr [.str "x", .str "y"])])],
      .obj [("data.k", .obj [("$all", .arr [.int 1])])]]),
    ("score", .obj [("$not", .obj [("$gt", .int 3)]), ("$exists", .bool true)])]

end Sample

theorem Target.filter_in_order_sample :
    ∃ e args', Sample.catalogue.filter Sample.hot ⟨2, [.bool true]⟩ = .ok e args' ∧
      args'.values = [.bool true, .str "a", .str "x", .str "y", .json (.arr [.int 1]), .int 3] ∧
      Lexer.placeholders? e.sql = some [4, 5, 6, 7, 8] ∧
      Sample.catalogue.filter Sample.hot .empty = .ok (e.map (Placeholder.moved 3 0))
        ⟨0, [.str "a", .str "x", .str "y", .json (.arr [.int 1]), .int 3]⟩ := by
  obtain ⟨e, args', h⟩ : ∃ e args',
      Sample.catalogue.filter Sample.hot ⟨2, [.bool true]⟩ = .ok e args' := ⟨_, _, rfl⟩
  obtain ⟨-, hvalues, htext, -, hother⟩ := filter_in_order h
  exact ⟨e, args', h, hvalues, htext, hother .empty⟩

end ShapedQuery
