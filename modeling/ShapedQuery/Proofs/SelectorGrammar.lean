import ShapedQuery.Proofs.SelectorValues
import Mathlib.Data.List.Basic
import Mathlib.Tactic.SplitIfs

/-! # The grammar of filters

Which filters become a condition, said without the compiler.  Behind a field stands a value, which
it must equal, or an object of operators, each with an operand of its kind (`OperatorForm`).  An
entry of a filter is a connective of further filters, a comment, or such a field (`EntryForm`).

`Target.filter_accepts` says that the compiler accepts exactly the filters whose entries have this
form, whatever values are bound before: a key that it does not know, at any depth, is never passed
over.  Acceptance is followed through the compiler by `SucceedsIff`, which has one law for each way
of putting steps together. -/

namespace ShapedQuery

/-! ### Steps that succeed under a condition -/

section succeeds

variable {α β : Type} {x : Bind α} {P Q : Prop}

/-- The step succeeds exactly if `P` holds, whatever values are bound before. -/
def SucceedsIff (x : Bind α) (P : Prop) : Prop :=
  ∀ args, (∃ a args', x args = .ok a args') ↔ P

namespace SucceedsIff

theorem congr (h : SucceedsIff x P) (hiff : P ↔ Q) : SucceedsIff x Q :=
  fun args => (h args).trans hiff

theorem pure (a : α) : SucceedsIff (Pure.pure a : Bind α) True :=
  fun args => ⟨fun _ => trivial, fun _ => ⟨a, args, rfl⟩⟩

theorem throw (e : QueryError) : SucceedsIff (MonadExcept.throw e : Bind α) False := by
  intro args
  refine ⟨?_, False.elim⟩
  rintro ⟨a, args', h⟩
  cases h

theorem bind {k : α → Bind β} (hx : SucceedsIff x P) (hk : ∀ a, SucceedsIff (k a) Q) :
    SucceedsIff (x >>= k) (P ∧ Q) := by
  intro args
  show (∃ b args', EStateM.bind x k args = .ok b args') ↔ P ∧ Q
  unfold EStateM.bind
  cases h : x args with
  | ok a args₁ =>
      have hP : P := (hx args).mp ⟨a, args₁, h⟩
      rw [and_iff_right hP]
      exact hk a args₁
  | error e args₁ =>
      have hP : ¬ P := by
        intro hp
        obtain ⟨a, args', ha⟩ := (hx args).mpr hp
        rw [h] at ha
        cases ha
      refine ⟨?_, fun hpq => absurd hpq.1 hP⟩
      rintro ⟨b, args', hb⟩
      cases hb

/-- The result of a step is only put into another form. -/
theorem map (hx : SucceedsIff x P) (f : α → β) :
    SucceedsIff (x >>= fun a => Pure.pure (f a)) P :=
  (hx.bind fun a => .pure (f a)).congr (and_iff_left trivial)

theorem ite {p : Prop} [Decidable p] {y : Bind α} (hx : SucceedsIff x P) (hy : SucceedsIff y Q) :
    SucceedsIff (if p then x else y) (if p then P else Q) := by
  by_cases h : p
  · simpa only [if_pos h] using hx
  · simpa only [if_neg h] using hy

end SucceedsIff

end succeeds

theorem bindValue_succeeds (j : Json) : SucceedsIff (bindValue j) True :=
  fun _ => ⟨fun _ => trivial, fun _ => ⟨_, _, rfl⟩⟩

theorem bindEach_succeeds {f : Json → Bind (Expr Placeholder)} (hf : ∀ j, SucceedsIff (f j) True)
    (js : List Json) : SucceedsIff (bindEach f js) True := by
  induction js with
  | nil => exact .pure []
  | cons j js ih => exact ((hf j).bind fun e => ih.map (e :: ·)).congr (and_iff_left trivial)

/-! ### The grammar -/

/-- A single value: a boolean, a number or a string. -/
def Json.isSingle : Json → Bool
  | .bool _ => true
  | .int _ => true
  | .float _ => true
  | .str _ => true
  | _ => false

/-- An operator and its operand, behind a column, or if `inside` holds behind a place inside its
JSON values. -/
inductive OperatorForm (c : Column) (inside : Bool) : String → Json → Prop where
  | equality {name : String} (v : Json) : name ∈ ["$eq", "$ne"] → OperatorForm c inside name v
  | comparison {name : String} {v : Json} : name ∈ ["$lt", "$lte", "$gt", "$gte"] →
      v.isSingle = true → OperatorForm c inside name v
  | membership {name : String} (items : List Json) : name ∈ ["$in", "$nin"] →
      OperatorForm c inside name (.arr items)
  | all (items : List Json) : c.type.isArray = true ∧ inside = false ∨ inside = true →
      OperatorForm c inside "$all" (.arr items)
  | existence (b : Bool) : OperatorForm c inside "$exists" (.bool b)
  | negation {entries : List (String × Json)} : entries ≠ [] →
      (∀ k ∈ entries, isOperatorName k.1 = true) →
      (∀ k ∈ entries, OperatorForm c inside k.1 k.2) → OperatorForm c inside "$not" (.obj entries)
  | size {n : Int} : 0 ≤ n → c.type.isArray = true → inside = false →
      OperatorForm c inside "$size" (.int n)

/-- The part of a field's name before the first dot. -/
def firstSegment (key : String) : String := String.ofList (key.toList.takeWhile (· != '.'))

/-- An entry of a filter on the rows of a table. -/
inductive EntryForm (t : Table) : String → Json → Prop where
  /-- A connective of filters. -/
  | filters {name : String} {items : List Json} : name ∈ ["$and", "$or"] →
      (∀ j ∈ items, ∃ es, j = .obj es) →
      (∀ es, .obj es ∈ items → ∀ k ∈ es, EntryForm t k.1 k.2) → EntryForm t name (.arr items)
  /-- A connective of the entries of an object, each a filter of its own. -/
  | singles {name : String} {es : List (String × Json)} : name ∈ ["$and", "$or"] →
      (∀ k ∈ es, EntryForm t k.1 k.2) → EntryForm t name (.obj es)
  | comment (v : Json) : EntryForm t "$comment" v
  | field {key : String} {c : Column} {v : Json} : isOperatorName key = false →
      t.column? (firstSegment key) = some c → (isDotted key = true → c.isJson = true) →
      (∀ es, v = .obj es → es ≠ [] → (∀ k ∈ es, isOperatorName k.1 = true) →
        ∀ k ∈ es, OperatorForm c (isDotted key) k.1 k.2) → EntryForm t key v

theorem isOperatorObject_iff (entries : List (String × Json)) : isOperatorObject entries = true ↔
    entries ≠ [] ∧ ∀ k ∈ entries, isOperatorName k.1 = true := by
  simp [isOperatorObject]

/-! ### Operators -/

namespace Operand

variable (o : Operand)

theorem right_succeeds (v : Json) : SucceedsIff (o.right v) True := by
  refine ((bindValue_succeeds v).bind fun e => ?_).congr (and_iff_left trivial)
  split
  · exact .pure _
  · split
    · exact .pure _
    · exact .pure _

theorem item_succeeds (v : Json) : SucceedsIff (o.item v) True := by
  refine ((bindValue_succeeds v).bind fun e => ?_).congr (and_iff_left trivial)
  cases o.itemType? with
  | none => exact .pure _
  | some type => exact .pure _

theorem equals_succeeds (v : Json) : SucceedsIff (o.equals v) True := by
  have other : SucceedsIff
      (if o.isArray && !v.isArray then do
          let e ← o.item v
          pure (.binary (o.left v) .contains (.array [e]))
        else do
          let e ← o.right v
          pure (.binary (o.left v) .eq e) : Bind (Expr Placeholder)) True := by
    split
    · exact (o.item_succeeds v).map _
    · exact (o.right_succeeds v).map _
  cases v with
  | null => exact .pure _
  | bool b => cases b <;> exact .pure _
  | int n => exact other
  | float x => exact other
  | str s => exact other
  | arr items => exact other
  | obj entries => exact other

theorem notEquals_succeeds (v : Json) : SucceedsIff (o.notEquals v) True := by
  have other : SucceedsIff
      (if o.isArray && !v.isArray then do
          let e ← o.equals v
          pure (.not e)
        else do
          let e ← o.right v
          pure (.binary (o.left v) (if o.isNullable then .distinctFrom else .ne) e) :
        Bind (Expr Placeholder)) True := by
    split
    · exact (o.equals_succeeds v).map _
    · exact (o.right_succeeds v).map _
  cases v with
  | null => exact .pure _
  | bool b => cases b <;> exact .pure _
  | int n => exact other
  | float x => exact other
  | str s => exact other
  | arr items => exact other
  | obj entries => exact other

theorem compare_succeeds (name : String) (op : BinaryOp) (v : Json) :
    SucceedsIff (o.compare name op v) (v.isSingle = true) := by
  have single (h : v.isSingle = true) : SucceedsIff (do
      let e ← o.right v
      pure (.binary (o.left v) op e) : Bind (Expr Placeholder)) (v.isSingle = true) :=
    ((o.right_succeeds v).map _).congr (iff_of_true trivial h)
  cases v with
  | bool b => exact single rfl
  | int n => exact single rfl
  | float x => exact single rfl
  | str s => exact single rfl
  | null => exact (SucceedsIff.throw _).congr (by simp [Json.isSingle])
  | arr items => exact (SucceedsIff.throw _).congr (by simp [Json.isSingle])
  | obj entries => exact (SucceedsIff.throw _).congr (by simp [Json.isSingle])

theorem isOneOf_succeeds (first : Json) (rest : List Json) :
    SucceedsIff (o.isOneOf first rest) True := by
  unfold isOneOf
  split
  · exact (bindEach_succeeds o.item_succeeds _).map _
  · exact (bindEach_succeeds o.right_succeeds _).map _

theorem isIn_succeeds (v : Json) : SucceedsIff (o.isIn v) (v.isArray = true) := by
  match v with
  | .arr [] => exact (SucceedsIff.pure _).congr (by simp [Json.isArray])
  | .arr (first :: rest) => exact (o.isOneOf_succeeds first rest).congr (by simp [Json.isArray])
  | .null => exact (SucceedsIff.throw _).congr (by simp [Json.isArray])
  | .bool _ => exact (SucceedsIff.throw _).congr (by simp [Json.isArray])
  | .int _ => exact (SucceedsIff.throw _).congr (by simp [Json.isArray])
  | .float _ => exact (SucceedsIff.throw _).congr (by simp [Json.isArray])
  | .str _ => exact (SucceedsIff.throw _).congr (by simp [Json.isArray])
  | .obj _ => exact (SucceedsIff.throw _).congr (by simp [Json.isArray])

theorem isNotIn_succeeds (v : Json) : SucceedsIff (o.isNotIn v) (v.isArray = true) := by
  match v with
  | .arr [] => exact (SucceedsIff.pure _).congr (by simp [Json.isArray])
  | .arr (first :: rest) =>
      exact ((o.isOneOf_succeeds first rest).map _).congr (by simp [Json.isArray])
  | .null => exact (SucceedsIff.throw _).congr (by simp [Json.isArray])
  | .bool _ => exact (SucceedsIff.throw _).congr (by simp [Json.isArray])
  | .int _ => exact (SucceedsIff.throw _).congr (by simp [Json.isArray])
  | .float _ => exact (SucceedsIff.throw _).congr (by simp [Json.isArray])
  | .str _ => exact (SucceedsIff.throw _).congr (by simp [Json.isArray])
  | .obj _ => exact (SucceedsIff.throw _).congr (by simp [Json.isArray])

/-- A list of values fits an array column, or a place inside a JSON column. -/
theorem containsAll_succeeds (v : Json) : SucceedsIff (o.containsAll v)
    (v.isArray = true ∧
      (o.column.type.isArray = true ∧ (!o.isPlain) = false ∨ (!o.isPlain) = true)) := by
  cases v with
  | arr values =>
      unfold containsAll
      refine (SucceedsIff.ite (.throw _) ?_ (P := False) (Q := True)).congr ?_
      · split
        · exact .pure _
        · split
          · exact (bindEach_succeeds o.item_succeeds values).map _
          · exact (o.right_succeeds _).map _
      · cases hp : o.isPlain <;> simp [isArray, Json.isArray, hp]
  | null => exact (SucceedsIff.throw _).congr (by simp [Json.isArray])
  | bool b => exact (SucceedsIff.throw _).congr (by simp [Json.isArray])
  | int n => exact (SucceedsIff.throw _).congr (by simp [Json.isArray])
  | float x => exact (SucceedsIff.throw _).congr (by simp [Json.isArray])
  | str s => exact (SucceedsIff.throw _).congr (by simp [Json.isArray])
  | obj entries => exact (SucceedsIff.throw _).congr (by simp [Json.isArray])

theorem exists?_succeeds (v : Json) : SucceedsIff (o.exists? v) (∃ b, v = .bool b) := by
  cases v with
  | bool b => exact (SucceedsIff.pure _).congr (by simp)
  | null => exact (SucceedsIff.throw _).congr (by simp)
  | int n => exact (SucceedsIff.throw _).congr (by simp)
  | float x => exact (SucceedsIff.throw _).congr (by simp)
  | str s => exact (SucceedsIff.throw _).congr (by simp)
  | arr items => exact (SucceedsIff.throw _).congr (by simp)
  | obj entries => exact (SucceedsIff.throw _).congr (by simp)

theorem hasSize_succeeds (v : Json) : SucceedsIff (o.hasSize v)
    (o.isArray = true ∧ ∃ n : Int, v = .int n ∧ 0 ≤ n) := by
  unfold hasSize
  by_cases ha : o.isArray = true
  · have hcond : (!o.isArray) = false := by rw [ha]; rfl
    rw [hcond, if_neg Bool.false_ne_true]
    cases v with
    | int n =>
        refine (SucceedsIff.ite ((o.right_succeeds (.int n)).map _) (.throw _)).congr ?_
        simp [ha]
    | null => exact (SucceedsIff.throw _).congr (by simp)
    | bool b => exact (SucceedsIff.throw _).congr (by simp)
    | float x => exact (SucceedsIff.throw _).congr (by simp)
    | str s => exact (SucceedsIff.throw _).congr (by simp)
    | arr items => exact (SucceedsIff.throw _).congr (by simp)
    | obj entries => exact (SucceedsIff.throw _).congr (by simp)
  · have hcond : (!o.isArray) = true := by simpa using ha
    rw [hcond, if_pos rfl]
    exact (SucceedsIff.throw _).congr (by simp [ha])

/-- The form of an operator behind the operand's field. -/
abbrev Form (name : String) (v : Json) : Prop := OperatorForm o.column (!o.isPlain) name v

theorem operators_succeeds_of {entries : List (String × Json)}
    (h : ∀ k ∈ entries, ∀ name, SucceedsIff (o.operator name k.2) (o.Form name k.2)) :
    SucceedsIff (o.operators entries) (∀ k ∈ entries, o.Form k.1 k.2) := by
  induction entries with
  | nil =>
      unfold operators
      exact (SucceedsIff.pure _).congr (by simp)
  | cons k entries ih =>
      rw [List.forall_mem_cons] at h
      unfold operators
      refine ((h.1 k.1).bind fun e => (ih h.2).map (e :: ·)).congr ?_
      rw [List.forall_mem_cons]

/-- What an operator asks of its operand; `negated` is what a negation asks. -/
def asks (name : String) (v : Json) (negated : Prop) : Prop :=
  if name = "$eq" then True
  else if name = "$ne" then True
  else if name = "$lt" then v.isSingle = true
  else if name = "$lte" then v.isSingle = true
  else if name = "$gt" then v.isSingle = true
  else if name = "$gte" then v.isSingle = true
  else if name = "$in" then v.isArray = true
  else if name = "$nin" then v.isArray = true
  else if name = "$all" then v.isArray = true ∧
    (o.column.type.isArray = true ∧ (!o.isPlain) = false ∨ (!o.isPlain) = true)
  else if name = "$exists" then ∃ b, v = .bool b
  else if name = "$not" then negated
  else if name = "$size" then o.isArray = true ∧ ∃ n : Int, v = .int n ∧ 0 ≤ n
  else False

/-- The operand of a negation: an object of operators. -/
def Negated (v : Json) : Prop :=
  ∃ entries, v = .obj entries ∧ isOperatorObject entries = true ∧ ∀ k ∈ entries, o.Form k.1 k.2

theorem isArray_eq_true {o : Operand} :
    o.isArray = true ↔ o.column.type.isArray = true ∧ (!o.isPlain) = false := by
  simp [isArray, and_comm]

theorem exists_items {v : Json} (h : v.isArray = true) : ∃ items, v = .arr items := by
  cases v with
  | arr items => exact ⟨items, rfl⟩
  | null => cases h
  | bool b => cases h
  | int n => cases h
  | float x => cases h
  | str s => cases h
  | obj entries => cases h

theorem form_iff (name : String) (v : Json) :
    o.Form name v ↔ o.asks name v (o.Negated v) := by
  constructor
  · intro h
    cases h with
    | equality v hname =>
        rcases List.mem_pair.mp hname with rfl | rfl <;> trivial
    | comparison hname hv =>
        simp only [List.mem_cons, List.not_mem_nil, or_false] at hname
        rcases hname with rfl | rfl | rfl | rfl <;> exact hv
    | membership items hname =>
        rcases List.mem_pair.mp hname with rfl | rfl <;> exact rfl
    | all items hfield => exact ⟨rfl, hfield⟩
    | existence b => exact ⟨b, rfl⟩
    | negation hne hnames hforms =>
        exact ⟨_, rfl, (isOperatorObject_iff _).mpr ⟨hne, hnames⟩, hforms⟩
    | size hn harray hplain =>
        exact ⟨isArray_eq_true.mpr ⟨harray, hplain⟩, _, rfl, hn⟩
  · intro h
    unfold asks at h
    by_cases hname : name = "$eq"
    · exact .equality v (by simp [hname])
    rw [if_neg hname] at h
    by_cases hname : name = "$ne"
    · exact .equality v (by simp [hname])
    rw [if_neg hname] at h
    by_cases hname : name = "$lt"
    · rw [if_pos hname] at h
      exact .comparison (by simp [hname]) h
    rw [if_neg hname] at h
    by_cases hname : name = "$lte"
    · rw [if_pos hname] at h
      exact .comparison (by simp [hname]) h
    rw [if_neg hname] at h
    by_cases hname : name = "$gt"
    · rw [if_pos hname] at h
      exact .comparison (by simp [hname]) h
    rw [if_neg hname] at h
    by_cases hname : name = "$gte"
    · rw [if_pos hname] at h
      exact .comparison (by simp [hname]) h
    rw [if_neg hname] at h
    by_cases hname : name = "$in"
    · rw [if_pos hname] at h
      obtain ⟨items, rfl⟩ := exists_items h
      exact .membership items (by simp [hname])
    rw [if_neg hname] at h
    by_cases hname : name = "$nin"
    · rw [if_pos hname] at h
      obtain ⟨items, rfl⟩ := exists_items h
      exact .membership items (by simp [hname])
    rw [if_neg hname] at h
    by_cases hname : name = "$all"
    · rw [if_pos hname] at h
      obtain ⟨items, rfl⟩ := exists_items h.1
      rw [hname]
      exact .all items h.2
    rw [if_neg hname] at h
    by_cases hname : name = "$exists"
    · rw [if_pos hname] at h
      obtain ⟨b, rfl⟩ := h
      rw [hname]
      exact .existence b
    rw [if_neg hname] at h
    by_cases hname : name = "$not"
    · rw [if_pos hname] at h
      obtain ⟨entries, rfl, hobject, hforms⟩ := h
      obtain ⟨hne, hnames⟩ := (isOperatorObject_iff entries).mp hobject
      rw [hname]
      exact .negation hne hnames hforms
    rw [if_neg hname] at h
    by_cases hname : name = "$size"
    · rw [if_pos hname] at h
      obtain ⟨harray, n, rfl, hn⟩ := h
      obtain ⟨hcolumn, hplain⟩ := isArray_eq_true.mp harray
      rw [hname]
      exact .size hn hcolumn hplain
    rw [if_neg hname] at h
    exact h.elim

/-- An operator, given what a negation does. -/
theorem operator_succeeds_of (name : String) (v : Json) (hn : SucceedsIff
      (match v with
        | .obj entries =>
          if isOperatorObject entries then do
            let es ← o.operators entries
            pure (.not (.allOf es))
          else throw (.invalidOperand name .operatorObject)
        | _ => throw (.invalidOperand name .operatorObject) : Bind (Expr Placeholder))
      (o.Negated v)) :
    SucceedsIff (o.operator name v) (o.Form name v) := by
  refine SucceedsIff.congr ?_ (o.form_iff name v).symm
  unfold operator asks
  exact .ite (o.equals_succeeds v) <| .ite (o.notEquals_succeeds v) <|
    .ite (o.compare_succeeds name .lt v) <| .ite (o.compare_succeeds name .le v) <|
    .ite (o.compare_succeeds name .gt v) <| .ite (o.compare_succeeds name .ge v) <|
    .ite (o.isIn_succeeds v) <| .ite (o.isNotIn_succeeds v) <|
    .ite (o.containsAll_succeeds v) <| .ite (o.exists?_succeeds v) <| .ite hn <|
    .ite (o.hasSize_succeeds v) (.throw _)

/-- An operator is accepted exactly if its operand has the right form, by induction over the
operand: a negation goes on with the operators inside. -/
theorem operator_succeeds (v : Json) (name : String) :
    SucceedsIff (o.operator name v) (o.Form name v) := by
  induction v using Json.operand_induct generalizing name with
  | other v hv =>
      apply o.operator_succeeds_of
      split
      · exact absurd rfl (hv _)
      · refine (SucceedsIff.throw _).congr ⟨False.elim, ?_⟩
        rintro ⟨entries, rfl, -⟩
        exact hv entries rfl
  | obj entries ih =>
      refine o.operator_succeeds_of name _ ?_
      refine (SucceedsIff.ite ((o.operators_succeeds_of ih).map _) (.throw _)).congr ?_
      by_cases h : isOperatorObject entries = true
      · simp [Negated, h]
      · simp [Negated, h]

end Operand

/-! ### Fields -/

namespace FieldPath

/-- The first part ends before the first dot, and there are further parts if there is a dot. -/
theorem exists_segments (cs : List Char) : ∃ rest, segments cs = cs.takeWhile (· != '.') :: rest ∧
    (rest.isEmpty = !cs.contains '.') := by
  induction cs with
  | nil => exact ⟨[], rfl, rfl⟩
  | cons c cs ih =>
      obtain ⟨rest, hsegments, hrest⟩ := ih
      by_cases hc : c = '.'
      · subst hc
        exact ⟨segments cs, by simp [segments], by simp [hsegments]⟩
      · refine ⟨rest, by simp [segments, hc, hsegments], ?_⟩
        rw [hrest]
        simp [Ne.symm hc]

theorem column_split (key : String) : (split key).column = firstSegment key := by
  obtain ⟨rest, hsegments, -⟩ := exists_segments key.toList
  simp only [split, hsegments]
  rfl

theorem isEmpty_steps_split (key : String) : (split key).steps.isEmpty = !isDotted key := by
  obtain ⟨rest, hsegments, hrest⟩ := exists_segments key.toList
  simp only [split, hsegments, List.isEmpty_map]
  exact hrest

end FieldPath

namespace Operand

/-- The field with a name is a column, and holds JSON if the name goes on behind a dot. -/
theorem ofField_eq_ok {t : Target} {key : String} {o : Operand} (h : ofField t key = .ok o) :
    t.table.table.column? (firstSegment key) = some o.column ∧
      (isDotted key = true → o.column.isJson = true) ∧ (!o.isPlain) = isDotted key := by
  unfold ofField at h
  dsimp only at h
  rw [FieldPath.column_split, FieldPath.isEmpty_steps_split, Bool.not_not] at h
  unfold NamedTable.lookupColumn at h
  cases hc : t.table.table.column? (firstSegment key) with
  | none =>
      rw [hc] at h
      cases h
  | some c =>
      rw [hc] at h
      dsimp only at h
      split at h
      · cases h
      · rename_i hjson
        cases h
        refine ⟨rfl, fun hd => by simpa [hd] using hjson, ?_⟩
        rw [isPlain, FieldPath.isEmpty_steps_split, Bool.not_not]

theorem exists_ofField {t : Target} {key : String} {c : Column}
    (hc : t.table.table.column? (firstSegment key) = some c)
    (hjson : isDotted key = true → c.isJson = true) : ∃ o, ofField t key = .ok o := by
  have hcond : ¬ (isDotted key && !c.isJson) = true := by
    intro h
    rw [Bool.and_eq_true] at h
    have hc := hjson h.1
    rw [hc] at h
    cases h.2
  unfold ofField
  dsimp only
  rw [FieldPath.column_split, FieldPath.isEmpty_steps_split, Bool.not_not]
  unfold NamedTable.lookupColumn
  rw [hc]
  dsimp only
  rw [if_neg hcond]
  exact ⟨_, rfl⟩

end Operand

namespace Target

variable (t : Target)

/-- The form of a field and of the value behind it. -/
def FieldForm (t : Table) (key : String) (v : Json) : Prop :=
  ∃ c, t.column? (firstSegment key) = some c ∧ (isDotted key = true → c.isJson = true) ∧
    ∀ es, v = .obj es → isOperatorObject es = true → ∀ k ∈ es, OperatorForm c (isDotted key) k.1 k.2

theorem field_succeeds (key : String) (v : Json) :
    SucceedsIff (t.field key v) (FieldForm t.table.table key v) := by
  unfold field
  cases ho : Operand.ofField t key with
  | error e =>
      refine (SucceedsIff.throw _).congr ⟨False.elim, ?_⟩
      rintro ⟨c, hc, hjson, -⟩
      obtain ⟨o, ho'⟩ := Operand.exists_ofField hc hjson
      rw [ho] at ho'
      cases ho'
  | ok o =>
      obtain ⟨hc, hjson, hplain⟩ := Operand.ofField_eq_ok ho
      have hform : FieldForm t.table.table key v ↔
          ∀ es, v = .obj es → isOperatorObject es = true → ∀ k ∈ es, o.Form k.1 k.2 := by
        unfold FieldForm Operand.Form
        rw [hc, hplain]
        constructor
        · rintro ⟨c, ⟨⟩, -, h⟩
          exact h
        · intro h
          exact ⟨_, rfl, hjson, h⟩
      refine SucceedsIff.congr ?_ hform.symm
      have equal (hv : ∀ es, v ≠ .obj es) : SucceedsIff (o.equals v)
          (∀ es, v = .obj es → isOperatorObject es = true → ∀ k ∈ es, o.Form k.1 k.2) :=
        (o.equals_succeeds v).congr (iff_of_true trivial fun es he => absurd he (hv es))
      cases v with
      | obj entries =>
          have hoperators : SucceedsIff (o.operators entries) (∀ k ∈ entries, o.Form k.1 k.2) :=
            o.operators_succeeds_of fun k _ name => o.operator_succeeds k.2 name
          refine (SucceedsIff.ite (hoperators.map _) (o.equals_succeeds _)).congr ?_
          by_cases h : isOperatorObject entries = true
          · simp [h]
          · simp [h]
      | null => exact equal fun _ h => by cases h
      | bool b => exact equal fun _ h => by cases h
      | int n => exact equal fun _ h => by cases h
      | float x => exact equal fun _ h => by cases h
      | str s => exact equal fun _ h => by cases h
      | arr items => exact equal fun _ h => by cases h

/-! ### Entries -/

/-- An entry is accepted exactly if it has the right form. -/
def EntrySucceeds (v : Json) : Prop :=
  ∀ key, SucceedsIff (t.entry key v) (EntryForm t.table.table key v)

variable {t}

theorem entries_succeeds_of {es : List (String × Json)} (h : ∀ k ∈ es, t.EntrySucceeds k.2) :
    SucceedsIff (t.entries es) (∀ k ∈ es, EntryForm t.table.table k.1 k.2) := by
  induction es with
  | nil =>
      unfold entries
      exact (SucceedsIff.pure _).congr (by simp)
  | cons k es ih =>
      rw [List.forall_mem_cons] at h
      unfold entries
      refine ((h.1 k.1).bind fun e => (ih h.2).map (e.toList ++ ·)).congr ?_
      rw [List.forall_mem_cons]

theorem singles_succeeds_of {es : List (String × Json)} (h : ∀ k ∈ es, t.EntrySucceeds k.2) :
    SucceedsIff (t.singles es) (∀ k ∈ es, EntryForm t.table.table k.1 k.2) := by
  induction es with
  | nil =>
      unfold singles
      exact (SucceedsIff.pure _).congr (by simp)
  | cons k es ih =>
      rw [List.forall_mem_cons] at h
      unfold singles
      refine ((h.1 k.1).bind fun e => (ih h.2).map (.allOf e.toList :: ·)).congr ?_
      rw [List.forall_mem_cons]

/-- A value that is a filter. -/
def FilterForm (t : Table) (j : Json) : Prop :=
  ∃ es, j = .obj es ∧ ∀ k ∈ es, EntryForm t k.1 k.2

theorem filters_succeeds_of (connective : String) {items : List Json}
    (h : ∀ j ∈ items, ∀ es, j = .obj es → ∀ k ∈ es, t.EntrySucceeds k.2) :
    SucceedsIff (t.filters connective items) (∀ j ∈ items, FilterForm t.table.table j) := by
  induction items with
  | nil =>
      unfold filters
      exact (SucceedsIff.pure _).congr (by simp)
  | cons j items ih =>
      rw [List.forall_mem_cons] at h
      have refused (hj : ∀ es, j ≠ .obj es) : SucceedsIff
          (throw (.invalidOperand connective .arrayOfObjects) : Bind (List (Expr Placeholder)))
          (∀ j' ∈ j :: items, FilterForm t.table.table j') := by
        refine (SucceedsIff.throw _).congr ⟨False.elim, fun hall => ?_⟩
        obtain ⟨es, hes, -⟩ := hall j List.mem_cons_self
        exact hj es hes
      unfold filters
      cases j with
      | obj es =>
          refine ((entries_succeeds_of (h.1 es rfl)).bind fun cs =>
            (ih h.2).map (.allOf cs :: ·)).congr ?_
          simp [FilterForm]
      | null => exact refused fun _ h => by cases h
      | bool b => exact refused fun _ h => by cases h
      | int n => exact refused fun _ h => by cases h
      | float x => exact refused fun _ h => by cases h
      | str s => exact refused fun _ h => by cases h
      | arr items => exact refused fun _ h => by cases h

/-- What a connective combines: filters, or the entries of an object. -/
def OperandsForm (t : Table) (v : Json) : Prop :=
  (∃ items, v = .arr items ∧ ∀ j ∈ items, FilterForm t j) ∨ FilterForm t v

theorem entryForm_iff {t : Table} (key : String) (v : Json) : EntryForm t key v ↔
    if key = "$and" ∨ key = "$or" then OperandsForm t v
    else if key = "$comment" then True
    else if isOperatorName key then False
    else FieldForm t key v := by
  have connective : ∀ {name : String}, name ∈ ["$and", "$or"] → name = "$and" ∨ name = "$or" :=
    fun hname => List.mem_pair.mp hname
  constructor
  · intro h
    cases h with
    | filters hname hobjects hforms =>
        rw [if_pos (connective hname)]
        refine .inl ⟨_, rfl, fun j hj => ?_⟩
        obtain ⟨es, rfl⟩ := hobjects j hj
        exact ⟨es, rfl, hforms es hj⟩
    | singles hname hforms =>
        rw [if_pos (connective hname)]
        exact .inr ⟨_, rfl, hforms⟩
    | comment v => exact trivial
    | field hkey hcolumn hjson hvalue =>
        have hname : ∀ {name : String}, isOperatorName name = true → key ≠ name := by
          rintro name hoperator rfl
          rw [hkey] at hoperator
          cases hoperator
        rw [if_neg (not_or.mpr ⟨hname (by decide), hname (by decide)⟩), if_neg (hname (by decide)),
          if_neg (by rw [hkey]; exact Bool.false_ne_true)]
        refine ⟨_, hcolumn, hjson, fun es hes hobject => ?_⟩
        obtain ⟨hne, hnames⟩ := (isOperatorObject_iff es).mp hobject
        exact hvalue es hes hne hnames
  · intro h
    split_ifs at h with h₁ h₂ h₃
    · have hname : key ∈ ["$and", "$or"] := List.mem_pair.mpr h₁
      rcases h with ⟨items, rfl, hforms⟩ | ⟨es, rfl, hforms⟩
      · refine .filters hname (fun j hj => ?_) fun es hes => ?_
        · obtain ⟨es, rfl, -⟩ := hforms j hj
          exact ⟨es, rfl⟩
        · obtain ⟨es', heq, hes'⟩ := hforms _ hes
          cases heq
          exact hes'
      · exact .singles hname hforms
    · rw [h₂]
      exact .comment v
    · obtain ⟨c, hcolumn, hjson, hvalue⟩ := h
      refine .field (by simpa using h₃) hcolumn hjson fun es hes hne hnames => ?_
      exact hvalue es hes ((isOperatorObject_iff es).mpr ⟨hne, hnames⟩)

/-- An entry, given what the filters of a connective do. -/
theorem entry_succeeds_of {key : String} {v : Json}
    (h : SucceedsIff (t.operands key v) (OperandsForm t.table.table v)) :
    SucceedsIff (t.entry key v) (EntryForm t.table.table key v) := by
  refine SucceedsIff.congr ?_ (entryForm_iff key v).symm
  rw [entry_eq]
  exact .ite (h.map _) <| .ite (.pure none) <| .ite (.throw _) ((t.field_succeeds key v).map some)

/-- An entry is accepted exactly if it has the right form.  The induction is over its value: a
connective takes an array of objects, or an object, whose entries are entries again. -/
theorem entry_succeeds (v : Json) : t.EntrySucceeds v := by
  induction v using Json.filter_induct with
  | scalar v hv =>
      intro key
      apply entry_succeeds_of
      rw [operands_of_scalar hv]
      refine (SucceedsIff.throw _).congr ⟨False.elim, ?_⟩
      rintro (⟨items, rfl, -⟩ | ⟨es, rfl, -⟩) <;> cases hv
  | arr items ih =>
      intro key
      refine entry_succeeds_of ((filters_succeeds_of key ih).congr ?_)
      simp [OperandsForm, FilterForm]
  | obj es ih =>
      intro key
      refine entry_succeeds_of ((singles_succeeds_of ih).congr ?_)
      simp [OperandsForm, FilterForm]

/-- **The compiler accepts exactly the filters of the grammar.**  For every table, alias, way of
comparing texts and list of values bound before, a filter becomes a condition if and only if each
of its entries has the right form. -/
theorem filter_accepts (t : Target) (es : Entries Json) (args : Arguments) :
    (∃ e args', t.filter es args = .ok e args') ↔
      ∀ k ∈ es, EntryForm t.table.table k.1 k.2 := by
  have hentries : SucceedsIff (t.entries es) (∀ k ∈ es, EntryForm t.table.table k.1 k.2) :=
    entries_succeeds_of fun k _ => entry_succeeds k.2
  exact hentries.map Expr.allOf args

end Target

end ShapedQuery
