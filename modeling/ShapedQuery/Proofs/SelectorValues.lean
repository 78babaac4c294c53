import ShapedQuery.Proofs.Inline

/-! # The values of a selector

Compiling a selector binds the values that `Inline.selector` writes in place, one after the other
from left to right, and puts their numbers where they stand (`Target.selector_binds`).  It fails
exactly where `Inline.selector` fails, with the same error.

`Binds x y` says this of a step `x` on an argument list and an inline result `y`; results are
compared as lists of expressions.  It is kept by the ways in which the compiler puts steps
together (`Binds.map`, `Binds.both`), and so holds of every operator, and by induction over the
selector of the whole. -/

namespace ShapedQuery

/-! ### Argument lists -/

namespace Arguments

/-- The list with more values behind. -/
def extend (args : Arguments) (vs : List Param) : Arguments :=
  { args with values := args.values ++ vs }

@[simp] theorem extend_nil (args : Arguments) : args.extend [] = args := by
  simp [extend]

@[simp] theorem extend_extend (args : Arguments) (vs us : List Param) :
    (args.extend vs).extend us = args.extend (vs ++ us) := by
  simp [extend]

@[simp] theorem size_extend (args : Arguments) (vs : List Param) :
    (args.extend vs).size = args.size + vs.length := by
  simp only [extend, size, List.length_append]
  omega

end Arguments

/-- The placeholders have the numbers that follow `n`. -/
def Consecutive (n : Nat) (ps : List Placeholder) : Prop :=
  ps.map Placeholder.index = List.range' (n + 1) ps.length

theorem consecutive_nil (n : Nat) : Consecutive n [] := rfl

theorem Consecutive.append {n : Nat} {ps qs : List Placeholder} (hp : Consecutive n ps)
    (hq : Consecutive (n + ps.length) qs) : Consecutive n (ps ++ qs) := by
  unfold Consecutive at *
  rw [List.map_append, hp, hq, List.length_append, List.range'_append_1.symm]
  congr 2
  omega

/-! ### Steps and inline results -/

/-- The values in place of the placeholders. -/
def inlined (es : List (Expr Placeholder)) : List (Expr Param) :=
  es.map (Expr.map Placeholder.value)

section binds

variable {α β γ δ : Type}

/-- From every argument list, the step `x` fails as `y` does, or gives the result of `y` with its
values bound behind the list and numbered from left to right. -/
def Binds (view : α → List (Expr Placeholder)) (inline : β → List (Expr Param)) (x : Bind α)
    (y : Except QueryError β) : Prop :=
  ∀ args : Arguments, match y with
    | .ok b => ∃ a, x args = .ok a (args.extend ((Expr.boundsAll (view a)).map Placeholder.value)) ∧
        inlined (view a) = inline b ∧ Consecutive args.size (Expr.boundsAll (view a))
    | .error e => ∃ args', x args = .error e args'

variable {view : α → List (Expr Placeholder)} {inline : β → List (Expr Param)}
  {view' : γ → List (Expr Placeholder)} {inline' : δ → List (Expr Param)}

theorem Binds.pure {a : α} {b : β} (hi : inlined (view a) = inline b)
    (hb : Expr.boundsAll (view a) = []) : Binds view inline (Pure.pure a) (.ok b) := by
  intro args
  refine ⟨a, ?_, hi, ?_⟩
  · rw [hb, List.map_nil, Arguments.extend_nil]
    rfl
  · rw [hb]
    exact consecutive_nil _

theorem Binds.throw (e : QueryError) : Binds view inline (MonadExcept.throw e) (.error e) :=
  fun args => ⟨args, rfl⟩

theorem Binds.ite {p : Prop} [Decidable p] {x x' : Bind α} {y y' : Except QueryError β}
    (h : Binds view inline x y) (h' : Binds view inline x' y') :
    Binds view inline (if p then x else x') (if p then y else y') := by
  split
  · exact h
  · exact h'

/-- A step whose result is changed without new values. -/
theorem Binds.map {x : Bind α} {y : Except QueryError β} (h : Binds view inline x y)
    (f : α → γ) (g : β → δ) (hb : ∀ a, Expr.boundsAll (view' (f a)) = Expr.boundsAll (view a))
    (hi : ∀ a b, inlined (view a) = inline b → inlined (view' (f a)) = inline' (g b)) :
    Binds view' inline' (x >>= fun a => Pure.pure (f a)) (y >>= fun b => Pure.pure (g b)) := by
  intro args
  have hx := h args
  cases y with
  | error e =>
      obtain ⟨args', hx⟩ := hx
      refine ⟨args', ?_⟩
      simp only [bind, EStateM.bind, hx]
  | ok b =>
      obtain ⟨a, hx, hin, hc⟩ := hx
      refine ⟨f a, ?_, hi a b hin, ?_⟩
      · simp only [bind, EStateM.bind, hx, hb]
        rfl
      · rw [hb]
        exact hc

/-- Two steps one after the other. -/
theorem Binds.both {ζ η : Type} {out : ζ → List (Expr Placeholder)}
    {inlineOut : η → List (Expr Param)} {x : Bind α} {y : Except QueryError β} {x' : Bind γ}
    {y' : Except QueryError δ}
    (h : Binds view inline x y) (h' : Binds view' inline' x' y') (f : α → γ → ζ) (g : β → δ → η)
    (hb : ∀ a c, Expr.boundsAll (out (f a c)) = Expr.boundsAll (view a) ++ Expr.boundsAll (view' c))
    (hi : ∀ a b c d, inlined (view a) = inline b → inlined (view' c) = inline' d →
      inlined (out (f a c)) = inlineOut (g b d)) :
    Binds out inlineOut (x >>= fun a => x' >>= fun c => Pure.pure (f a c))
      (y >>= fun b => y' >>= fun d => Pure.pure (g b d)) := by
  intro args
  have hx := h args
  cases y with
  | error e =>
      obtain ⟨args', hx⟩ := hx
      refine ⟨args', ?_⟩
      simp only [bind, EStateM.bind, hx]
  | ok b =>
      obtain ⟨a, hx, hin, hc⟩ := hx
      have hx' := h' (args.extend ((Expr.boundsAll (view a)).map Placeholder.value))
      cases y' with
      | error e =>
          obtain ⟨args', hx'⟩ := hx'
          refine ⟨args', ?_⟩
          simp only [bind, EStateM.bind, hx, hx']
      | ok d =>
          obtain ⟨c, hx', hin', hc'⟩ := hx'
          refine ⟨f a c, ?_, hi a b c d hin hin', ?_⟩
          · simp only [bind, EStateM.bind, hx, hx', hb, List.map_append, Arguments.extend_extend]
            rfl
          · rw [hb]
            apply hc.append
            simpa using hc'

end binds

/-- A step that gives one expression. -/
abbrev BindsOne (x : Bind (Expr Placeholder)) (y : Except QueryError (Expr Param)) : Prop :=
  Binds (fun e => [e]) (fun e => [e]) x y

/-- A step that gives a list of expressions. -/
abbrev BindsAll (x : Bind (List (Expr Placeholder))) (y : Except QueryError (List (Expr Param))) :
    Prop :=
  Binds id id x y

theorem BindsOne.pure {e : Expr Placeholder} (h : e.bounds = []) :
    BindsOne (Pure.pure e) (.ok (e.map Placeholder.value)) :=
  Binds.pure rfl (by simp [Expr.boundsAll, h])

/-- A step whose expression is put into another one that holds no other values. -/
theorem BindsOne.map {x : Bind (Expr Placeholder)} {e : Expr Param} (h : BindsOne x (.ok e))
    (f : Expr Placeholder → Expr Placeholder) (g : Expr Param → Expr Param)
    (hb : ∀ a, (f a).bounds = a.bounds)
    (hi : ∀ a, (f a).map Placeholder.value = g (a.map Placeholder.value)) :
    BindsOne (x >>= fun a => Pure.pure (f a)) (.ok (g e)) := by
  refine Binds.map h f g (fun a => by simp [Expr.boundsAll, hb]) (fun a b hab => ?_)
  simp only [inlined, List.map_cons, List.map_nil, List.cons.injEq, and_true] at hab ⊢
  rw [hi, hab]

/-- A step that gives an expression, and one that gives those behind it. -/
theorem BindsOne.cons {x : Bind (Expr Placeholder)} {y : Except QueryError (Expr Param)}
    {xs : Bind (List (Expr Placeholder))} {ys : Except QueryError (List (Expr Param))}
    (h : BindsOne x y) (hs : BindsAll xs ys) :
    BindsAll (x >>= fun e => xs >>= fun es => Pure.pure (e :: es))
      (y >>= fun e => ys >>= fun es => Pure.pure (e :: es)) := by
  refine Binds.both h hs List.cons List.cons (fun a c => ?_) (fun a b c d hab hcd => ?_)
  · simp [Expr.boundsAll]
  · simp only [inlined, id_eq, List.map_cons, List.map_nil, List.cons.injEq, and_true] at *
    exact ⟨hab, hcd⟩

/-- The conditions of a list, all of them to hold. -/
theorem BindsAll.allOf {x : Bind (List (Expr Placeholder))}
    {y : Except QueryError (List (Expr Param))} (h : BindsAll x y) :
    BindsOne (x >>= fun es => Pure.pure (.allOf es)) (y >>= fun es => Pure.pure (.allOf es)) := by
  refine Binds.map h Expr.allOf Expr.allOf (fun a => ?_) (fun a b hab => ?_)
  · simp [Expr.boundsAll]
  · simp only [inlined, id_eq] at hab
    simp [inlined, Expr.map_allOf, hab]

theorem bindValue_binds (j : Json) : BindsOne (bindValue j) (.ok (Inline.value j)) := by
  intro args
  refine ⟨.bound ⟨args.size + 1, Param.ofJson j⟩, ?_, rfl, rfl⟩
  simp [bindValue, Arguments.bind, Arguments.extend, Expr.boundsAll, Expr.bounds]

theorem bindEach_binds {f : Json → Bind (Expr Placeholder)} {g : Json → Expr Param}
    (h : ∀ j, BindsOne (f j) (.ok (g j))) (js : List Json) :
    BindsAll (bindEach f js) (.ok (js.map g)) := by
  induction js with
  | nil => exact Binds.pure rfl rfl
  | cons j js ih =>
      exact (h j).cons ih

/-! ### Conditions on a field -/

namespace Operand

section

variable {o : Operand} (ho : o.expr.bounds = [])
include ho

theorem bounds_extracted (v : Json) : (o.extracted v).bounds = [] := by
  cases v <;> simpa [extracted, Expr.bounds] using ho

theorem bounds_left (v : Json) : (o.left v).bounds = [] := by
  have he := bounds_extracted ho v
  simp only [left]
  split <;> split <;> simp [lower, Expr.bounds, Expr.boundsAll, ho, he]

end

variable (o : Operand)

theorem right_binds (v : Json) : BindsOne (o.right v) (.ok (Inline.right o v)) := by
  unfold right Inline.right
  by_cases hc : (!o.isPlain && v.isContainer) = true
  · simp only [hc, if_true]
    exact (bindValue_binds v).map _ (fun e => .cast e _) (fun _ => rfl) (fun _ => rfl)
  · by_cases hl : o.ignoresCase v = true
    · simp only [hc, hl, if_true, if_false, Bool.false_eq_true]
      refine (bindValue_binds v).map _ (fun e => .call .lower [e]) (fun a => ?_) (fun _ => rfl)
      simp [lower, Expr.bounds, Expr.boundsAll]
    · simp only [hc, hl, if_false, Bool.false_eq_true]
      exact (bindValue_binds v).map _ (fun e => e) (fun _ => rfl) (fun _ => rfl)

theorem item_binds (v : Json) : BindsOne (o.item v) (.ok (Inline.item o v)) := by
  unfold item Inline.item
  cases o.itemType? with
  | none => exact (bindValue_binds v).map _ (fun e => e) (fun _ => rfl) (fun _ => rfl)
  | some type => exact (bindValue_binds v).map _ (fun e => .cast e _) (fun _ => rfl) (fun _ => rfl)

variable {o} (ho : o.expr.bounds = [])
include ho

/-- A test of the left side binds nothing. -/
theorem test_binds (v : Json) (t : Test) :
    BindsOne (Pure.pure (.test (o.left v) t)) (.ok (.test (Inline.left o v) t)) :=
  BindsOne.pure (bounds_left ho v)

/-- A comparison of the left side binds what the right side binds. -/
theorem binary_binds (v : Json) (op : BinaryOp) {x : Bind (Expr Placeholder)} {e : Expr Param}
    (h : BindsOne x (.ok e)) :
    BindsOne (x >>= fun r => Pure.pure (.binary (o.left v) op r))
      (.ok (.binary (Inline.left o v) op e)) := by
  refine h.map (fun r => .binary (o.left v) op r) (fun r => .binary (Inline.left o v) op r)
    (fun a => ?_) (fun _ => rfl)
  simp [Expr.bounds, bounds_left ho v]

/-- A comparison of the left side with an array binds what the items bind. -/
theorem array_binds (v : Json) (op : BinaryOp) {x : Bind (List (Expr Placeholder))}
    {es : List (Expr Param)} (h : BindsAll x (.ok es)) :
    BindsOne (x >>= fun items => Pure.pure (.binary (o.left v) op (.array items)))
      (.ok (.binary (Inline.left o v) op (.array es))) := by
  refine Binds.map h (fun items => Expr.binary (o.left v) op (.array items))
    (fun items => Expr.binary (Inline.left o v) op (.array items)) (fun a => ?_) (fun a b hab => ?_)
  · simp [Expr.boundsAll, Expr.bounds, bounds_left ho v]
  · simp only [inlined, id_eq] at hab
    simp [inlined, Expr.map, Expr.mapAll_eq, hab, Inline.left]

theorem equals_binds (v : Json) : BindsOne (o.equals v) (.ok (Inline.equals o v)) := by
  -- every value but null and the booleans is compared, as an item if the column is an array
  have other : BindsOne
      (if o.isArray && !v.isArray then do
          let e ← o.item v
          pure (.binary (o.left v) .contains (.array [e]))
        else do
          let e ← o.right v
          pure (.binary (o.left v) .eq e))
      (.ok (if o.isArray && !v.isArray then
          .binary (Inline.left o v) .contains (.array [Inline.item o v])
        else .binary (Inline.left o v) .eq (Inline.right o v))) := by
    split
    · refine (o.item_binds v).map (fun e => .binary (o.left v) .contains (.array [e]))
        (fun e => .binary (Inline.left o v) .contains (.array [e])) (fun a => ?_) (fun _ => rfl)
      simp [Expr.bounds, Expr.boundsAll, bounds_left ho v]
    · exact binary_binds ho v .eq (o.right_binds v)
  cases v with
  | null => exact test_binds ho .null .null
  | bool b => cases b <;> exact test_binds ho _ _
  | int n => exact other
  | float x => exact other
  | str s => exact other
  | arr items => exact other
  | obj entries => exact other

theorem notEquals_binds (v : Json) : BindsOne (o.notEquals v) (.ok (Inline.notEquals o v)) := by
  have other : BindsOne
      (if o.isArray && !v.isArray then do
          let e ← o.equals v
          pure (.not e)
        else do
          let e ← o.right v
          pure (.binary (o.left v) (if o.isNullable then .distinctFrom else .ne) e))
      (.ok (if o.isArray && !v.isArray then .not (Inline.equals o v)
        else .binary (Inline.left o v) (if o.isNullable then .distinctFrom else .ne)
          (Inline.right o v))) := by
    split
    · exact (equals_binds ho v).map .not .not (fun _ => rfl) (fun _ => rfl)
    · exact binary_binds ho v _ (o.right_binds v)
  cases v with
  | null => exact test_binds ho .null .notNull
  | bool b => cases b <;> exact test_binds ho _ _
  | int n => exact other
  | float x => exact other
  | str s => exact other
  | arr items => exact other
  | obj entries => exact other

theorem compare_binds (name : String) (op : BinaryOp) (v : Json) :
    BindsOne (o.compare name op v) (Inline.compare o name op v) := by
  have other := binary_binds ho v op (o.right_binds v)
  cases v with
  | null => exact Binds.throw _
  | bool b => exact other
  | int n => exact other
  | float x => exact other
  | str s => exact other
  | arr items => exact Binds.throw _
  | obj entries => exact Binds.throw _

theorem isOneOf_binds (first : Json) (rest : List Json) :
    BindsOne (o.isOneOf first rest) (.ok (Inline.isOneOf o first rest)) := by
  unfold isOneOf Inline.isOneOf
  split
  · exact array_binds ho first .overlaps (bindEach_binds o.item_binds (first :: rest))
  · refine Binds.map (bindEach_binds o.right_binds (first :: rest))
      (fun items => Expr.isIn (o.left first) items)
      (fun items => Expr.isIn (Inline.left o first) items) (fun a => ?_) (fun a b hab => ?_)
    · simp [Expr.boundsAll, Expr.bounds, bounds_left ho first]
    · simp only [inlined, id_eq] at hab
      simp [inlined, Expr.map, Expr.mapAll_eq, hab, Inline.left]

theorem isIn_binds (v : Json) : BindsOne (o.isIn v) (Inline.isIn o v) := by
  match v with
  | .arr [] => exact BindsOne.pure rfl
  | .arr (first :: rest) => exact isOneOf_binds ho first rest
  | .null => exact Binds.throw _
  | .bool _ => exact Binds.throw _
  | .int _ => exact Binds.throw _
  | .float _ => exact Binds.throw _
  | .str _ => exact Binds.throw _
  | .obj _ => exact Binds.throw _

theorem isNotIn_binds (v : Json) : BindsOne (o.isNotIn v) (Inline.isNotIn o v) := by
  match v with
  | .arr [] => exact BindsOne.pure rfl
  | .arr (first :: rest) =>
      exact (isOneOf_binds ho first rest).map .not .not (fun _ => rfl) (fun _ => rfl)
  | .null => exact Binds.throw _
  | .bool _ => exact Binds.throw _
  | .int _ => exact Binds.throw _
  | .float _ => exact Binds.throw _
  | .str _ => exact Binds.throw _
  | .obj _ => exact Binds.throw _

theorem containsAll_binds (v : Json) : BindsOne (o.containsAll v) (Inline.containsAll o v) := by
  cases v with
  | arr values =>
      simp only [containsAll, Inline.containsAll]
      split
      · exact Binds.throw _
      · split
        · exact BindsOne.pure rfl
        · split
          · exact array_binds ho _ .contains (bindEach_binds o.item_binds values)
          · exact binary_binds ho _ .contains (o.right_binds _)
  | null => exact Binds.throw _
  | bool _ => exact Binds.throw _
  | int _ => exact Binds.throw _
  | float _ => exact Binds.throw _
  | str _ => exact Binds.throw _
  | obj _ => exact Binds.throw _

theorem exists?_binds (v : Json) : BindsOne (o.exists? v) (Inline.exists? o v) := by
  cases v with
  | bool b => exact test_binds ho .null _
  | null => exact Binds.throw _
  | int _ => exact Binds.throw _
  | float _ => exact Binds.throw _
  | str _ => exact Binds.throw _
  | arr _ => exact Binds.throw _
  | obj _ => exact Binds.throw _

theorem hasSize_binds (v : Json) : BindsOne (o.hasSize v) (Inline.hasSize o v) := by
  unfold hasSize Inline.hasSize
  split
  · exact Binds.throw _
  · cases v with
    | int n =>
        dsimp only
        split
        · refine (o.right_binds (.int n)).map
            (fun e => .binary (.call .arrayLength [o.expr, .constant (.int 1)]) .eq e)
            (fun e => .binary (.call .arrayLength
              [o.expr.map Placeholder.value, .constant (.int 1)]) .eq e) (fun a => ?_)
            (fun _ => rfl)
          simp [Expr.bounds, Expr.boundsAll, ho]
        · exact Binds.throw _
    | null => exact Binds.throw _
    | bool _ => exact Binds.throw _
    | float _ => exact Binds.throw _
    | str _ => exact Binds.throw _
    | arr _ => exact Binds.throw _
    | obj _ => exact Binds.throw _

omit ho in
theorem operators_binds_of {entries : List (String × Json)}
    (h : ∀ k ∈ entries, ∀ name, BindsOne (o.operator name k.2) (Inline.operator o name k.2)) :
    BindsAll (o.operators entries) (Inline.operators o entries) := by
  induction entries with
  | nil => exact Binds.pure rfl rfl
  | cons k entries ih =>
      rw [List.forall_mem_cons] at h
      unfold operators Inline.operators
      exact (h.1 k.1).cons (ih h.2)

/-- An operator, given what the operators inside a negation do. -/
theorem operator_binds_of (name : String) (v : Json) (hn : BindsOne
      (match v with
        | .obj entries =>
          if isOperatorObject entries then do
            let es ← o.operators entries
            pure (.not (.allOf es))
          else throw (.invalidOperand name .operatorObject)
        | _ => throw (.invalidOperand name .operatorObject))
      (match v with
        | .obj entries =>
          if isOperatorObject entries then do
            let es ← Inline.operators o entries
            pure (.not (.allOf es))
          else .error (.invalidOperand name .operatorObject)
        | _ => .error (.invalidOperand name .operatorObject))) :
    BindsOne (o.operator name v) (Inline.operator o name v) := by
  unfold operator Inline.operator
  exact .ite (equals_binds ho v) <| .ite (notEquals_binds ho v) <|
    .ite (compare_binds ho name .lt v) <| .ite (compare_binds ho name .le v) <|
    .ite (compare_binds ho name .gt v) <| .ite (compare_binds ho name .ge v) <|
    .ite (isIn_binds ho v) <| .ite (isNotIn_binds ho v) <| .ite (containsAll_binds ho v) <|
    .ite (exists?_binds ho v) <| .ite hn <| .ite (hasSize_binds ho v) (Binds.throw _)

/-- The condition of an operator.  The induction is over the operand: `$not` takes an object of
further operators. -/
theorem operator_binds (v : Json) (name : String) :
    BindsOne (o.operator name v) (Inline.operator o name v) := by
  induction v using Json.operand_induct generalizing name with
  | other v hv =>
      apply operator_binds_of ho
      split
      · exact absurd rfl (hv _)
      · exact Binds.throw _
  | obj entries ih =>
      refine operator_binds_of ho name _ (.ite ?_ (Binds.throw _))
      refine Binds.map (operators_binds_of ih) (fun es => Expr.not (.allOf es))
        (fun es => Expr.not (.allOf es)) (fun a => ?_) (fun a b hab => ?_)
      · simp [Expr.boundsAll, Expr.bounds]
      · simp only [inlined, id_eq] at hab
        simp [inlined, Expr.map, Expr.map_allOf, hab]

theorem operators_binds (entries : List (String × Json)) :
    BindsAll (o.operators entries) (Inline.operators o entries) :=
  operators_binds_of fun k _ => operator_binds ho k.2

omit ho in
/-- The field of a selector is a column, in which no value stands. -/
theorem bounds_ofField {t : Target} {name : String} (h : ofField t name = .ok o) :
    o.expr.bounds = [] := by
  unfold ofField at h
  dsimp only at h
  split at h
  · cases h
  · split at h
    · cases h
    · cases h
      rfl

end Operand

/-! ### Selectors -/

namespace Target

variable (t : Target)

theorem field_binds (name : String) (v : Json) :
    BindsOne (t.field name v) (Inline.field t name v) := by
  unfold field Inline.field
  cases ho : Operand.ofField t name with
  | error e => exact Binds.throw e
  | ok o =>
      have hb := Operand.bounds_ofField ho
      cases v with
      | obj entries =>
          exact .ite (Operand.operators_binds hb entries).allOf (Operand.equals_binds hb _)
      | null => exact Operand.equals_binds hb _
      | bool b => exact Operand.equals_binds hb _
      | int n => exact Operand.equals_binds hb _
      | float x => exact Operand.equals_binds hb _
      | str s => exact Operand.equals_binds hb _
      | arr items => exact Operand.equals_binds hb _

/-- The condition of an entry, or none. -/
def EntryBinds (v : Json) : Prop :=
  ∀ key, Binds Option.toList Option.toList (t.entry key v) (Inline.entry t key v)

variable {t}

theorem entries_binds_of {es : List (String × Json)} (h : ∀ k ∈ es, EntryBinds t k.2) :
    BindsAll (t.entries es) (Inline.entries t es) := by
  induction es with
  | nil => exact Binds.pure rfl rfl
  | cons k es ih =>
      rw [List.forall_mem_cons] at h
      unfold entries Inline.entries
      refine Binds.both (h.1 k.1) (ih h.2) (fun e es => e.toList ++ es) (fun e es => e.toList ++ es)
        (fun a c => ?_) (fun a b c d hab hcd => ?_)
      · simp [Expr.boundsAll_append]
      · simp only [inlined, id_eq, List.map_append] at *
        rw [hab, hcd]

theorem singles_binds_of {es : List (String × Json)} (h : ∀ k ∈ es, EntryBinds t k.2) :
    BindsAll (t.singles es) (Inline.singles t es) := by
  induction es with
  | nil => exact Binds.pure rfl rfl
  | cons k es ih =>
      rw [List.forall_mem_cons] at h
      unfold singles Inline.singles
      refine Binds.both (h.1 k.1) (ih h.2) (fun e es => Expr.allOf e.toList :: es)
        (fun e es => Expr.allOf e.toList :: es) (fun a c => ?_) (fun a b c d hab hcd => ?_)
      · simp [Expr.boundsAll]
      · simp only [inlined, id_eq, List.map_cons, Expr.map_allOf] at *
        rw [hab, hcd]

/-- A list of filters, given what the entries of each do. -/
theorem filters_binds_of (connective : String) {items : List Json}
    (h : ∀ j ∈ items, ∀ es, j = .obj es → ∀ k ∈ es, EntryBinds t k.2) :
    BindsAll (t.filters connective items) (Inline.filters t connective items) := by
  induction items with
  | nil => exact Binds.pure rfl rfl
  | cons j items ih =>
      rw [List.forall_mem_cons] at h
      unfold filters Inline.filters
      cases j with
      | obj es =>
          refine Binds.both (entries_binds_of (h.1 es rfl)) (ih h.2)
            (fun cs fs => Expr.allOf cs :: fs) (fun cs fs => Expr.allOf cs :: fs) (fun a c => ?_)
            (fun a b c d hab hcd => ?_)
          · simp [Expr.boundsAll]
          · simp only [inlined, id_eq, List.map_cons, Expr.map_allOf] at *
            rw [hab, hcd]
      | null => exact Binds.throw _
      | bool b => exact Binds.throw _
      | int n => exact Binds.throw _
      | float x => exact Binds.throw _
      | str s => exact Binds.throw _
      | arr items => exact Binds.throw _

/-- The filters that a connective combines. -/
def operands (t : Target) (key : String) (v : Json) : Bind (List (Expr Placeholder)) :=
  match v with
  | .arr items => t.filters key items
  | .obj es => t.singles es
  | _ => throw (.invalidOperand key .arrayOrObject)

theorem operands_of_scalar {v : Json} (h : v.isContainer = false) (key : String) :
    t.operands key v = throw (.invalidOperand key .arrayOrObject) := by
  cases v with
  | arr items => cases h
  | obj es => cases h
  | _ => rfl

theorem entry_eq (key : String) (v : Json) : t.entry key v =
    if key = "$and" ∨ key = "$or" then
      t.operands key v >>= fun fs => pure (some (if key = "$and" then .allOf fs else .anyOf fs))
    else if key = "$comment" then pure none
    else if isOperatorName key then throw (.unsupportedOperator key)
    else t.field key v >>= fun e => pure (some e) := by
  cases v <;> (unfold entry; rfl)

/-- The filters that a connective combines, with their values in place. -/
def inlineOperands (t : Target) (key : String) (v : Json) : Except QueryError (List (Expr Param)) :=
  match v with
  | .arr items => Inline.filters t key items
  | .obj es => Inline.singles t es
  | _ => .error (.invalidOperand key .arrayOrObject)

theorem inlineOperands_of_scalar {v : Json} (h : v.isContainer = false) (key : String) :
    t.inlineOperands key v = .error (.invalidOperand key .arrayOrObject) := by
  cases v with
  | arr items => cases h
  | obj es => cases h
  | _ => rfl

theorem inline_entry_eq (key : String) (v : Json) : Inline.entry t key v =
    if key = "$and" ∨ key = "$or" then
      t.inlineOperands key v >>= fun fs =>
        pure (some (if key = "$and" then .allOf fs else .anyOf fs))
    else if key = "$comment" then .ok none
    else if isOperatorName key then .error (.unsupportedOperator key)
    else Inline.field t key v >>= fun e => pure (some e) := by
  cases v <;> (unfold Inline.entry; rfl)

/-- An entry, given what the filters of a connective do. -/
theorem entry_binds_of {key : String} {v : Json}
    (hf : BindsAll (t.operands key v) (t.inlineOperands key v)) :
    Binds Option.toList Option.toList (t.entry key v) (Inline.entry t key v) := by
  rw [entry_eq, inline_entry_eq]
  refine .ite ?_ (.ite (Binds.pure rfl rfl) (.ite (Binds.throw _) ?_))
  · refine Binds.map hf (fun fs => some (if key = "$and" then Expr.allOf fs else Expr.anyOf fs))
      (fun fs => some (if key = "$and" then Expr.allOf fs else Expr.anyOf fs)) (fun a => ?_)
      (fun a b hab => ?_)
    · split <;> simp [Expr.boundsAll]
    · simp only [inlined, id_eq] at hab
      split <;> simp [inlined, Expr.map_allOf, Expr.map_anyOf, hab]
  · exact Binds.map (t.field_binds key v) some some (fun _ => rfl) (fun _ _ hab => hab)

/-- The condition of an entry.  The induction is over its value: a connective takes an array of
objects, or an object, whose entries are entries again. -/
theorem entry_binds (v : Json) : EntryBinds t v := by
  induction v using Json.filter_induct with
  | scalar v hv =>
      intro key
      apply entry_binds_of
      rw [operands_of_scalar hv, inlineOperands_of_scalar hv]
      exact Binds.throw _
  | arr items ih => exact fun key => entry_binds_of (filters_binds_of key ih)
  | obj es ih => exact fun key => entry_binds_of (singles_binds_of ih)

theorem filter_binds (es : Entries Json) : BindsOne (t.filter es) (Inline.filter t es) :=
  (entries_binds_of fun k _ => entry_binds k.2).allOf

/-- **The values of a selector are bound in order.** -/
theorem selector_binds (s : Selector) : BindsOne (t.selector s) (Inline.selector t s) :=
  filter_binds s.entries

end Target

end ShapedQuery
