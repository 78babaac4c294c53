import ShapedQuery.Proofs.SelectorValues

/-! # The shape of a selector decides the form of its condition

What a condition looks like, apart from the values in it, depends only on the shape of the
selector: which strings and numbers stand in it makes no difference.  `Inline.selector_shape` says
so of the inline compiler, for each operator and then by induction over the selector.

With the order in which values are bound (`Target.selector_binds`) it follows that two selectors of
one shape, compiled behind equally many values, give the same condition up to the values and bind
equally many (`Target.selector_alike`). -/

namespace ShapedQuery

/-! ### Views of a shape -/

namespace Json

@[simp] theorem isArray_shape (v : Json) : v.shape.isArray = v.isArray := by
  cases v <;> rfl

@[simp] theorem isContainer_shape (v : Json) : v.shape.isContainer = v.isContainer := by
  cases v <;> rfl

@[simp] theorem isString_shape (v : Json) : v.shape.isString = v.isString := by
  cases v <;> rfl

theorem shapeItems_eq (items : List Json) : shapeItems items = items.map shape := by
  induction items with
  | nil => rfl
  | cons j items ih => rw [shapeItems, ih, List.map_cons]

theorem shapeEntries_eq (es : List (String × Json)) :
    shapeEntries es = es.map fun k => (k.1, k.2.shape) := by
  induction es with
  | nil => rfl
  | cons k es ih => rw [shapeEntries, ih, List.map_cons]

end Json

@[simp] theorem isOperatorObject_shapeEntries (es : List (String × Json)) :
    isOperatorObject (Json.shapeEntries es) = isOperatorObject es := by
  simp only [isOperatorObject, Json.shapeEntries_eq, List.isEmpty_map, List.all_map]
  rfl

namespace Operand

variable (o : Operand) (v : Json)

@[simp] theorem ignoresCase_shape : o.ignoresCase v.shape = o.ignoresCase v := by
  simp only [ignoresCase, isTextual, Json.isString_shape]

@[simp] theorem left_shape : o.left v.shape = o.left v := by
  have he : o.extracted v.shape = o.extracted v := by cases v <;> rfl
  simp only [left, ignoresCase_shape, he]

end Operand

/-! ### Conditions on a field -/

/-- Results that are the same up to `f` and `g` fail both, with one error, or succeed both. -/
theorem except_map_eq_cases {ε α β γ : Type} {f : α → γ} {g : β → γ} {x : Except ε α}
    {y : Except ε β} (h : x.map f = y.map g) :
    (∃ e, x = .error e ∧ y = .error e) ∨ ∃ a b, x = .ok a ∧ y = .ok b ∧ f a = g b := by
  cases x with
  | error e =>
      cases y with
      | error e' => exact .inl ⟨e, rfl, congrArg Except.error (Except.error.inj h).symm⟩
      | ok b => cases h
  | ok a =>
      cases y with
      | error e => cases h
      | ok b => exact .inr ⟨a, b, rfl, rfl, Except.ok.inj h⟩

namespace Inline

/-- The form of a condition that may fail. -/
def form (x : Except QueryError (Expr Param)) : Except QueryError (Expr Unit) := x.map Expr.shape

/-- The forms of several conditions. -/
def forms (x : Except QueryError (List (Expr Param))) : Except QueryError (List (Expr Unit)) :=
  x.map (List.map Expr.shape)

/-- Steps that look only at the keys of what is before them. -/
theorem map_bind_congr {ε α β γ δ : Type} {f : α → γ} {g : β → δ} {x y : Except ε α}
    {k l : α → Except ε β} (h : x.map f = y.map f)
    (hk : ∀ a b, f a = f b → (k a).map g = (l b).map g) :
    (x >>= k).map g = (y >>= l).map g := by
  obtain ⟨e, rfl, rfl⟩ | ⟨a, b, rfl, rfl, hab⟩ := except_map_eq_cases h
  · rfl
  · exact hk a b hab

theorem form_ite {p : Prop} [Decidable p] {x x' y y' : Except QueryError (Expr Param)}
    (h : form x = form y) (h' : form x' = form y') :
    form (if p then x else x') = form (if p then y else y') := by
  split
  · exact h
  · exact h'

theorem shape_allOf {es fs : List (Expr Param)} (h : es.map Expr.shape = fs.map Expr.shape) :
    (Expr.allOf es).shape = (Expr.allOf fs).shape := by
  simp only [Expr.shape, Expr.map_allOf]
  exact congrArg Expr.allOf h

theorem shape_anyOf {es fs : List (Expr Param)} (h : es.map Expr.shape = fs.map Expr.shape) :
    (Expr.anyOf es).shape = (Expr.anyOf fs).shape := by
  simp only [Expr.shape, Expr.map_anyOf]
  exact congrArg Expr.anyOf h

section operand

variable (o : Operand) (v : Json)

@[simp] theorem left_shape : left o v.shape = left o v := by
  rw [left, left, Operand.left_shape]

@[simp] theorem shape_right : (right o v.shape).shape = (right o v).shape := by
  simp only [right, Json.isContainer_shape, Operand.ignoresCase_shape]
  split
  · rfl
  · split <;> rfl

@[simp] theorem shape_item : (item o v.shape).shape = (item o v).shape := by
  unfold item
  split <;> rfl

theorem shape_binary (op : BinaryOp) {e e' : Expr Param} (h : e.shape = e'.shape) :
    (Expr.binary (left o v.shape) op e).shape = (Expr.binary (left o v) op e').shape := by
  rw [left_shape]
  exact congrArg (Expr.binary (left o v).shape op) h

theorem shape_test (t : Test) :
    (Expr.test (left o v.shape) t).shape = (Expr.test (left o v) t).shape := by
  rw [left_shape]

theorem shape_equals : (equals o v.shape).shape = (equals o v).shape := by
  -- every value but null and the booleans
  have other : (if o.isArray && !v.shape.isArray then
        Expr.binary (left o v.shape) .contains (.array [item o v.shape])
      else .binary (left o v.shape) .eq (right o v.shape)).shape =
      (if o.isArray && !v.isArray then Expr.binary (left o v) .contains (.array [item o v])
      else .binary (left o v) .eq (right o v)).shape := by
    rw [Json.isArray_shape]
    split
    · exact shape_binary o v _ (congrArg (fun e => Expr.array [e]) (shape_item o v))
    · exact shape_binary o v _ (shape_right o v)
  cases v with
  | null => exact shape_test o _ _
  | bool b => cases b <;> exact shape_test o _ _
  | int n => exact other
  | float x => exact other
  | str s => exact other
  | arr items => exact other
  | obj es => exact other

theorem shape_notEquals : (notEquals o v.shape).shape = (notEquals o v).shape := by
  have other : (if o.isArray && !v.shape.isArray then Expr.not (equals o v.shape)
      else .binary (left o v.shape) (if o.isNullable then .distinctFrom else .ne)
        (right o v.shape)).shape =
      (if o.isArray && !v.isArray then Expr.not (equals o v)
      else .binary (left o v) (if o.isNullable then .distinctFrom else .ne) (right o v)).shape := by
    rw [Json.isArray_shape]
    split
    · exact congrArg Expr.not (shape_equals o v)
    · exact shape_binary o v _ (shape_right o v)
  cases v with
  | null => exact shape_test o _ _
  | bool b => cases b <;> exact shape_test o _ _
  | int n => exact other
  | float x => exact other
  | str s => exact other
  | arr items => exact other
  | obj es => exact other

theorem form_compare (name : String) (op : BinaryOp) :
    form (compare o name op v.shape) = form (compare o name op v) := by
  have other := shape_binary o v op (shape_right o v)
  cases v with
  | null => rfl
  | bool b => exact congrArg Except.ok other
  | int n => exact congrArg Except.ok other
  | float x => exact congrArg Except.ok other
  | str s => exact congrArg Except.ok other
  | arr items => rfl
  | obj es => rfl

theorem shape_map_items (f : Json → Expr Param) (hf : ∀ v, (f v.shape).shape = (f v).shape)
    (vs : List Json) : ((Json.shapeItems vs).map f).map Expr.shape = (vs.map f).map Expr.shape := by
  simp only [Json.shapeItems_eq, List.map_map]
  exact List.map_congr_left fun v _ => hf v

theorem shape_isOneOf (first : Json) (rest : List Json) :
    (isOneOf o first.shape (Json.shapeItems rest)).shape = (isOneOf o first rest).shape := by
  have items := shape_map_items (item o) (shape_item o) (first :: rest)
  have rights := shape_map_items (right o) (shape_right o) (first :: rest)
  unfold isOneOf
  split
  · refine shape_binary o first _ ?_
    simp only [Expr.shape, Expr.map, Expr.mapAll_eq]
    exact congrArg Expr.array items
  · simp only [Expr.shape, Expr.map, Expr.mapAll_eq, left_shape]
    exact congrArg (Expr.isIn (left o first).shape) rights

theorem form_isIn : form (isIn o v.shape) = form (isIn o v) := by
  match v with
  | .arr [] => rfl
  | .arr (first :: rest) => exact congrArg Except.ok (shape_isOneOf o first rest)
  | .null => rfl
  | .bool _ => rfl
  | .int _ => rfl
  | .float _ => rfl
  | .str _ => rfl
  | .obj _ => rfl

theorem form_isNotIn : form (isNotIn o v.shape) = form (isNotIn o v) := by
  match v with
  | .arr [] => rfl
  | .arr (first :: rest) =>
      exact congrArg (fun e => Except.ok (Expr.not e)) (shape_isOneOf o first rest)
  | .null => rfl
  | .bool _ => rfl
  | .int _ => rfl
  | .float _ => rfl
  | .str _ => rfl
  | .obj _ => rfl

theorem form_containsAll : form (containsAll o v.shape) = form (containsAll o v) := by
  cases v with
  | arr values =>
      have hv : Json.shape (.arr values) = .arr (Json.shapeItems values) := rfl
      have he : (Json.shapeItems values).isEmpty = values.isEmpty := by
        rw [Json.shapeItems_eq, List.isEmpty_map]
      have items := shape_map_items (item o) (shape_item o) values
      have hbin := shape_binary o (.arr values) .contains (shape_right o (.arr values))
      have harr : (Expr.binary (left o (Json.arr values).shape) .contains
          (.array ((Json.shapeItems values).map (item o)))).shape =
          (Expr.binary (left o (.arr values)) .contains (.array (values.map (item o)))).shape := by
        refine shape_binary o _ _ ?_
        simp only [Expr.shape, Expr.map, Expr.mapAll_eq]
        exact congrArg Expr.array items
      rw [hv] at hbin harr ⊢
      simp only [containsAll, he]
      split
      · rfl
      · split
        · rfl
        · split
          · exact congrArg Except.ok harr
          · exact congrArg Except.ok hbin
  | null => rfl
  | bool _ => rfl
  | int _ => rfl
  | float _ => rfl
  | str _ => rfl
  | obj _ => rfl

theorem form_hasSize : form (hasSize o v.shape) = form (hasSize o v) := by
  unfold hasSize
  split
  · rfl
  · cases v with
    | int n =>
        have hr := shape_right o (.int n)
        have hn : (0 ≤ if 0 ≤ n then (0 : Int) else -1) ↔ 0 ≤ n := by split <;> omega
        simp only [Json.shape, hn] at hr ⊢
        split
        · simp only [form, Except.map, Except.ok.injEq]
          rename_i h
          rw [if_pos h] at hr
          exact congrArg (Expr.binary _ .eq) hr
        · rfl
    | null => rfl
    | bool _ => rfl
    | float _ => rfl
    | str _ => rfl
    | arr _ => rfl
    | obj _ => rfl

theorem form_exists? : form (exists? o v.shape) = form (exists? o v) := by
  cases v <;> rfl

theorem forms_operators_of {es : List (String × Json)}
    (h : ∀ k ∈ es, ∀ name, form (operator o name k.2.shape) = form (operator o name k.2)) :
    forms (operators o (Json.shapeEntries es)) = forms (operators o es) := by
  induction es with
  | nil => rfl
  | cons k es ih =>
      rw [List.forall_mem_cons] at h
      unfold Json.shapeEntries operators
      refine map_bind_congr (h.1 k.1) fun e f hef => ?_
      refine map_bind_congr (ih h.2) fun es fs hes => ?_
      simp only [pure, Except.pure, Except.map, List.map_cons, hef, hes]

/-- An operator, given what the operators inside a negation do. -/
theorem form_operator_of (name : String) (hn : ∀ es, v = .obj es →
      forms (operators o (Json.shapeEntries es)) = forms (operators o es)) :
    form (operator o name v.shape) = form (operator o name v) := by
  unfold operator
  refine form_ite (congrArg Except.ok (shape_equals o v)) ?_
  refine form_ite (congrArg Except.ok (shape_notEquals o v)) ?_
  refine form_ite (form_compare o v name .lt) (form_ite (form_compare o v name .le) ?_)
  refine form_ite (form_compare o v name .gt) (form_ite (form_compare o v name .ge) ?_)
  refine form_ite (form_isIn o v) (form_ite (form_isNotIn o v) ?_)
  refine form_ite (form_containsAll o v) (form_ite (form_exists? o v) ?_)
  refine form_ite ?_ (form_ite (form_hasSize o v) rfl)
  cases v with
  | obj es =>
      simp only [Json.shape, isOperatorObject_shapeEntries]
      refine form_ite ?_ rfl
      refine map_bind_congr (hn es rfl) fun fs gs hfs => ?_
      exact congrArg (fun e => Except.ok (Expr.not e)) (shape_allOf hfs)
  | null => rfl
  | bool b => rfl
  | int n => rfl
  | float x => rfl
  | str s => rfl
  | arr items => rfl

theorem form_operator (name : String) :
    form (operator o name v.shape) = form (operator o name v) := by
  induction v using Json.operand_induct generalizing name with
  | other v hv => exact form_operator_of o _ name fun es h => absurd h (hv es)
  | obj es ih =>
      refine form_operator_of o _ name ?_
      rintro es' ⟨⟩
      exact forms_operators_of o ih

theorem forms_operators (es : List (String × Json)) :
    forms (operators o (Json.shapeEntries es)) = forms (operators o es) :=
  forms_operators_of o fun k _ name => form_operator o k.2 name

end operand

/-! ### Selectors -/

section selector

variable {t : Target}

theorem form_field (name : String) (v : Json) :
    form (field t name v.shape) = form (field t name v) := by
  unfold field
  cases Operand.ofField t name with
  | error e => rfl
  | ok o =>
      have other := shape_equals o v
      cases v with
      | obj es =>
          simp only [Json.shape, bind, Except.bind, isOperatorObject_shapeEntries] at other ⊢
          refine form_ite ?_ (congrArg Except.ok other)
          refine map_bind_congr (forms_operators o es) fun fs gs hfs => ?_
          exact congrArg Except.ok (shape_allOf hfs)
      | null => exact congrArg Except.ok other
      | bool b => exact congrArg Except.ok other
      | int n => exact congrArg Except.ok other
      | float x => exact congrArg Except.ok other
      | str s => exact congrArg Except.ok other
      | arr items => exact congrArg Except.ok other

/-- The form of the condition of an entry depends on the shape of its value. -/
def EntryShape (t : Target) (v : Json) : Prop :=
  ∀ key, (entry t key v.shape).map (Option.map Expr.shape) =
    (entry t key v).map (Option.map Expr.shape)

theorem forms_entries_of {es : List (String × Json)} (h : ∀ k ∈ es, EntryShape t k.2) :
    forms (entries t (Json.shapeEntries es)) = forms (entries t es) := by
  induction es with
  | nil => rfl
  | cons k es ih =>
      rw [List.forall_mem_cons] at h
      unfold Json.shapeEntries entries
      refine map_bind_congr (h.1 k.1) fun e f hef => ?_
      refine map_bind_congr (ih h.2) fun es fs hes => ?_
      have htl : e.toList.map Expr.shape = f.toList.map Expr.shape := by
        rw [← Option.toList_map, hef, Option.toList_map]
      simp only [pure, Except.pure, Except.map, List.map_append, htl, hes]

theorem forms_singles_of {es : List (String × Json)} (h : ∀ k ∈ es, EntryShape t k.2) :
    forms (singles t (Json.shapeEntries es)) = forms (singles t es) := by
  induction es with
  | nil => rfl
  | cons k es ih =>
      rw [List.forall_mem_cons] at h
      unfold Json.shapeEntries singles
      refine map_bind_congr (h.1 k.1) fun e f hef => ?_
      refine map_bind_congr (ih h.2) fun es fs hes => ?_
      have htl : e.toList.map Expr.shape = f.toList.map Expr.shape := by
        rw [← Option.toList_map, hef, Option.toList_map]
      simp only [pure, Except.pure, Except.map, List.map_cons, shape_allOf htl, hes]

theorem forms_filters_of (connective : String) {items : List Json}
    (h : ∀ j ∈ items, ∀ es, j = .obj es → ∀ k ∈ es, EntryShape t k.2) :
    forms (filters t connective (Json.shapeItems items)) = forms (filters t connective items) := by
  induction items with
  | nil => rfl
  | cons j items ih =>
      rw [List.forall_mem_cons] at h
      unfold Json.shapeItems filters
      cases j with
      | obj es =>
          refine map_bind_congr (forms_entries_of (h.1 es rfl)) fun cs ds hcs => ?_
          refine map_bind_congr (ih h.2) fun es fs hes => ?_
          simp only [pure, Except.pure, Except.map, List.map_cons, shape_allOf hcs, hes]
      | null => rfl
      | bool b => rfl
      | int n => rfl
      | float x => rfl
      | str s => rfl
      | arr items => rfl

/-- An entry, given what the filters of a connective do. -/
theorem entryShape_of {key : String} {v : Json}
    (h : forms (t.inlineOperands key v.shape) = forms (t.inlineOperands key v)) :
    (entry t key v.shape).map (Option.map Expr.shape) =
      (entry t key v).map (Option.map Expr.shape) := by
  rw [Target.inline_entry_eq, Target.inline_entry_eq]
  split
  · refine map_bind_congr h fun es fs hes => ?_
    split
    · exact congrArg (fun e => Except.ok (some e)) (shape_allOf hes)
    · exact congrArg (fun e => Except.ok (some e)) (shape_anyOf hes)
  · split
    · rfl
    · split
      · rfl
      · refine map_bind_congr (form_field key v) fun e f hef => ?_
        exact congrArg (fun e => Except.ok (some e)) hef

theorem entry_shape (v : Json) : EntryShape t v := by
  induction v using Json.filter_induct with
  | scalar v hv =>
      intro key
      apply entryShape_of
      have hshape : v.shape.isContainer = false := (Json.isContainer_shape v).trans hv
      rw [Target.inlineOperands_of_scalar hshape, Target.inlineOperands_of_scalar hv]
  | arr items ih => exact fun key => entryShape_of (forms_filters_of key ih)
  | obj es ih => exact fun key => entryShape_of (forms_singles_of ih)

end selector

end Inline

/-- A selector without its values. -/
def Selector.shape : Selector → Selector
  | .id _ => .id ""
  | .filter es => .filter (Json.shapeEntries es)

theorem Selector.entries_shape (s : Selector) : s.shape.entries = Json.shapeEntries s.entries := by
  cases s <;> rfl

/-- **The form of a selector's condition depends on the selector's shape.** -/
theorem Inline.selector_shape (t : Target) (s : Selector) :
    form (selector t s.shape) = form (selector t s) := by
  unfold selector filter
  rw [Selector.entries_shape]
  refine map_bind_congr (forms_entries_of fun k _ => entry_shape k.2) fun es fs hes => ?_
  exact congrArg Except.ok (shape_allOf hes)

/-! ### Two selectors of one shape -/

namespace Target

variable {t : Target} {s s' : Selector} {args args' : Arguments}

/-- Placeholders that are numbered in order from the same number on are numbered alike. -/
theorem map_index_eq_of_consecutive {n : Nat} {e e' : Expr Placeholder} (hs : e.shape = e'.shape)
    (h : Consecutive n e.bounds) (h' : Consecutive n e'.bounds) :
    e.map Placeholder.index = e'.map Placeholder.index := by
  refine Expr.eq_of_shape_eq ?_ ?_
  · rw [Expr.shape_map, Expr.shape_map, hs]
  · rw [Expr.bounds_map, Expr.bounds_map, h, h', Expr.length_bounds_of_shape_eq hs]

theorem form_selector_eq (h : s.shape = s'.shape) :
    Inline.form (Inline.selector t s) = Inline.form (Inline.selector t s') := by
  rw [← Inline.selector_shape t s, ← Inline.selector_shape t s', h]

/-- **Selectors of one shape fail alike, or give the same condition up to the values**: its
numbers are the same, and equally many values are bound. -/
theorem selector_alike (h : s.shape = s'.shape) (hsize : args.size = args'.size) :
    (∃ e rest rest', t.selector s args = .error e rest ∧ t.selector s' args' = .error e rest') ∨
    ∃ e e' vs vs', t.selector s args = .ok e (args.extend vs) ∧
      t.selector s' args' = .ok e' (args'.extend vs') ∧
      e.map Placeholder.index = e'.map Placeholder.index ∧ vs.length = vs'.length := by
  have hs := selector_binds (t := t) s args
  have hs' := selector_binds (t := t) s' args'
  obtain ⟨e, hi, hi'⟩ | ⟨b, b', hi, hi', hform⟩ :=
    except_map_eq_cases (form_selector_eq (t := t) h)
  · rw [hi] at hs
    rw [hi'] at hs'
    obtain ⟨rest, hs⟩ := hs
    obtain ⟨rest', hs'⟩ := hs'
    exact .inl ⟨e, rest, rest', hs, hs'⟩
  · rw [hi] at hs
    rw [hi'] at hs'
    obtain ⟨e, hs, hin, hcons⟩ := hs
    obtain ⟨e', hs', hin', hcons'⟩ := hs'
    have he : e.map Placeholder.value = b := by simpa [inlined] using hin
    have he' : e'.map Placeholder.value = b' := by simpa [inlined] using hin'
    have hshape : e.shape = e'.shape := by
      rw [← Expr.shape_map Placeholder.value e, he, ← Expr.shape_map Placeholder.value e', he']
      exact hform
    simp only [Expr.boundsAll, List.append_nil] at hs hs' hcons hcons'
    have hindex := map_index_eq_of_consecutive hshape hcons (hsize ▸ hcons')
    refine .inr ⟨e, e', _, _, hs, hs', hindex, ?_⟩
    rw [List.length_map, List.length_map]
    exact Expr.length_bounds_of_shape_eq hshape

end Target

end ShapedQuery
