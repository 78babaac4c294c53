import ShapedQuery.Sql.Statement

/-! # What stands at the placeholders

`Expr.bounds` lists what stands at the placeholders of an expression, from left to right, and
`Select.bounds` does so for a whole select.  `Expr.map` acts on that list (`Expr.bounds_map`) and
depends on nothing else (`Expr.map_congr`).  `Expr.shape` forgets what stands there; an expression
is its shape together with that list (`Expr.eq_of_shape_eq`).

`Expr.beq` decides equality (`Expr.beq_iff`). -/

namespace ShapedQuery

namespace Expr

variable {π ρ σ : Type}

/-- Induction over an expression, with the hypothesis for each expression of a list. -/
@[elab_as_elim]
theorem induct {P : Expr π → Prop}
    (all : ∀ es, (∀ e ∈ es, P e) → P (.all es))
    (any : ∀ es, (∀ e ∈ es, P e) → P (.any es))
    (not : ∀ e, P e → P (.not e))
    (binary : ∀ l op r, P l → P r → P (.binary l op r))
    (isIn : ∀ l es, P l → (∀ e ∈ es, P e) → P (.isIn l es))
    (test : ∀ e t, P e → P (.test e t))
    (call : ∀ g es, (∀ e ∈ es, P e) → P (.call g es))
    (array : ∀ es, (∀ e ∈ es, P e) → P (.array es))
    (column : ∀ c, P (.column c))
    (path : ∀ e steps asText, P e → P (.path e steps asText))
    (cases : ∀ c y n, P c → P y → P n → P (.cases c y n))
    (object : ∀ row fields, (∀ f ∈ fields, P f.2) → P (.object row fields))
    (cast : ∀ e type, P e → P (.cast e type))
    (constant : ∀ c, P (.constant c))
    (bound : ∀ p, P (.bound p)) (e : Expr π) : P e :=
  @Expr.rec π P (fun es => ∀ e ∈ es, P e) (fun fields => ∀ f ∈ fields, P f.2) (fun f => P f.2)
    all any not binary isIn test call array column path cases object cast constant bound
    (fun _ h => nomatch h) (fun _ _ he hes => List.forall_mem_cons.mpr ⟨he, hes⟩)
    (fun _ h => nomatch h) (fun _ _ hf hfs => List.forall_mem_cons.mpr ⟨hf, hfs⟩)
    (fun _ _ h => h) e

/-! ### The list of bounds -/

mutual

/-- What stands at the placeholders, from left to right. -/
def bounds : Expr π → List π
  | .all es => boundsAll es
  | .any es => boundsAll es
  | .not e => bounds e
  | .binary l _ r => bounds l ++ bounds r
  | .isIn l es => bounds l ++ boundsAll es
  | .test e _ => bounds e
  | .call _ es => boundsAll es
  | .array es => boundsAll es
  | .column _ => []
  | .path e _ _ => bounds e
  | .cases c y n => bounds c ++ (bounds y ++ bounds n)
  | .object _ fields => boundsFields fields
  | .cast e _ => bounds e
  | .constant _ => []
  | .bound p => [p]

def boundsAll : List (Expr π) → List π
  | [] => []
  | e :: es => bounds e ++ boundsAll es

def boundsFields : List (String × Expr π) → List π
  | [] => []
  | (_, e) :: es => bounds e ++ boundsFields es

end

theorem boundsAll_eq (es : List (Expr π)) : boundsAll es = es.flatMap bounds := by
  induction es with
  | nil => rfl
  | cons e es ih => simp [boundsAll, ih]

theorem boundsFields_eq (fields : List (String × Expr π)) :
    boundsFields fields = fields.flatMap fun f => f.2.bounds := by
  induction fields with
  | nil => rfl
  | cons f fields ih => simp [boundsFields, ih]

theorem boundsAll_append (es fs : List (Expr π)) :
    boundsAll (es ++ fs) = boundsAll es ++ boundsAll fs := by
  simp [boundsAll_eq]

@[simp] theorem bounds_allOf (es : List (Expr π)) : (allOf es).bounds = boundsAll es := by
  match es with
  | [] => rfl
  | [e] => simp [allOf, boundsAll]
  | _ :: _ :: _ => rfl

@[simp] theorem bounds_anyOf (es : List (Expr π)) : (anyOf es).bounds = boundsAll es := by
  match es with
  | [] => rfl
  | [e] => simp [anyOf, boundsAll]
  | _ :: _ :: _ => rfl

@[simp] theorem bounds_columnOf (table name : String) :
    (columnOf table name : Expr π).bounds = [] := rfl

@[simp] theorem bounds_relatedRow (table key : String) (row : Option String)
    (fields : List (String × Expr π)) :
    (relatedRow table key row fields).bounds = boundsFields fields := by
  simp [relatedRow, bounds]

/-! ### Maps -/

theorem map_map (f : π → ρ) (g : ρ → σ) (e : Expr π) : (e.map f).map g = e.map (g ∘ f) := by
  induction e using induct with
  | all es ih => simpa [map, mapAll_eq] using ih
  | any es ih => simpa [map, mapAll_eq] using ih
  | not e ih => simp [map, ih]
  | binary l op r ihl ihr => simp [map, ihl, ihr]
  | isIn l es ihl ih => simpa [map, mapAll_eq, ihl] using ih
  | test e t ih => simp [map, ih]
  | call g es ih => simpa [map, mapAll_eq] using ih
  | array es ih => simpa [map, mapAll_eq] using ih
  | column c => rfl
  | path e steps asText ih => simp [map, ih]
  | cases c y n ihc ihy ihn => simp [map, ihc, ihy, ihn]
  | object row fields ih => simpa [map, mapFields_eq] using ih
  | cast e type ih => simp [map, ih]
  | constant c => rfl
  | bound p => rfl

theorem map_allOf (f : π → ρ) (es : List (Expr π)) :
    (allOf es).map f = allOf (es.map (map f)) := by
  match es with
  | [] => rfl
  | [e] => rfl
  | _ :: _ :: _ => simp [allOf, map, mapAll_eq]

theorem map_anyOf (f : π → ρ) (es : List (Expr π)) :
    (anyOf es).map f = anyOf (es.map (map f)) := by
  match es with
  | [] => rfl
  | [e] => rfl
  | _ :: _ :: _ => simp [anyOf, map, mapAll_eq]

theorem boundsAll_mapAll {f : π → ρ} {es : List (Expr π)}
    (h : ∀ e ∈ es, (e.map f).bounds = e.bounds.map f) :
    boundsAll (mapAll f es) = (boundsAll es).map f := by
  induction es with
  | nil => rfl
  | cons e es ih =>
      rw [List.forall_mem_cons] at h
      simp [mapAll, boundsAll, h.1, ih h.2]

theorem boundsFields_mapFields {f : π → ρ} {fields : List (String × Expr π)}
    (h : ∀ k ∈ fields, (k.2.map f).bounds = k.2.bounds.map f) :
    boundsFields (mapFields f fields) = (boundsFields fields).map f := by
  induction fields with
  | nil => rfl
  | cons k fields ih =>
      rw [List.forall_mem_cons] at h
      simp [mapFields, boundsFields, h.1, ih h.2]

/-- A map acts on what stands at the placeholders. -/
@[simp] theorem bounds_map (f : π → ρ) (e : Expr π) : (e.map f).bounds = e.bounds.map f := by
  induction e using induct with
  | all es ih => simp [map, bounds, boundsAll_mapAll ih]
  | any es ih => simp [map, bounds, boundsAll_mapAll ih]
  | not e ih => simp [map, bounds, ih]
  | binary l op r ihl ihr => simp [map, bounds, ihl, ihr]
  | isIn l es ihl ih => simp [map, bounds, ihl, boundsAll_mapAll ih]
  | test e t ih => simp [map, bounds, ih]
  | call g es ih => simp [map, bounds, boundsAll_mapAll ih]
  | array es ih => simp [map, bounds, boundsAll_mapAll ih]
  | column c => rfl
  | path e steps asText ih => simp [map, bounds, ih]
  | cases c y n ihc ihy ihn => simp [map, bounds, ihc, ihy, ihn]
  | object row fields ih => simp [map, bounds, boundsFields_mapFields ih]
  | cast e type ih => simp [map, bounds, ih]
  | constant c => rfl
  | bound p => rfl

theorem mapAll_congr {f g : π → ρ} {es : List (Expr π)}
    (h : ∀ e ∈ es, (∀ p ∈ e.bounds, f p = g p) → e.map f = e.map g)
    (hb : ∀ p ∈ boundsAll es, f p = g p) : mapAll f es = mapAll g es := by
  induction es with
  | nil => rfl
  | cons e es ih =>
      rw [List.forall_mem_cons] at h
      simp only [boundsAll, List.forall_mem_append] at hb
      simp only [mapAll, h.1 hb.1, ih h.2 hb.2]

theorem mapFields_congr {f g : π → ρ} {fields : List (String × Expr π)}
    (h : ∀ k ∈ fields, (∀ p ∈ k.2.bounds, f p = g p) → k.2.map f = k.2.map g)
    (hb : ∀ p ∈ boundsFields fields, f p = g p) : mapFields f fields = mapFields g fields := by
  induction fields with
  | nil => rfl
  | cons k fields ih =>
      rw [List.forall_mem_cons] at h
      simp only [boundsFields, List.forall_mem_append] at hb
      simp only [mapFields, h.1 hb.1, ih h.2 hb.2]

/-- A map depends only on what it does to what stands at the placeholders. -/
theorem map_congr {f g : π → ρ} {e : Expr π} (h : ∀ p ∈ e.bounds, f p = g p) :
    e.map f = e.map g := by
  induction e using induct with
  | all es ih => simp only [map, mapAll_congr ih h]
  | any es ih => simp only [map, mapAll_congr ih h]
  | not e ih => simp only [map, ih h]
  | binary l op r ihl ihr =>
      simp only [bounds, List.forall_mem_append] at h
      simp only [map, ihl h.1, ihr h.2]
  | isIn l es ihl ih =>
      simp only [bounds, List.forall_mem_append] at h
      simp only [map, ihl h.1, mapAll_congr ih h.2]
  | test e t ih => simp only [map, ih h]
  | call g es ih => simp only [map, mapAll_congr ih h]
  | array es ih => simp only [map, mapAll_congr ih h]
  | column c => rfl
  | path e steps asText ih => simp only [map, ih h]
  | cases c y n ihc ihy ihn =>
      simp only [bounds, List.forall_mem_append] at h
      simp only [map, ihc h.1, ihy h.2.1, ihn h.2.2]
  | object row fields ih => simp only [map, mapFields_congr ih h]
  | cast e type ih => simp only [map, ih h]
  | constant c => rfl
  | bound p => simp only [map, h p (by simp [bounds])]

/-! ### An expression is its shape and its bounds -/

/-- An expression without what stands at the placeholders. -/
def shape (e : Expr π) : Expr Unit := e.map fun _ => ()

@[simp] theorem shape_map (f : π → ρ) (e : Expr π) : (e.map f).shape = e.shape :=
  map_map f _ e

theorem length_bounds_of_shape_eq {e : Expr π} {e' : Expr ρ} (h : e.shape = e'.shape) :
    e.bounds.length = e'.bounds.length := by
  have := congrArg (fun e => e.bounds.length) h
  simpa [shape] using this

theorem eq_of_shapeAll_eq {es es' : List (Expr π)}
    (h : ∀ e ∈ es, ∀ e' : Expr π, e.shape = e'.shape → e.bounds = e'.bounds → e = e')
    (hs : mapAll (fun _ => ()) es = mapAll (fun _ => ()) es')
    (hb : boundsAll es = boundsAll es') : es = es' := by
  induction es generalizing es' with
  | nil =>
      cases es' with
      | nil => rfl
      | cons e' es' => simp [mapAll] at hs
  | cons e es ih =>
      cases es' with
      | nil => simp [mapAll] at hs
      | cons e' es' =>
          simp only [mapAll, List.cons.injEq] at hs
          obtain ⟨hb₁, hb₂⟩ := List.append_inj hb (length_bounds_of_shape_eq hs.1)
          rw [List.forall_mem_cons] at h
          rw [h.1 e' hs.1 hb₁, ih h.2 hs.2 hb₂]

theorem eq_of_shapeFields_eq {fields fields' : List (String × Expr π)}
    (h : ∀ k ∈ fields, ∀ e' : Expr π, k.2.shape = e'.shape → k.2.bounds = e'.bounds → k.2 = e')
    (hs : mapFields (fun _ => ()) fields = mapFields (fun _ => ()) fields')
    (hb : boundsFields fields = boundsFields fields') : fields = fields' := by
  induction fields generalizing fields' with
  | nil =>
      cases fields' with
      | nil => rfl
      | cons k' fields' => simp [mapFields] at hs
  | cons k fields ih =>
      cases fields' with
      | nil => simp [mapFields] at hs
      | cons k' fields' =>
          simp only [mapFields, List.cons.injEq, Prod.mk.injEq] at hs
          obtain ⟨hb₁, hb₂⟩ := List.append_inj hb (length_bounds_of_shape_eq hs.1.2)
          rw [List.forall_mem_cons] at h
          rw [Prod.ext hs.1.1 (h.1 _ hs.1.2 hb₁), ih h.2 hs.2 hb₂]

/-- Expressions of one shape with the same at their placeholders are the same. -/
theorem eq_of_shape_eq {e e' : Expr π} (hs : e.shape = e'.shape) (hb : e.bounds = e'.bounds) :
    e = e' := by
  induction e using induct generalizing e' with
  | all es ih =>
      cases e' <;> simp only [shape, map, reduceCtorEq, all.injEq] at hs
      rw [eq_of_shapeAll_eq ih hs hb]
  | any es ih =>
      cases e' <;> simp only [shape, map, reduceCtorEq, any.injEq] at hs
      rw [eq_of_shapeAll_eq ih hs hb]
  | not e ih =>
      cases e' <;> simp only [shape, map, reduceCtorEq, not.injEq] at hs
      rw [ih hs hb]
  | binary l op r ihl ihr =>
      cases e' <;> simp only [shape, map, reduceCtorEq, binary.injEq] at hs
      obtain ⟨hl, rfl, hr⟩ := hs
      obtain ⟨hb₁, hb₂⟩ := List.append_inj hb (length_bounds_of_shape_eq hl)
      rw [ihl hl hb₁, ihr hr hb₂]
  | isIn l es ihl ih =>
      cases e' <;> simp only [shape, map, reduceCtorEq, isIn.injEq] at hs
      obtain ⟨hb₁, hb₂⟩ := List.append_inj hb (length_bounds_of_shape_eq hs.1)
      rw [ihl hs.1 hb₁, eq_of_shapeAll_eq ih hs.2 hb₂]
  | test e t ih =>
      cases e' <;> simp only [shape, map, reduceCtorEq, test.injEq] at hs
      rw [ih hs.1 hb, hs.2]
  | call g es ih =>
      cases e' <;> simp only [shape, map, reduceCtorEq, call.injEq] at hs
      rw [eq_of_shapeAll_eq ih hs.2 hb, hs.1]
  | array es ih =>
      cases e' <;> simp only [shape, map, reduceCtorEq, array.injEq] at hs
      rw [eq_of_shapeAll_eq ih hs hb]
  | column c =>
      cases e' <;> simp only [shape, map, reduceCtorEq, column.injEq] at hs
      rw [hs]
  | path e steps asText ih =>
      cases e' <;> simp only [shape, map, reduceCtorEq, path.injEq] at hs
      rw [ih hs.1 hb, hs.2.1, hs.2.2]
  | cases c y n ihc ihy ihn =>
      cases e' <;> simp only [shape, map, reduceCtorEq, cases.injEq] at hs
      obtain ⟨hb₁, hb⟩ := List.append_inj hb (length_bounds_of_shape_eq hs.1)
      obtain ⟨hb₂, hb₃⟩ := List.append_inj hb (length_bounds_of_shape_eq hs.2.1)
      rw [ihc hs.1 hb₁, ihy hs.2.1 hb₂, ihn hs.2.2 hb₃]
  | object row fields ih =>
      cases e' <;> simp only [shape, map, reduceCtorEq, object.injEq] at hs
      rw [eq_of_shapeFields_eq ih hs.2 hb, hs.1]
  | cast e type ih =>
      cases e' <;> simp only [shape, map, reduceCtorEq, cast.injEq] at hs
      rw [ih hs.1 hb, hs.2]
  | constant c =>
      cases e' <;> simp only [shape, map, reduceCtorEq, constant.injEq] at hs
      rw [hs]
  | bound p =>
      cases e' <;> simp only [shape, map, reduceCtorEq] at hs
      simp only [bounds, List.cons.injEq] at hb
      rw [hb.1]

/-! ### Equality -/

section equality

variable [DecidableEq π]

theorem beqAll_iff {es : List (Expr π)} (h : ∀ e ∈ es, ∀ f, e.beq f = true ↔ e = f) :
    ∀ fs, beqAll es fs = true ↔ es = fs := by
  induction es with
  | nil => intro fs; cases fs <;> simp [beqAll]
  | cons e es ih =>
      rw [List.forall_mem_cons] at h
      intro fs
      cases fs <;> simp [beqAll, h.1, ih h.2]

theorem beqFields_iff {es : List (String × Expr π)}
    (h : ∀ k ∈ es, ∀ f, k.2.beq f = true ↔ k.2 = f) :
    ∀ fs, beqFields es fs = true ↔ es = fs := by
  induction es with
  | nil => intro fs; cases fs <;> simp [beqFields]
  | cons k es ih =>
      rw [List.forall_mem_cons] at h
      intro fs
      cases fs <;> simp [beqFields, h.1, ih h.2, Prod.ext_iff]

theorem beq_iff (e f : Expr π) : e.beq f = true ↔ e = f := by
  induction e using induct generalizing f with
  | all es ih => cases f <;> simp [beq, beqAll_iff ih]
  | any es ih => cases f <;> simp [beq, beqAll_iff ih]
  | not e ih => cases f <;> simp [beq, ih]
  | binary l op r ihl ihr => cases f <;> simp [beq, ihl, ihr, and_assoc]
  | isIn l es ihl ih => cases f <;> simp [beq, ihl, beqAll_iff ih]
  | test e t ih => cases f <;> simp [beq, ih]
  | call g es ih => cases f <;> simp [beq, beqAll_iff ih]
  | array es ih => cases f <;> simp [beq, beqAll_iff ih]
  | column c => cases f <;> simp [beq]
  | path e steps asText ih => cases f <;> simp [beq, ih, and_assoc]
  | cases c y n ihc ihy ihn => cases f <;> simp [beq, ihc, ihy, ihn, and_assoc]
  | object row fields ih => cases f <;> simp [beq, beqFields_iff ih]
  | cast e type ih => cases f <;> simp [beq, ih]
  | constant c => cases f <;> simp [beq]
  | bound p => cases f <;> simp [beq]

end equality

end Expr

/-! ### Statements -/

section statements

variable {π ρ σ : Type}

def SelectItem.bounds : SelectItem π → List π
  | .star _ => []
  | .column _ => []
  | .named e _ => e.bounds

def Join.bounds (j : Join π) : List π := Expr.boundsAll j.on

def OrderTerm.bounds (t : OrderTerm π) : List π := t.target.bounds

/-- What stands at the placeholders of a select: in its items, the conditions of its joins, its
condition, its order, its limit and its offset. -/
def Select.bounds (s : Select π) : List π :=
  s.items.flatMap SelectItem.bounds ++ (s.joins.flatMap Join.bounds ++ (s.condition.bounds ++
    (s.order.flatMap OrderTerm.bounds ++ (s.limit.toList ++ s.offset.toList))))

theorem SelectItem.map_congr {f g : π → ρ} {i : SelectItem π} (h : ∀ p ∈ i.bounds, f p = g p) :
    i.map f = i.map g := by
  cases i with
  | star table => rfl
  | column c => rfl
  | named e name => simp only [SelectItem.map, Expr.map_congr h]

theorem Join.map_congr {f g : π → ρ} {j : Join π} (h : ∀ p ∈ j.bounds, f p = g p) :
    j.map f = j.map g := by
  simp only [Join.map, Join.mk.injEq, true_and]
  apply List.map_congr_left
  intro e he
  apply Expr.map_congr
  intro p hp
  apply h
  rw [Join.bounds, Expr.boundsAll_eq]
  exact List.mem_flatMap.mpr ⟨e, he, hp⟩

theorem Join.map_map (f : π → ρ) (g : ρ → σ) (j : Join π) : (j.map f).map g = j.map (g ∘ f) := by
  simp [Join.map, Expr.map_map]

@[simp] theorem Join.bounds_map (f : π → ρ) (j : Join π) : (j.map f).bounds = j.bounds.map f := by
  simp only [Join.bounds, Join.map, ← Expr.mapAll_eq]
  exact Expr.boundsAll_mapAll fun e _ => Expr.bounds_map f e

theorem Join.beq_iff [DecidableEq π] (a b : Join π) : a.beq b = true ↔ a = b := by
  cases a
  cases b
  simp [Join.beq, Expr.beqAll_iff fun e _ => Expr.beq_iff e, and_assoc]

theorem OrderTerm.map_congr {f g : π → ρ} {t : OrderTerm π} (h : ∀ p ∈ t.bounds, f p = g p) :
    t.map f = t.map g := by
  simp only [OrderTerm.map, Expr.map_congr h]

/-- A map of a select depends only on what it does to what stands at the placeholders. -/
theorem Select.map_congr {f g : π → ρ} {s : Select π} (h : ∀ p ∈ s.bounds, f p = g p) :
    s.map f = s.map g := by
  simp only [Select.bounds, List.forall_mem_append, List.mem_flatMap, Option.mem_toList] at h
  obtain ⟨hi, hj, hc, ho, hl, hs⟩ := h
  have items : s.items.map (SelectItem.map f) = s.items.map (SelectItem.map g) :=
    List.map_congr_left fun i hm => SelectItem.map_congr fun p hp => hi p ⟨i, hm, hp⟩
  have joins : s.joins.map (Join.map f) = s.joins.map (Join.map g) :=
    List.map_congr_left fun j hm => Join.map_congr fun p hp => hj p ⟨j, hm, hp⟩
  have order : s.order.map (OrderTerm.map f) = s.order.map (OrderTerm.map g) :=
    List.map_congr_left fun t hm => OrderTerm.map_congr fun p hp => ho p ⟨t, hm, hp⟩
  simp only [Select.map, items, joins, order, Expr.map_congr hc, Option.map_congr hl,
    Option.map_congr hs]

theorem SelectItem.map_map (f : π → ρ) (g : ρ → σ) (i : SelectItem π) :
    (i.map f).map g = i.map (g ∘ f) := by
  cases i <;> simp [SelectItem.map, Expr.map_map]

theorem OrderTerm.map_map (f : π → ρ) (g : ρ → σ) (t : OrderTerm π) :
    (t.map f).map g = t.map (g ∘ f) := by
  simp [OrderTerm.map, Expr.map_map]

theorem Select.map_map (f : π → ρ) (g : ρ → σ) (s : Select π) :
    (s.map f).map g = s.map (g ∘ f) := by
  simp [Select.map, SelectItem.map_map, Join.map_map, Expr.map_map, OrderTerm.map_map]

end statements

end ShapedQuery
