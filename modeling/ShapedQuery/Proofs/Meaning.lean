import ShapedQuery.Proofs.DocumentOrder
import ShapedQuery.Proofs.Truth

/-! # What a filter says

A filter is a formula over single conditions: its entries and the operators behind a field are
joined by "and", `$and` and `$or` combine further filters, `$not` and `$nin` negate.
`filterFormula` reads this off the filter, without the compiler.  Its atoms are conditions with one
operator (`Condition`), each of which is a filter of its own.

`Target.filter_meaning` says that the condition which the compiler makes of a filter has the truth
of the filter's formula, if the atoms, compiled one after the other, stand for themselves.  Nothing
is said about their own truth: it may be any.

`Tracks R x y` compares two steps on an argument list: where `x` succeeds, so does `y`, with the
same values bound and a related result. -/

namespace ShapedQuery

/-! ### Formulas -/

/-- Atoms and how they are combined. -/
inductive Formula (α : Type) where
  | atom (a : α)
  | yes
  | no
  | and (f g : Formula α)
  | or (f g : Formula α)
  | not (f : Formula α)

namespace Formula

variable {α β : Type}

/-- The conjunction of a list. -/
def all : List (Formula α) → Formula α
  | [] => .yes
  | f :: fs => .and f (all fs)

/-- The disjunction of a list. -/
def any : List (Formula α) → Formula α
  | [] => .no
  | f :: fs => .or f (any fs)

/-- The truth of a formula, given that of its atoms. -/
def truth (v : α → Truth) : Formula α → Truth
  | .atom a => v a
  | .yes => .yes
  | .no => .no
  | .and f g => (f.truth v).and (g.truth v)
  | .or f g => (f.truth v).or (g.truth v)
  | .not f => (f.truth v).not

theorem truth_all (v : α → Truth) (fs : List (Formula α)) :
    (all fs).truth v = .all (fs.map (truth v)) := by
  induction fs with
  | nil => rfl
  | cons f fs ih => rw [all, truth, ih, List.map_cons, Truth.all]

theorem truth_any (v : α → Truth) (fs : List (Formula α)) :
    (any fs).truth v = .any (fs.map (truth v)) := by
  induction fs with
  | nil => rfl
  | cons f fs ih => rw [any, truth, ih, List.map_cons, Truth.any]

section steps

variable {m : Type → Type} [Monad m]

/-- Replace the atoms, from left to right. -/
def mapM (step : α → m β) : Formula α → m (Formula β)
  | .atom a => do
    let b ← step a
    pure (.atom b)
  | .yes => pure .yes
  | .no => pure .no
  | .and f g => do
    let f ← f.mapM step
    let g ← g.mapM step
    pure (.and f g)
  | .or f g => do
    let f ← f.mapM step
    let g ← g.mapM step
    pure (.or f g)
  | .not f => do
    let f ← f.mapM step
    pure (.not f)

def mapAll (step : α → m β) : List (Formula α) → m (List (Formula β))
  | [] => pure []
  | f :: fs => do
    let g ← f.mapM step
    let gs ← mapAll step fs
    pure (g :: gs)

variable [LawfulMonad m]

theorem mapM_all (step : α → m β) (fs : List (Formula α)) :
    (all fs).mapM step = mapAll step fs >>= fun gs => pure (all gs) := by
  induction fs with
  | nil => simp [all, mapM, mapAll]
  | cons f fs ih => simp [all, mapM, mapAll, ih]

theorem mapM_any (step : α → m β) (fs : List (Formula α)) :
    (any fs).mapM step = mapAll step fs >>= fun gs => pure (any gs) := by
  induction fs with
  | nil => simp [any, mapM, mapAll]
  | cons f fs ih => simp [any, mapM, mapAll, ih]

end steps

end Formula

/-! ### The formula of a filter -/

/-- One operator behind a field. -/
structure Condition where
  field : String
  operator : String
  operand : Json

/-- The condition as a filter of its own. -/
def Condition.filter (c : Condition) : Entries Json :=
  [(c.field, .obj [(c.operator, c.operand)])]

mutual

/-- What an operator says of a field.  Nothing is in the empty list or holds all of it, and
everything is outside of it. -/
def operatorFormula (field name : String) (v : Json) : Formula Condition :=
  if name = "$not" then
    match v with
    | .obj entries => .not (.all (operatorFormulas field entries))
    | _ => .atom ⟨field, name, v⟩
  else if name = "$nin" then
    match v with
    | .arr [] => .yes
    | _ => .not (.atom ⟨field, "$in", v⟩)
  else if name = "$in" ∨ name = "$all" then
    match v with
    | .arr [] => .no
    | _ => .atom ⟨field, name, v⟩
  else .atom ⟨field, name, v⟩

def operatorFormulas (field : String) : List (String × Json) → List (Formula Condition)
  | [] => []
  | (name, v) :: rest => operatorFormula field name v :: operatorFormulas field rest

end

/-- What is said of a field: all of its operators, or that it equals a value. -/
def fieldFormula (field : String) (v : Json) : Formula Condition :=
  match v with
  | .obj entries =>
    if isOperatorObject entries then .all (operatorFormulas field entries)
    else .atom ⟨field, "$eq", v⟩
  | _ => .atom ⟨field, "$eq", v⟩

mutual

/-- What an entry says.  A comment says nothing. -/
def entryFormula (key : String) (v : Json) : Formula Condition :=
  if key = "$and" then
    match v with
    | .arr items => .all (filterFormulas items)
    | .obj es => .all (singleFormulas es)
    | _ => .yes
  else if key = "$or" then
    match v with
    | .arr items => .any (filterFormulas items)
    | .obj es => .any (singleFormulas es)
    | _ => .no
  else if key = "$comment" then .yes
  else fieldFormula key v

def entryFormulas : List (String × Json) → List (Formula Condition)
  | [] => []
  | (key, v) :: rest => entryFormula key v :: entryFormulas rest

/-- Each item as a filter. -/
def filterFormulas : List Json → List (Formula Condition)
  | [] => []
  | v :: rest =>
    (match v with
      | .obj es => .all (entryFormulas es)
      | _ => .yes) :: filterFormulas rest

/-- Each entry as a filter with this entry only. -/
def singleFormulas : List (String × Json) → List (Formula Condition)
  | [] => []
  | (key, v) :: rest => .all [entryFormula key v] :: singleFormulas rest

end

/-- What a filter says: all of its entries. -/
def filterFormula (es : Entries Json) : Formula Condition := .all (entryFormulas es)

/-! ### Steps that go together -/

section tracks

variable {α β γ δ : Type} {R : α → β → Prop} {S : γ → δ → Prop}

/-- Where `x` succeeds, `y` does too, with the same values bound and a related result. -/
def Tracks (R : α → β → Prop) (x : Bind α) (y : Bind β) : Prop :=
  ∀ args a args', x args = .ok a args' → ∃ b, y args = .ok b args' ∧ R a b

namespace Tracks

theorem pure {a : α} {b : β} (h : R a b) :
    Tracks R (Pure.pure a : Bind α) (Pure.pure b : Bind β) := by
  intro args a' args' ha
  cases ha
  exact ⟨b, rfl, h⟩

theorem throw (e : QueryError) (y : Bind β) : Tracks R (MonadExcept.throw e : Bind α) y := by
  intro args a args' h
  cases h

theorem refl (x : Bind α) : Tracks Eq x x :=
  fun _ a _ h => ⟨a, h, rfl⟩

theorem bind {x : Bind α} {y : Bind β} {k : α → Bind γ} {k' : β → Bind δ} (h : Tracks R x y)
    (hk : ∀ a b, R a b → Tracks S (k a) (k' b)) : Tracks S (x >>= k) (y >>= k') := by
  intro args c args' hc
  change EStateM.bind x k args = .ok c args' at hc
  unfold EStateM.bind at hc
  cases hx : x args with
  | error e rest =>
      rw [hx] at hc
      cases hc
  | ok a rest =>
      rw [hx] at hc
      obtain ⟨b, hy, hR⟩ := h args a rest hx
      obtain ⟨d, hd, hS⟩ := hk a b hR rest c args' hc
      refine ⟨d, ?_, hS⟩
      change EStateM.bind y k' args = .ok d args'
      unfold EStateM.bind
      rw [hy]
      exact hd

/-- Results that are only put into another form. -/
theorem map {x : Bind α} {y : Bind β} (h : Tracks R x y) (f : α → γ) (g : β → δ)
    (hfg : ∀ a b, R a b → S (f a) (g b)) :
    Tracks S (x >>= fun a => Pure.pure (f a)) (y >>= fun b => Pure.pure (g b)) :=
  h.bind fun a b hab => .pure (hfg a b hab)

end Tracks

end tracks

/-! ### Operators -/

/-- The condition has the truth of the formula over conditions, whatever they say. -/
def Means (e : Expr Placeholder) (f : Formula (Expr Placeholder)) : Prop :=
  ∀ v, e.truth v = f.truth (Expr.truth v)

/-- Each condition has the truth of the formula at its place. -/
def MeansEach (es : List (Expr Placeholder)) (fs : List (Formula (Expr Placeholder))) : Prop :=
  ∀ v, es.map (Expr.truth v) = fs.map (Formula.truth (Expr.truth v))

section means

variable {e : Expr Placeholder} {es : List (Expr Placeholder)} {f : Formula (Expr Placeholder)}
  {fs : List (Formula (Expr Placeholder))}

theorem MeansEach.cons (h : Means e f) (hs : MeansEach es fs) : MeansEach (e :: es) (f :: fs) := by
  intro v
  rw [List.map_cons, List.map_cons, h v, hs v]

theorem MeansEach.allOf (h : MeansEach es fs) : Means (.allOf es) (.all fs) := by
  intro v
  rw [Expr.truth_allOf, Formula.truth_all, h v]

theorem MeansEach.anyOf (h : MeansEach es fs) : Means (.anyOf es) (.any fs) := by
  intro v
  rw [Expr.truth_anyOf, Formula.truth_any, h v]

theorem Means.not (h : Means e f) : Means (.not e) (.not f) := by
  intro v
  rw [Expr.truth_not, h v]
  rfl

end means

theorem Operand.operator_eq (o : Operand) (v : Json) : o.operator "$eq" v = o.equals v := by
  unfold operator
  rfl

/-- A condition and those behind it. -/
theorem Tracks.cons {x : Bind (Expr Placeholder)} {y : Bind (Formula (Expr Placeholder))}
    {xs : Bind (List (Expr Placeholder))} {ys : Bind (List (Formula (Expr Placeholder)))}
    (h : Tracks Means x y) (hs : Tracks MeansEach xs ys) :
    Tracks MeansEach (x >>= fun e => xs >>= fun es => Pure.pure (e :: es))
      (y >>= fun f => ys >>= fun fs => Pure.pure (f :: fs)) := by
  refine h.bind fun e f hf => ?_
  exact hs.map (e :: ·) (f :: ·) fun es fs hfs => MeansEach.cons hf hfs

namespace Target

/-- Compile a condition on its own. -/
def condition (t : Target) (c : Condition) : Bind (Expr Placeholder) := t.filter c.filter

section operand

variable {t : Target} {key : String} {o : Operand} (hkey : isOperatorName key = false)
  (ho : Operand.ofField t key = .ok o)
include hkey

theorem ne_of_isOperatorName {name : String} (hname : isOperatorName name = true) :
    key ≠ name := by
  rintro rfl
  rw [hkey] at hname
  cases hname

include ho

/-- A condition on its own is the operator behind the field. -/
theorem condition_eq {name : String} (hname : isOperatorName name = true) (v : Json) :
    t.condition ⟨key, name, v⟩ = o.operator name v := by
  have hobject : isOperatorObject [(name, v)] = true := by simp [isOperatorObject, hname]
  have hfield : t.field key (.obj [(name, v)]) = o.operator name v := by
    unfold field
    rw [ho]
    simp [hobject, Operand.operators, Expr.allOf]
  have hentry : t.entry key (.obj [(name, v)]) = o.operator name v >>= fun e => pure (some e) := by
    rw [entry_eq, if_neg, if_neg (ne_of_isOperatorName hkey (by decide)), if_neg, hfield]
    · rw [hkey]
      exact Bool.false_ne_true
    · rw [not_or]
      exact ⟨ne_of_isOperatorName hkey (by decide), ne_of_isOperatorName hkey (by decide)⟩
  unfold condition filter Condition.filter entries
  rw [hentry]
  simp [entries, Expr.allOf]

theorem atom_tracks {name : String} (hname : isOperatorName name = true) (v : Json) :
    Tracks Means (o.operator name v) ((Formula.atom ⟨key, name, v⟩).mapM t.condition) := by
  rw [Formula.mapM, condition_eq hkey ho hname]
  intro args e args' he
  refine ⟨.atom e, ?_, fun v => rfl⟩
  simp only [bind, EStateM.bind, he]
  rfl

theorem isNotIn_tracks (v : Json) :
    Tracks Means (o.operator "$nin" v) ((operatorFormula key "$nin" v).mapM t.condition) := by
  have hoperator : o.operator "$nin" v = o.isNotIn v := by
    unfold Operand.operator
    rfl
  rw [hoperator]
  unfold operatorFormula
  cases v with
  | arr items =>
      cases items with
      | nil => exact .pure fun v => rfl
      | cons first rest =>
          have hin : o.operator "$in" (.arr (first :: rest)) = o.isOneOf first rest := by
            unfold Operand.operator
            rfl
          have hatom := atom_tracks hkey ho (by decide : isOperatorName "$in" = true)
            (.arr (first :: rest))
          rw [hin] at hatom
          exact hatom.map Expr.not Formula.not fun e f h => h.not
  | null => exact .throw _ _
  | bool b => exact .throw _ _
  | int n => exact .throw _ _
  | float x => exact .throw _ _
  | str s => exact .throw _ _
  | obj entries => exact .throw _ _

omit hkey ho in
/-- Of the empty list, nothing is an item, and nothing holds all items. -/
theorem empty_tracks {name : String} (hname : name = "$in" ∨ name = "$all") :
    Tracks Means (o.operator name (.arr []))
      ((operatorFormula key name (.arr [])).mapM t.condition) := by
  have hno : Tracks Means (pure .isFalse) ((Formula.no : Formula Condition).mapM t.condition) :=
    .pure fun v => rfl
  rcases hname with rfl | rfl
  · unfold Operand.operator operatorFormula
    exact hno
  · have hall : o.operator "$all" (.arr []) = if !o.isArray && o.isPlain then
        throw (.invalidOperand "$all" .arrayOrJsonField) else pure .isFalse := by
      unfold Operand.operator
      rfl
    rw [hall]
    unfold operatorFormula
    split
    · exact .throw _ _
    · exact hno

omit hkey ho in
theorem operatorFormula_eq_atom {name : String} {v : Json} (hnot : name ≠ "$not")
    (hnin : name ≠ "$nin") (hv : ¬ (v = .arr [] ∧ (name = "$in" ∨ name = "$all"))) :
    operatorFormula key name v = .atom ⟨key, name, v⟩ := by
  unfold operatorFormula
  rw [if_neg hnot, if_neg hnin]
  split
  · rename_i hname
    split
    · exact absurd ⟨rfl, hname⟩ hv
    · rfl
  · rfl

/-- An operator, given what a negation does. -/
theorem operator_tracks_of {name : String} (hname : isOperatorName name = true) (v : Json)
    (hn : name = "$not" →
      Tracks Means (o.operator name v) ((operatorFormula key name v).mapM t.condition)) :
    Tracks Means (o.operator name v) ((operatorFormula key name v).mapM t.condition) := by
  by_cases hnot : name = "$not"
  · exact hn hnot
  by_cases hnin : name = "$nin"
  · rw [hnin]
    exact isNotIn_tracks hkey ho v
  by_cases hv : v = .arr [] ∧ (name = "$in" ∨ name = "$all")
  · rw [hv.1]
    exact empty_tracks hv.2
  · rw [operatorFormula_eq_atom hnot hnin hv]
    exact atom_tracks hkey ho hname v

omit hkey ho in
theorem operators_tracks_of {entries : List (String × Json)}
    (h : ∀ k ∈ entries, ∀ name, isOperatorName name = true →
      Tracks Means (o.operator name k.2) ((operatorFormula key name k.2).mapM t.condition))
    (hnames : ∀ k ∈ entries, isOperatorName k.1 = true) :
    Tracks MeansEach (o.operators entries)
      (Formula.mapAll t.condition (operatorFormulas key entries)) := by
  induction entries with
  | nil =>
      unfold Operand.operators operatorFormulas
      exact .pure fun v => rfl
  | cons k entries ih =>
      rw [List.forall_mem_cons] at h hnames
      unfold Operand.operators operatorFormulas
      exact .cons (h.1 k.1 hnames.1) (ih h.2 hnames.2)

omit hkey ho in
/-- The operators of an object, joined by "and". -/
theorem operatorObject_tracks {entries : List (String × Json)}
    (h : ∀ k ∈ entries, ∀ name, isOperatorName name = true →
      Tracks Means (o.operator name k.2) ((operatorFormula key name k.2).mapM t.condition))
    (hobject : isOperatorObject entries = true) :
    Tracks Means (o.operators entries >>= fun es => pure (.allOf es))
      ((Formula.all (operatorFormulas key entries)).mapM t.condition) := by
  obtain ⟨-, hnames⟩ := (isOperatorObject_iff entries).mp hobject
  rw [Formula.mapM_all]
  exact (operators_tracks_of h hnames).map Expr.allOf Formula.all fun es fs hfs => hfs.allOf

omit hkey ho in
/-- A negation takes an object. -/
theorem operator_not_eq_throw {v : Json} (hv : ∀ entries, v ≠ .obj entries) :
    o.operator "$not" v = throw (.invalidOperand "$not" .operatorObject) := by
  unfold Operand.operator
  cases v with
  | obj entries => exact absurd rfl (hv entries)
  | null => rfl
  | bool b => rfl
  | int n => rfl
  | float x => rfl
  | str s => rfl
  | arr items => rfl

/-- What an operator means, by induction over its operand: a negation takes further operators. -/
theorem operator_tracks (v : Json) (name : String) (hname : isOperatorName name = true) :
    Tracks Means (o.operator name v) ((operatorFormula key name v).mapM t.condition) := by
  induction v using Json.operand_induct generalizing name with
  | other v hv =>
      apply operator_tracks_of hkey ho hname
      rintro rfl
      rw [operator_not_eq_throw hv]
      exact .throw _ _
  | obj entries ih =>
      apply operator_tracks_of hkey ho hname
      rintro rfl
      have hoperator : o.operator "$not" (.obj entries) = if isOperatorObject entries then
          (o.operators entries >>= fun es => pure (.allOf es)) >>= fun e => pure (.not e)
          else throw (.invalidOperand "$not" .operatorObject) := by
        rw [bind_assoc]
        unfold Operand.operator
        rfl
      have hformula : operatorFormula key "$not" (.obj entries) =
          .not (.all (operatorFormulas key entries)) := by
        unfold operatorFormula
        rfl
      rw [hoperator, hformula]
      split
      · rename_i hobject
        exact (operatorObject_tracks ih hobject).map Expr.not Formula.not fun e f hf => hf.not
      · exact .throw _ _

/-- What is said of a field. -/
theorem field_tracks (v : Json) :
    Tracks Means (t.field key v) ((fieldFormula key v).mapM t.condition) := by
  have equal : Tracks Means (o.equals v) ((Formula.atom ⟨key, "$eq", v⟩).mapM t.condition) := by
    have hatom := atom_tracks hkey ho (by decide : isOperatorName "$eq" = true) v
    rwa [Operand.operator_eq] at hatom
  unfold field fieldFormula
  rw [ho]
  cases v with
  | obj entries =>
      dsimp only
      split
      · rename_i hobject
        exact operatorObject_tracks (fun k _ => operator_tracks hkey ho k.2) hobject
      · exact equal
  | null => exact equal
  | bool b => exact equal
  | int n => exact equal
  | float x => exact equal
  | str s => exact equal
  | arr items => exact equal

end operand

/-! ### Entries -/

section entries

variable {t : Target}

/-- The conditions of the entries of a filter have the truth of the entries' formulas together.
An entry without a condition says nothing. -/
def MeansTogether (es : List (Expr Placeholder)) (fs : List (Formula (Expr Placeholder))) : Prop :=
  ∀ v, Truth.all (es.map (Expr.truth v)) = .all (fs.map (Formula.truth (Expr.truth v)))

/-- What an entry means. -/
def EntryTracks (t : Target) (v : Json) : Prop :=
  ∀ key, Tracks (fun e f => MeansTogether e.toList [f]) (t.entry key v)
    ((entryFormula key v).mapM t.condition)

theorem entries_tracks_of {es : List (String × Json)} (h : ∀ k ∈ es, EntryTracks t k.2) :
    Tracks MeansTogether (t.entries es) (Formula.mapAll t.condition (entryFormulas es)) := by
  induction es with
  | nil =>
      unfold entries entryFormulas
      exact .pure fun v => rfl
  | cons k es ih =>
      rw [List.forall_mem_cons] at h
      unfold entries entryFormulas
      refine (h.1 k.1).bind fun e f hf => ?_
      refine (ih h.2).map (e.toList ++ ·) (f :: ·) fun es fs hfs v => ?_
      rw [List.map_append, Truth.all_append, hf v, hfs v, List.map_cons, List.map_nil,
        Truth.all_singleton, List.map_cons, Truth.all]

theorem MeansTogether.allOf {es : List (Expr Placeholder)}
    {fs : List (Formula (Expr Placeholder))} (h : MeansTogether es fs) :
    Means (.allOf es) (.all fs) := by
  intro v
  rw [Expr.truth_allOf, Formula.truth_all, h v]

theorem filter_tracks_of {es : List (String × Json)} (h : ∀ k ∈ es, EntryTracks t k.2) :
    Tracks Means (t.filter es) ((filterFormula es).mapM t.condition) := by
  unfold filter filterFormula
  rw [Formula.mapM_all]
  exact (entries_tracks_of h).map Expr.allOf Formula.all fun es fs hfs => hfs.allOf

/-- An entry as a filter of its own. -/
theorem single_tracks {v : Json} (h : EntryTracks t v) (key : String) :
    Tracks Means (t.entry key v >>= fun e => pure (.allOf e.toList))
      ((Formula.all [entryFormula key v]).mapM t.condition) := by
  have hone : (Formula.all [entryFormula key v]).mapM t.condition =
      (entryFormula key v).mapM t.condition >>= fun f => pure (.all [f]) := by
    simp [Formula.all, Formula.mapM]
  rw [hone]
  exact (h key).map (fun e => Expr.allOf e.toList) (fun f => Formula.all [f]) fun e f hf => hf.allOf

theorem singles_tracks_of {es : List (String × Json)} (h : ∀ k ∈ es, EntryTracks t k.2) :
    Tracks MeansEach (t.singles es) (Formula.mapAll t.condition (singleFormulas es)) := by
  induction es with
  | nil =>
      unfold singles singleFormulas
      exact .pure fun v => rfl
  | cons k es ih =>
      rw [List.forall_mem_cons] at h
      have hcons : t.singles (k :: es) =
          (t.entry k.1 k.2 >>= fun e => pure (Expr.allOf e.toList)) >>= fun c =>
            t.singles es >>= fun fs => pure (c :: fs) := by
        simp [singles]
      rw [hcons]
      unfold singleFormulas
      exact .cons (single_tracks h.1 k.1) (ih h.2)

theorem filters_cons_obj (t : Target) (connective : String) (es : List (String × Json))
    (items : List Json) : t.filters connective (.obj es :: items) = t.filter es >>= fun c =>
      t.filters connective items >>= fun fs => pure (c :: fs) := by
  simp [filters, filter]

theorem filters_cons_throw (t : Target) (connective : String) {j : Json} (items : List Json)
    (hj : ∀ es, j ≠ .obj es) : ∃ e, t.filters connective (j :: items) = throw e := by
  unfold filters
  cases j with
  | obj es => exact absurd rfl (hj es)
  | _ => exact ⟨_, rfl⟩

theorem filters_tracks_of (connective : String) {items : List Json}
    (h : ∀ j ∈ items, ∀ es, j = .obj es → ∀ k ∈ es, EntryTracks t k.2) :
    Tracks MeansEach (t.filters connective items)
      (Formula.mapAll t.condition (filterFormulas items)) := by
  induction items with
  | nil =>
      unfold filters filterFormulas
      exact .pure fun v => rfl
  | cons j items ih =>
      rw [List.forall_mem_cons] at h
      by_cases hj : ∃ es, j = .obj es
      · obtain ⟨es, rfl⟩ := hj
        rw [filters_cons_obj]
        unfold filterFormulas
        exact .cons (filter_tracks_of (h.1 es rfl)) (ih h.2)
      · obtain ⟨e, he⟩ := t.filters_cons_throw connective items (not_exists.mp hj)
        rw [he]
        exact .throw _ _

/-- What a connective combines. -/
def operandFormulas : Json → List (Formula Condition)
  | .arr items => filterFormulas items
  | .obj es => singleFormulas es
  | _ => []

theorem entryFormula_eq (key : String) (v : Json) : entryFormula key v =
    if key = "$and" then .all (operandFormulas v)
    else if key = "$or" then .any (operandFormulas v)
    else if key = "$comment" then .yes
    else fieldFormula key v := by
  cases v <;> (unfold entryFormula; rfl)

/-- An entry, given what the filters of a connective mean. -/
theorem entry_tracks_of {key : String} {v : Json}
    (h : Tracks MeansEach (t.operands key v) (Formula.mapAll t.condition (operandFormulas v))) :
    Tracks (fun e f => MeansTogether e.toList [f]) (t.entry key v)
      ((entryFormula key v).mapM t.condition) := by
  have hone {e : Expr Placeholder} {f : Formula (Expr Placeholder)} (hf : Means e f) :
      MeansTogether (some e).toList [f] := by
    intro v
    rw [Option.toList_some, List.map_singleton, List.map_singleton, hf v]
  rw [entry_eq, entryFormula_eq]
  by_cases hand : key = "$and"
  · simp only [if_pos (Or.inl hand), if_pos hand]
    rw [Formula.mapM_all]
    exact h.map (fun fs => some (Expr.allOf fs)) Formula.all fun es fs hfs => hone hfs.allOf
  by_cases hor : key = "$or"
  · simp only [if_pos (Or.inr hor), if_neg hand, if_pos hor]
    rw [Formula.mapM_any]
    exact h.map (fun fs => some (Expr.anyOf fs)) Formula.any fun es fs hfs => hone hfs.anyOf
  rw [if_neg (not_or.mpr ⟨hand, hor⟩), if_neg hand, if_neg hor]
  split
  · exact .pure fun v => rfl
  · split
    · exact .throw _ _
    · rename_i hkey
      have hfield : Tracks Means (t.field key v) ((fieldFormula key v).mapM t.condition) := by
        cases ho : Operand.ofField t key with
        | ok o => exact field_tracks (Bool.eq_false_iff.mpr hkey) ho v
        | error e =>
            unfold field
            rw [ho]
            exact .throw _ _
      rw [← bind_pure (Formula.mapM _ _)]
      exact hfield.map some id fun e f hf => hone hf

/-- What an entry means, by induction over its value: a connective takes an array of objects, or
an object, whose entries are entries again. -/
theorem entry_tracks (v : Json) : EntryTracks t v := by
  induction v using Json.filter_induct with
  | scalar v hv =>
      intro key
      apply entry_tracks_of
      rw [operands_of_scalar hv]
      exact .throw _ _
  | arr items ih => exact fun key => entry_tracks_of (filters_tracks_of key ih)
  | obj es ih => exact fun key => entry_tracks_of (singles_tracks_of ih)

theorem filter_tracks (es : Entries Json) :
    Tracks Means (t.filter es) ((filterFormula es).mapM t.condition) :=
  filter_tracks_of fun k _ => entry_tracks k.2

/-- The entries of a filter, and the same entries as filters of their own. -/
theorem entries_tracks_singles (es : List (String × Json)) :
    Tracks (fun cs fs => ∀ v : Expr Placeholder → Truth,
      Truth.all (fs.map (Expr.truth v)) = .all (cs.map (Expr.truth v)))
      (t.entries es) (t.singles es) := by
  induction es with
  | nil =>
      unfold entries singles
      exact .pure fun v => rfl
  | cons k es ih =>
      unfold entries singles
      refine (Tracks.refl (t.entry k.1 k.2)).bind fun e e' he => ?_
      subst he
      refine ih.map (e.toList ++ ·) (Expr.allOf e.toList :: ·) fun cs fs h v => ?_
      rw [List.map_cons, Truth.all, h v, Expr.truth_allOf, List.map_append, Truth.all_append]

/-- A filter that is a single connective. -/
theorem filter_connective {key : String} (hkey : key = "$and" ∨ key = "$or") (v : Json) :
    t.filter [(key, v)] = t.operands key v >>= fun fs =>
      pure (if key = "$and" then .allOf fs else .anyOf fs) := by
  unfold filter entries
  rw [entry_eq, if_pos hkey]
  simp [entries, Expr.allOf]

/-- A filter under `$and` has the truth of the filter. -/
theorem filter_tracks_and (es : Entries Json) :
    Tracks (fun e e' => ∀ v : Expr Placeholder → Truth, e'.truth v = e.truth v)
      (t.filter es) (t.filter [("$and", .obj es)]) := by
  rw [filter_connective (.inl rfl)]
  unfold filter
  refine (entries_tracks_singles es).map Expr.allOf Expr.allOf fun cs fs h v => ?_
  rw [Expr.truth_allOf, Expr.truth_allOf, h v]

end entries

/-- **A filter says what its formula says.**  The condition of an accepted filter has the truth of
the filter's formula over its single conditions, compiled in their order from the same argument
list, whatever truth these have.  Under `$and`, the filter says the same. -/
theorem filter_meaning {t : Target} {es : Entries Json} {args args' : Arguments}
    {e : Expr Placeholder} (h : t.filter es args = .ok e args') :
    (∃ f, (filterFormula es).mapM t.condition args = .ok f args' ∧
      ∀ v, e.truth v = f.truth (Expr.truth v)) ∧
    ∃ e', t.filter [("$and", .obj es)] args = .ok e' args' ∧ ∀ v, e'.truth v = e.truth v :=
  ⟨filter_tracks es args e args' h, filter_tracks_and es args e args' h⟩

end Target

/-- A title, and either tags other than one or a score outside of a range. -/
def Sample.unusual : Entries Json :=
  [("title", .str "a"), ("$comment", .str "either"),
    ("$or", .arr [.obj [("tags", .obj [("$nin", .arr [.str "x"])])],
      .obj [("score", .obj [("$not", .obj [("$gt", .int 1), ("$lt", .int 3)])])]])]

theorem Target.filter_meaning_sample :
    ∃ e title tagged high low,
      Sample.catalogue.filter Sample.unusual .empty =
        .ok e ⟨0, [.str "a", .str "x", .int 1, .int 3]⟩ ∧
      Sample.catalogue.condition ⟨"title", "$eq", .str "a"⟩ .empty = .ok title ⟨0, [.str "a"]⟩ ∧
      Sample.catalogue.condition ⟨"tags", "$in", .arr [.str "x"]⟩ ⟨0, [.str "a"]⟩ =
        .ok tagged ⟨0, [.str "a", .str "x"]⟩ ∧
      Sample.catalogue.condition ⟨"score", "$gt", .int 1⟩ ⟨0, [.str "a", .str "x"]⟩ =
        .ok high ⟨0, [.str "a", .str "x", .int 1]⟩ ∧
      Sample.catalogue.condition ⟨"score", "$lt", .int 3⟩ ⟨0, [.str "a", .str "x", .int 1]⟩ =
        .ok low ⟨0, [.str "a", .str "x", .int 1, .int 3]⟩ ∧
      ∀ v, e.truth v = (title.truth v).and
        ((tagged.truth v).not.or ((high.truth v).and (low.truth v)).not) := by
  obtain ⟨e, h⟩ : ∃ e, Sample.catalogue.filter Sample.unusual .empty =
      .ok e ⟨0, [.str "a", .str "x", .int 1, .int 3]⟩ := ⟨_, rfl⟩
  obtain ⟨⟨f, hf, hmeans⟩, -⟩ := filter_meaning h
  refine ⟨e, _, _, _, _, h, rfl, rfl, rfl, rfl, fun v => ?_⟩
  cases hf
  rw [hmeans]
  simp only [Formula.truth, Truth.yes_and, Truth.and_yes, Truth.or_no]
  rfl

end ShapedQuery
