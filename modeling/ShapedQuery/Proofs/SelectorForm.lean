import ShapedQuery.Proofs.Every
import ShapedQuery.Proofs.SelectorValues
import ShapedQuery.Proofs.Steps

/-! # What the condition of a selector is made of

A selector becomes a condition, or it is refused (`Target.selector_gives`).  It is refused for a
field that is no column of the table, a path into a column that does not hold JSON, an unknown
operator, or an operand of the wrong kind (`Target.Refuses`).  The condition is built from columns
of the table and from expressions of the kinds listed in `BuildsConditions`: connectives of two
conditions or more, tests and comparisons, JSON paths that lead somewhere, casts to column types,
and two of the compiler's own functions. -/

namespace ShapedQuery

/-- `N` holds of every expression that conditions are built from, apart from columns. -/
structure BuildsConditions (N : Expr Placeholder → Prop) : Prop where
  all : ∀ es, 2 ≤ es.length → N (.all es)
  any : ∀ es, 2 ≤ es.length → N (.any es)
  not : ∀ e, N (.not e)
  binary : ∀ l op r, N (.binary l op r)
  isIn : ∀ l es, N (.isIn l es)
  test : ∀ e t, N (.test e t)
  array : ∀ es, N (.array es)
  lower : ∀ es, N (.call .lower es)
  arrayLength : ∀ es, N (.call .arrayLength es)
  path : ∀ e steps asText, steps ≠ [] → N (.path e steps asText)
  cast : ∀ e (t : ScalarType), N (.cast e t.sqlName)
  constant : ∀ c, N (.constant c)
  bound : ∀ p, N (.bound p)

namespace BuildsConditions

variable {N : Expr Placeholder → Prop} (hN : BuildsConditions N)
include hN

theorem every_allOf {es : List (Expr Placeholder)} (h : ∀ e ∈ es, e.Every N) :
    (Expr.allOf es).Every N := by
  match es with
  | [] => exact hN.constant _
  | [e] => exact h e (List.mem_singleton_self e)
  | e :: e' :: es => exact ⟨hN.all _ (by simp), Expr.everyAll_iff.mpr h⟩

theorem every_anyOf {es : List (Expr Placeholder)} (h : ∀ e ∈ es, e.Every N) :
    (Expr.anyOf es).Every N := by
  match es with
  | [] => exact hN.constant _
  | [e] => exact h e (List.mem_singleton_self e)
  | e :: e' :: es => exact ⟨hN.any _ (by simp), Expr.everyAll_iff.mpr h⟩

end BuildsConditions

namespace Target

/-- How a column of the target is written. -/
def ref (t : Target) (name : String) : ColumnRef :=
  match t.label with
  | some label => .qualified label name
  | none => .bare name

/-- Why a selector is refused. -/
def Refuses (t : Target) : QueryError → Prop
  | .columnNotFound table column => table = t.table.name ∧ t.table.table.column? column = none
  | .notAJsonColumn table column =>
    table = t.table.name ∧ ∃ c, t.table.table.column? column = some c ∧ c.isJson = false
  | .unsupportedOperator _ => True
  | .invalidOperand _ _ => True
  | _ => False

end Target

/-! ### Conditions on a field -/

variable {N : Expr Placeholder → Prop} {E : QueryError → Prop}

theorem bindValue_gives (hN : BuildsConditions N) (j : Json) :
    Gives (bindValue j) E (Expr.Every N) :=
  fun _ => hN.bound _

theorem bindEach_gives {f : Json → Bind (Expr Placeholder)} (h : ∀ j, Gives (f j) E (Expr.Every N))
    (js : List Json) : Gives (bindEach f js) E fun es => ∀ e ∈ es, e.Every N := by
  induction js with
  | nil => exact Gives.pure nofun
  | cons j js ih =>
      refine (h j).bind fun e he => ?_
      refine ih.bind fun es hes => ?_
      exact Gives.pure (List.forall_mem_cons.mpr ⟨he, hes⟩)

namespace Operand

section

variable {o : Operand} (hN : BuildsConditions N) (ho : o.expr.Every N)
include hN

theorem every_lower {e : Expr Placeholder} (h : e.Every N) : (lower e).Every N :=
  ⟨hN.lower _, h, trivial⟩

include ho

theorem every_extracted (hp : o.isPlain = false) (v : Json) : (o.extracted v).Every N := by
  have hsteps : o.steps ≠ [] := by
    intro h
    simp [isPlain, h] at hp
  have hpath : ∀ asText, (Expr.path o.expr o.steps asText).Every N := fun asText =>
    ⟨hN.path _ _ _ hsteps, ho⟩
  have hcast : ∀ t : ScalarType, (Expr.cast (.path o.expr o.steps false) t.sqlName).Every N :=
    fun t => ⟨hN.cast _ t, hpath false⟩
  cases v with
  | null => exact hpath true
  | bool b => exact hcast .boolean
  | int n => exact hcast .integer
  | float x => exact hcast .doublePrecision
  | str s => exact hpath true
  | arr items => exact hpath false
  | obj entries => exact hpath false

theorem every_left (v : Json) : (o.left v).Every N := by
  have he : (if o.isPlain then o.expr else o.extracted v).Every N := by
    cases hp : o.isPlain with
    | true => exact ho
    | false => exact every_extracted hN ho hp v
  unfold left
  dsimp only
  split
  · exact every_lower hN he
  · exact he

end

variable (o : Operand) (hN : BuildsConditions N)
include hN

theorem right_gives (v : Json) : Gives (o.right v) E (Expr.Every N) := by
  refine (bindValue_gives hN v).bind fun e he => ?_
  refine Gives.ite (Gives.pure ⟨hN.cast _ _, he⟩) ?_
  exact Gives.ite (Gives.pure (every_lower hN he)) (Gives.pure he)

theorem item_gives (v : Json) : Gives (o.item v) E (Expr.Every N) := by
  refine (bindValue_gives hN v).bind fun e he => ?_
  cases o.itemType? with
  | none => exact Gives.pure he
  | some type => exact Gives.pure ⟨hN.cast _ _, he⟩

variable {o} (ho : o.expr.Every N)
include ho

theorem test_gives (v : Json) (t : Test) :
    Gives (Pure.pure (.test (o.left v) t) : Bind _) E (Expr.Every N) :=
  Gives.pure ⟨hN.test _ _, every_left hN ho v⟩

theorem binary_gives (v : Json) (op : BinaryOp) {x : Bind (Expr Placeholder)}
    (h : Gives x E (Expr.Every N)) :
    Gives (x >>= fun r => Pure.pure (.binary (o.left v) op r)) E (Expr.Every N) :=
  h.bind fun _ hr => Gives.pure ⟨hN.binary _ _ _, every_left hN ho v, hr⟩

theorem array_gives (v : Json) (op : BinaryOp) {x : Bind (List (Expr Placeholder))}
    (h : Gives x E fun es => ∀ e ∈ es, e.Every N) :
    Gives (x >>= fun es => Pure.pure (.binary (o.left v) op (.array es))) E (Expr.Every N) :=
  h.bind fun _ hes => Gives.pure
    ⟨hN.binary _ _ _, every_left hN ho v, hN.array _, Expr.everyAll_iff.mpr hes⟩

theorem equals_gives (v : Json) : Gives (o.equals v) E (Expr.Every N) := by
  have other : Gives
      (if o.isArray && !v.isArray then do
          let e ← o.item v
          pure (.binary (o.left v) .contains (.array [e]))
        else do
          let e ← o.right v
          pure (.binary (o.left v) .eq e)) E (Expr.Every N) := by
    refine Gives.ite ?_ (binary_gives hN ho v .eq (o.right_gives hN v))
    refine (o.item_gives hN v).bind fun e he => Gives.pure ?_
    exact ⟨hN.binary _ _ _, every_left hN ho v, hN.array _, he, trivial⟩
  cases v with
  | null => exact test_gives hN ho .null .null
  | bool b => cases b <;> exact test_gives hN ho _ _
  | int n => exact other
  | float x => exact other
  | str s => exact other
  | arr items => exact other
  | obj entries => exact other

theorem notEquals_gives (v : Json) : Gives (o.notEquals v) E (Expr.Every N) := by
  have other : Gives
      (if o.isArray && !v.isArray then do
          let e ← o.equals v
          pure (.not e)
        else do
          let e ← o.right v
          pure (.binary (o.left v) (if o.isNullable then .distinctFrom else .ne) e)) E
      (Expr.Every N) := by
    refine Gives.ite ?_ (binary_gives hN ho v _ (o.right_gives hN v))
    exact (equals_gives hN ho v).bind fun e he => Gives.pure ⟨hN.not _, he⟩
  cases v with
  | null => exact test_gives hN ho .null .notNull
  | bool b => cases b <;> exact test_gives hN ho _ _
  | int n => exact other
  | float x => exact other
  | str s => exact other
  | arr items => exact other
  | obj entries => exact other

theorem isOneOf_gives (first : Json) (rest : List Json) :
    Gives (o.isOneOf first rest) E (Expr.Every N) := by
  refine Gives.ite ?_ ?_
  · exact array_gives hN ho first .overlaps (bindEach_gives (o.item_gives hN) _)
  · refine (bindEach_gives (o.right_gives hN) _).bind fun es hes => Gives.pure ?_
    exact ⟨hN.isIn _ _, every_left hN ho first, Expr.everyAll_iff.mpr hes⟩

/-! ### Operators -/

section operators

variable (hE : ∀ name expectation, E (.invalidOperand name expectation))
include hE

theorem compare_gives (name : String) (op : BinaryOp) (v : Json) :
    Gives (o.compare name op v) E (Expr.Every N) := by
  have other := binary_gives (E := E) hN ho v op (o.right_gives hN v)
  cases v with
  | null => exact Gives.throw (hE _ _)
  | bool b => exact other
  | int n => exact other
  | float x => exact other
  | str s => exact other
  | arr items => exact Gives.throw (hE _ _)
  | obj entries => exact Gives.throw (hE _ _)

theorem isIn_gives (v : Json) : Gives (o.isIn v) E (Expr.Every N) := by
  match v with
  | .arr [] => exact Gives.pure (hN.constant _)
  | .arr (first :: rest) => exact isOneOf_gives hN ho first rest
  | .null => exact Gives.throw (hE _ _)
  | .bool _ => exact Gives.throw (hE _ _)
  | .int _ => exact Gives.throw (hE _ _)
  | .float _ => exact Gives.throw (hE _ _)
  | .str _ => exact Gives.throw (hE _ _)
  | .obj _ => exact Gives.throw (hE _ _)

theorem isNotIn_gives (v : Json) : Gives (o.isNotIn v) E (Expr.Every N) := by
  match v with
  | .arr [] => exact Gives.pure (hN.constant _)
  | .arr (first :: rest) =>
      exact (isOneOf_gives hN ho first rest).bind fun e he => Gives.pure ⟨hN.not _, he⟩
  | .null => exact Gives.throw (hE _ _)
  | .bool _ => exact Gives.throw (hE _ _)
  | .int _ => exact Gives.throw (hE _ _)
  | .float _ => exact Gives.throw (hE _ _)
  | .str _ => exact Gives.throw (hE _ _)
  | .obj _ => exact Gives.throw (hE _ _)

theorem containsAll_gives (v : Json) : Gives (o.containsAll v) E (Expr.Every N) := by
  cases v with
  | arr values =>
      refine Gives.ite (Gives.throw (hE _ _)) ?_
      refine Gives.ite (Gives.pure (hN.constant _)) ?_
      refine Gives.ite ?_ (binary_gives hN ho _ .contains (o.right_gives hN _))
      exact array_gives hN ho _ .contains (bindEach_gives (o.item_gives hN) values)
  | null => exact Gives.throw (hE _ _)
  | bool _ => exact Gives.throw (hE _ _)
  | int _ => exact Gives.throw (hE _ _)
  | float _ => exact Gives.throw (hE _ _)
  | str _ => exact Gives.throw (hE _ _)
  | obj _ => exact Gives.throw (hE _ _)

theorem exists?_gives (v : Json) : Gives (o.exists? v) E (Expr.Every N) := by
  cases v with
  | bool b => exact test_gives hN ho .null _
  | null => exact Gives.throw (hE _ _)
  | int _ => exact Gives.throw (hE _ _)
  | float _ => exact Gives.throw (hE _ _)
  | str _ => exact Gives.throw (hE _ _)
  | arr _ => exact Gives.throw (hE _ _)
  | obj _ => exact Gives.throw (hE _ _)

theorem hasSize_gives (v : Json) : Gives (o.hasSize v) E (Expr.Every N) := by
  refine Gives.ite (Gives.throw (hE _ _)) ?_
  cases v with
  | int n =>
      refine Gives.ite ?_ (Gives.throw (hE _ _))
      refine (o.right_gives hN (.int n)).bind fun e he => Gives.pure ?_
      exact ⟨hN.binary _ _ _, ⟨hN.arrayLength _, ho, hN.constant _, trivial⟩, he⟩
  | null => exact Gives.throw (hE _ _)
  | bool _ => exact Gives.throw (hE _ _)
  | float _ => exact Gives.throw (hE _ _)
  | str _ => exact Gives.throw (hE _ _)
  | arr _ => exact Gives.throw (hE _ _)
  | obj _ => exact Gives.throw (hE _ _)

variable (hE' : ∀ name, E (.unsupportedOperator name))
include hE'

omit ho hE hE' hN in
theorem operators_gives_of {entries : List (String × Json)}
    (h : ∀ k ∈ entries, ∀ name, Gives (o.operator name k.2) E (Expr.Every N)) :
    Gives (o.operators entries) E fun es => ∀ e ∈ es, e.Every N := by
  induction entries with
  | nil => exact Gives.pure nofun
  | cons k entries ih =>
      rw [List.forall_mem_cons] at h
      unfold operators
      refine (h.1 k.1).bind fun e he => ?_
      refine (ih h.2).bind fun es hes => ?_
      exact Gives.pure (List.forall_mem_cons.mpr ⟨he, hes⟩)

/-- An operator, given what the operators inside a negation do. -/
theorem operator_gives_of (name : String) (v : Json) (hn : Gives
      (match v with
        | .obj entries =>
          if isOperatorObject entries then do
            let es ← o.operators entries
            pure (.not (.allOf es))
          else throw (.invalidOperand name .operatorObject)
        | _ => throw (.invalidOperand name .operatorObject)) E (Expr.Every N)) :
    Gives (o.operator name v) E (Expr.Every N) := by
  unfold operator
  exact .ite (equals_gives hN ho v) <| .ite (notEquals_gives hN ho v) <|
    .ite (compare_gives hN ho hE name .lt v) <| .ite (compare_gives hN ho hE name .le v) <|
    .ite (compare_gives hN ho hE name .gt v) <| .ite (compare_gives hN ho hE name .ge v) <|
    .ite (isIn_gives hN ho hE v) <| .ite (isNotIn_gives hN ho hE v) <|
    .ite (containsAll_gives hN ho hE v) <| .ite (exists?_gives hN ho hE v) <| .ite hn <|
    .ite (hasSize_gives hN ho hE v) (Gives.throw (hE' _))

/-- The condition of an operator, by induction over its operand. -/
theorem operator_gives (v : Json) (name : String) :
    Gives (o.operator name v) E (Expr.Every N) := by
  have hof := operator_gives_of hN ho hE hE'
  induction v using Json.operand_induct generalizing name with
  | other v hv =>
      apply hof
      split
      · exact absurd rfl (hv _)
      · exact Gives.throw (hE _ _)
  | obj entries ih =>
      refine hof name _ (.ite ?_ (Gives.throw (hE _ _)))
      refine (operators_gives_of ih).bind fun es hes => Gives.pure ?_
      exact ⟨hN.not _, hN.every_allOf hes⟩

end operators

end Operand

/-! ### Selectors -/

namespace Target

variable {t : Target} (hN : BuildsConditions N)
  (hcolumn : ∀ name c, t.table.table.column? name = some c → N (.column (t.ref name)))

theorem lookupColumn_eq_ok {t : NamedTable} {name : String} {c : Column}
    (h : t.lookupColumn name = .ok c) : t.table.column? name = some c := by
  unfold NamedTable.lookupColumn at h
  split at h
  · rename_i hc
    cases h
    exact hc
  · cases h

theorem lookupColumn_eq_error {t : NamedTable} {name : String} {e : QueryError}
    (h : t.lookupColumn name = .error e) :
    e = .columnNotFound t.name name ∧ t.table.column? name = none := by
  unfold NamedTable.lookupColumn at h
  split at h
  · cases h
  · rename_i hc
    cases h
    exact ⟨rfl, hc⟩

theorem refuses_of_ofField {name : String} {e : QueryError} (h : Operand.ofField t name = .error e) :
    t.Refuses e := by
  unfold Operand.ofField at h
  dsimp only at h
  split at h
  · rename_i hlookup
    cases h
    obtain ⟨rfl, hnone⟩ := lookupColumn_eq_error hlookup
    exact ⟨rfl, hnone⟩
  · rename_i c hlookup
    split at h
    · rename_i hjson
      cases h
      rw [Bool.and_eq_true, Bool.not_eq_true', Bool.not_eq_true'] at hjson
      exact ⟨rfl, c, lookupColumn_eq_ok hlookup, hjson.2⟩
    · cases h

include hcolumn in
theorem every_ofField {name : String} {o : Operand} (h : Operand.ofField t name = .ok o) :
    o.expr.Every N := by
  unfold Operand.ofField at h
  dsimp only at h
  split at h
  · cases h
  · rename_i c hlookup
    split at h
    · cases h
    · cases h
      exact hcolumn _ c (lookupColumn_eq_ok hlookup)

include hN hcolumn

theorem field_gives (name : String) (v : Json) : Gives (t.field name v) t.Refuses (Expr.Every N) := by
  unfold field
  cases ho : Operand.ofField t name with
  | error e => exact Gives.throw (refuses_of_ofField ho)
  | ok o =>
      have he := every_ofField hcolumn ho
      have hoperator : ∀ v name, Gives (o.operator name v) t.Refuses (Expr.Every N) :=
        Operand.operator_gives hN he (fun _ _ => trivial) (fun _ => trivial)
      cases v with
      | obj entries =>
          refine .ite ?_ (Operand.equals_gives hN he _)
          refine (Operand.operators_gives_of fun k _ => hoperator k.2).bind fun es hes => ?_
          exact Gives.pure (hN.every_allOf hes)
      | null => exact Operand.equals_gives hN he _
      | bool b => exact Operand.equals_gives hN he _
      | int n => exact Operand.equals_gives hN he _
      | float x => exact Operand.equals_gives hN he _
      | str s => exact Operand.equals_gives hN he _
      | arr items => exact Operand.equals_gives hN he _

omit hN hcolumn

/-- The condition of an entry, if it has one, and why it is refused. -/
def EntryGives (t : Target) (N : Expr Placeholder → Prop) (v : Json) : Prop :=
  ∀ key, Gives (t.entry key v) t.Refuses fun e => ∀ d ∈ e.toList, d.Every N

/-- Conditions of which each is as `N` wants it. -/
abbrev GivesAll (t : Target) (N : Expr Placeholder → Prop) (x : Bind (List (Expr Placeholder))) :
    Prop :=
  Gives x t.Refuses fun es => ∀ e ∈ es, e.Every N

theorem entries_gives_of {es : List (String × Json)} (h : ∀ k ∈ es, EntryGives t N k.2) :
    GivesAll t N (t.entries es) := by
  induction es with
  | nil => exact Gives.pure nofun
  | cons k es ih =>
      rw [List.forall_mem_cons] at h
      unfold entries
      refine (h.1 k.1).bind fun e he => ?_
      refine (ih h.2).bind fun es hes => ?_
      exact Gives.pure (List.forall_mem_append.mpr ⟨he, hes⟩)

include hN

theorem singles_gives_of {es : List (String × Json)} (h : ∀ k ∈ es, EntryGives t N k.2) :
    GivesAll t N (t.singles es) := by
  induction es with
  | nil => exact Gives.pure nofun
  | cons k es ih =>
      rw [List.forall_mem_cons] at h
      unfold singles
      refine (h.1 k.1).bind fun e he => ?_
      refine (ih h.2).bind fun es hes => ?_
      exact Gives.pure (List.forall_mem_cons.mpr ⟨hN.every_allOf he, hes⟩)

theorem filters_gives_of (connective : String) {items : List Json}
    (h : ∀ j ∈ items, ∀ es, j = .obj es → ∀ k ∈ es, EntryGives t N k.2) :
    GivesAll t N (t.filters connective items) := by
  induction items with
  | nil => exact Gives.pure nofun
  | cons j items ih =>
      rw [List.forall_mem_cons] at h
      unfold filters
      cases j with
      | obj es =>
          refine (entries_gives_of (h.1 es rfl)).bind fun cs hcs => ?_
          refine (ih h.2).bind fun fs hfs => ?_
          exact Gives.pure (List.forall_mem_cons.mpr ⟨hN.every_allOf hcs, hfs⟩)
      | null => exact Gives.throw trivial
      | bool b => exact Gives.throw trivial
      | int n => exact Gives.throw trivial
      | float x => exact Gives.throw trivial
      | str s => exact Gives.throw trivial
      | arr items => exact Gives.throw trivial

include hcolumn

/-- An entry, given what the filters of a connective do. -/
theorem entry_gives_of {key : String} {v : Json} (h : GivesAll t N (t.operands key v)) :
    Gives (t.entry key v) t.Refuses fun e => ∀ d ∈ e.toList, d.Every N := by
  rw [entry_eq]
  refine .ite ?_ (.ite (Gives.pure nofun) (.ite (Gives.throw trivial) ?_))
  · refine h.bind fun fs hfs => Gives.pure ?_
    rw [Option.toList_some, List.forall_mem_singleton]
    split
    · exact hN.every_allOf hfs
    · exact hN.every_anyOf hfs
  · refine (field_gives hN hcolumn key v).bind fun e he => Gives.pure ?_
    rw [Option.toList_some, List.forall_mem_singleton]
    exact he

/-- The condition of an entry, by induction over its value. -/
theorem entry_gives (v : Json) : EntryGives t N v := by
  have hof : ∀ key v, GivesAll t N (t.operands key v) →
      Gives (t.entry key v) t.Refuses fun e => ∀ d ∈ e.toList, d.Every N :=
    fun _ _ => entry_gives_of hN hcolumn
  induction v using Json.filter_induct with
  | scalar v hv =>
      intro key
      apply hof
      rw [operands_of_scalar hv]
      exact Gives.throw trivial
  | arr items ih => exact fun key => hof _ _ (filters_gives_of hN key ih)
  | obj es ih => exact fun key => hof _ _ (singles_gives_of hN ih)

theorem filter_gives (es : Entries Json) : Gives (t.filter es) t.Refuses (Expr.Every N) := by
  refine (entries_gives_of fun k _ => entry_gives hN hcolumn k.2).bind fun cs hcs => ?_
  exact Gives.pure (hN.every_allOf hcs)

/-- **A selector becomes a condition built from columns of its table, or is refused.** -/
theorem selector_gives (s : Selector) : Gives (t.selector s) t.Refuses (Expr.Every N) :=
  filter_gives hN hcolumn s.entries

end Target

end ShapedQuery
