import ShapedQuery.Json.Number
import ShapedQuery.Json.Writer
import ShapedQuery.Proofs.Rows

/-! # One of several values

`$in` asks whether a field equals one of several values, and so should be true where one of the
equalities is.  Each equality chooses its left side by the value: a place inside a JSON column is
read as a text, a whole number or a double, and a text column is put into lower case only for
texts.  A list has one left side for all of its values, and it is that of the first.

So the two agree if the values of the list call for one left side (`Target.Uniform`), and then the
order of the list does not matter (`Target.one_of_iff`).  Otherwise a value may be missed that
comes behind one of another kind (`Target.one_of_misses`). -/

namespace ShapedQuery

/-! ### Steps for each value of a list -/

/-- A step and those behind it. -/
theorem Reads.cons {α β : Type} {read : Arguments → α → β} {x : Bind α} {a : β}
    {xs : Bind (List α)} {as : List β} (h : Reads read x a)
    (hs : Reads (fun args => List.map (read args)) xs as) :
    Reads (fun args => List.map (read args)) (x >>= fun e => xs >>= fun es => Pure.pure (e :: es))
      (a :: as) := by
  intro args
  obtain ⟨e, vs, he, hread⟩ := h args
  obtain ⟨es, us, hes, hreads⟩ := hs (args.extend vs)
  rw [Arguments.extend_extend] at hes
  refine ⟨e :: es, vs ++ us, ?_, fun more => ?_⟩
  · simp only [bind, EStateM.bind, he, hes]
    rfl
  · have hfirst := hread (us ++ more)
    have hrest := hreads more
    rw [Arguments.extend_extend] at hrest
    show (e :: es).map (read (args.extend (vs ++ us ++ more))) = a :: as
    rw [List.append_assoc, List.map_cons, hfirst]
    exact congrArg (a :: ·) hrest

namespace Database

variable {V : Type} (db : Database V)

theorem values_eq (row : Row V) (args : Arguments) (es : List (Expr Placeholder)) :
    db.values row args es = es.map (db.value row args) := by
  induction es with
  | nil => rfl
  | cons e es ih => rw [values, ih, List.map_cons]

/-- Each of the values of a list is bound in its turn. -/
theorem bindEach_reads {row : Row V} {f : Json → Bind (Expr Placeholder)} {g : Json → Option V}
    (h : ∀ v, db.Yields row (f v) (g v)) (vs : List Json) :
    Reads (db.values row) (bindEach f vs) (vs.map g) := by
  have hmap : Reads (fun args => List.map (db.value row args)) (bindEach f vs) (vs.map g) := by
    induction vs with
    | nil => exact Reads.pure fun args => rfl
    | cons v vs ih => exact (h v).cons ih
  intro args
  obtain ⟨es, us, hes, hread⟩ := hmap args
  refine ⟨es, us, hes, fun more => ?_⟩
  rw [values_eq]
  exact hread more

/-! ### The two sides of a comparison -/

section operand

variable (o : Operand) (v : Json)

/-- The value of the right side of a comparison. -/
def compared : Option V :=
  if !o.isPlain && v.isContainer then (db.param (.ofJson v)).bind (db.cast ScalarType.jsonb.sqlName)
  else if o.ignoresCase v then (db.param (.ofJson v)).map db.lower
  else db.param (.ofJson v)

/-- The value of an item that an array is asked for. -/
def sought : Option V :=
  match o.itemType? with
  | some type => (db.param (.ofJson v)).bind (db.cast type.sqlName)
  | none => db.param (.ofJson v)

variable (row : Row V)

theorem right_yields_compared : db.Yields row (o.right v) (db.compared o v) := by
  have hbound := db.bindValue_yields row v
  unfold Operand.right compared
  split
  · refine hbound.map (Expr.cast · _) fun args e he => ?_
    rw [value, he]
  · split
    · refine hbound.map Operand.lower fun args e he => ?_
      simp only [Operand.lower, value, values, call, he]
    · exact hbound.map id fun args e he => he

theorem item_yields_sought : db.Yields row (o.item v) (db.sought o v) := by
  have hbound := db.bindValue_yields row v
  unfold Operand.item sought
  cases o.itemType? with
  | some type =>
      refine hbound.map (Expr.cast · type.sqlName) fun args e he => ?_
      rw [value, he]
  | none => exact hbound.map id fun args e he => he

variable {v}

/-- A value that was sent is not null as an item either. -/
theorem exists_sought (hv : v ≠ .null) : ∃ a, db.sought o v = some a := by
  unfold sought
  rw [db.param_ofJson hv]
  cases o.itemType? with
  | some type => exact Option.isSome_iff_exists.mp (db.isSome_cast_sent type.sqlName (.ofJson v))
  | none => exact ⟨_, rfl⟩

end operand

/-! ### Equality and lists of values -/

/-- How arrays compare, by the items that they have: an array contains others if it has all of
their items, and overlaps them if it has one. -/
structure Arrays (has : V → V → Bool) : Prop where
  contains (a : V) (items : List V) :
    db.relates .contains a (db.array (items.map some)) = items.all (has a)
  overlaps (a : V) (items : List V) :
    db.relates .overlaps a (db.array (items.map some)) = items.any (has a)

section operand

variable (row : Row V) {o : Operand} {c : ColumnRef} (hexpr : o.expr = .column c)

/-- The truth of an equality with a value that is no test and no array, if the left side is that of
`first`. -/
def equalsOn (o : Operand) (first v : Json) : Truth :=
  let left := db.value row .empty (o.left first)
  if o.isArray then db.operate .contains left (some (db.array [db.sought o v]))
  else db.operate .eq left (db.compared o v)

include hexpr

theorem equals_decides {v : Json} (hnull : v ≠ .null) (hbool : ∀ b, v ≠ .bool b)
    (harray : v.isArray = false) : db.Decides row (o.equals v) (db.equalsOn row o v v) := by
  rw [Operand.equals_eq hnull hbool, harray, Bool.not_false, Bool.and_true]
  unfold equalsOn
  dsimp only
  split
  · have hitems : db.Yields row (o.item v >>= fun e => pure (.array [e]))
        (some (db.array [db.sought o v])) := by
      refine (db.item_yields_sought o v row).map (fun e => Expr.array [e]) fun args e he => ?_
      rw [value, values, values, he]
    have hdecides := db.binary_decides row hexpr hitems v .contains
    simp only [bind_assoc, pure_bind] at hdecides
    exact hdecides
  · exact db.binary_decides row hexpr (db.right_yields_compared o v row) v .eq

/-- The condition on a list, with the left side of its first value. -/
theorem isOneOf_decides (first : Json) (rest : List Json) :
    db.Decides row (o.isOneOf first rest)
      (if o.isArray then db.operate .overlaps (db.value row .empty (o.left first))
        (some (db.array ((first :: rest).map (db.sought o))))
      else .any ((first :: rest).map (db.equalsOn row o first))) := by
  unfold Operand.isOneOf
  split
  · have hitems : db.Yields row
        (bindEach o.item (first :: rest) >>= fun items => pure (.array items))
        (some (db.array ((first :: rest).map (db.sought o)))) := by
      refine (db.bindEach_reads (fun v => db.item_yields_sought o v row) (first :: rest)).map
        Expr.array fun args es hes => ?_
      rw [value, hes]
    have hdecides := db.binary_decides row hexpr hitems first .overlaps
    simp only [bind_assoc, pure_bind] at hdecides
    exact hdecides
  · rename_i harray
    refine (db.bindEach_reads (fun v => db.right_yields_compared o v row) (first :: rest)).map
      (Expr.isIn (o.left first)) fun args es hes => ?_
    have hequal : ∀ v, db.equalsOn row o first v =
        Truth.ofKnown db.equal (db.value row .empty (o.left first)) (db.compared o v) := by
      intro v
      unfold equalsOn
      rw [if_neg harray, operate]
    show Truth.any ((db.values row args es).map
      (Truth.ofKnown db.equal (db.value row args (o.left first)))) = _
    rw [hes, value_left db row hexpr, List.map_map]
    exact congrArg Truth.any (List.map_congr_left fun v _ => (hequal v).symm)

end operand

end Database

theorem Truth.ofBool_any {α : Type} (p : α → Bool) (as : List α) :
    ofBool (as.any p) = any (as.map fun a => ofBool (p a)) := by
  induction as with
  | nil => rfl
  | cons a as ih =>
      rw [List.any_cons, List.map_cons, any, ← ih]
      cases p a <;> rfl

theorem Truth.any_unknown {α : Type} {as : List α} (h : as ≠ []) :
    any (as.map fun _ => unknown) = unknown := by
  induction as with
  | nil => exact absurd rfl h
  | cons a as ih =>
      rw [List.map_cons, any]
      by_cases has : as = []
      · rw [has]
        rfl
      · rw [ih has]
        rfl

/-- A disjunction is true where one of its conditions is. -/
theorem Truth.any_eq_yes {as : List Truth} : any as = .yes ↔ .yes ∈ as := by
  induction as with
  | nil => simp [any]
  | cons a as ih =>
      rw [any, List.mem_cons, ← ih]
      cases a <;> cases any as <;> decide

namespace Database

variable {V : Type} (db : Database V) {has : V → V → Bool} (harrays : db.Arrays has) (row : Row V)
  {o : Operand}

include harrays

/-- An array overlaps a list if it contains one of its values. -/
theorem overlaps_eq (harray : o.isArray = true) (first : Json) {vs : List Json} (hne : vs ≠ [])
    (hvs : ∀ v ∈ vs, v ≠ .null) :
    db.operate .overlaps (db.value row .empty (o.left first))
        (some (db.array (vs.map (db.sought o)))) =
      .any (vs.map (db.equalsOn row o first)) := by
  have hequal : ∀ v, db.equalsOn row o first v =
      db.operate .contains (db.value row .empty (o.left first))
        (some (db.array [db.sought o v])) := by
    intro v
    unfold equalsOn
    rw [if_pos harray]
  rw [List.map_congr_left fun v _ => hequal v]
  cases db.value row .empty (o.left first) with
  | none => exact (Truth.any_unknown hne).symm
  | some a =>
      simp only [operate, Truth.ofKnown]
      -- none of the values is null, so the items are known and have to be found in the array
      have hsought : ∀ v ∈ vs, db.sought o v = some ((db.sought o v).getD (db.sent .null)) := by
        intro v hv
        obtain ⟨b, hb⟩ := db.exists_sought o (hvs v hv)
        rw [hb, Option.getD_some]
      have hitems : vs.map (db.sought o) =
          (vs.map fun v => (db.sought o v).getD (db.sent .null)).map some := by
        rw [List.map_map]
        exact List.map_congr_left hsought
      have hone : ∀ v ∈ vs, db.relates .contains a (db.array [db.sought o v]) =
          has a ((db.sought o v).getD (db.sent .null)) := by
        intro v hv
        have hsingle := harrays.contains a [(db.sought o v).getD (db.sent .null)]
        rw [List.map_singleton, ← hsought v hv] at hsingle
        rw [hsingle, List.all_cons, List.all_nil, Bool.and_true]
      rw [hitems, harrays.overlaps, List.any_map, Truth.ofBool_any]
      refine congrArg Truth.any (List.map_congr_left fun v hv => ?_)
      rw [hone v hv]
      rfl

/-- **A list of values is the disjunction of the equalities**, with the left side of the first. -/
theorem isOneOf_eq_any {c : ColumnRef} (hexpr : o.expr = .column c) (first : Json)
    (rest : List Json) (hvs : ∀ v ∈ first :: rest, v ≠ .null) :
    db.Decides row (o.isOneOf first rest)
      (.any ((first :: rest).map (db.equalsOn row o first))) := by
  have hdecides := db.isOneOf_decides row hexpr first rest
  split at hdecides
  · rename_i harray
    rw [db.overlaps_eq harrays row harray first (List.cons_ne_nil _ _) hvs] at hdecides
    exact hdecides
  · exact hdecides

end Database

/-! ### Values that call for one left side -/

/-- A text or a number. -/
def Json.isTextOrNumber : Json → Bool
  | .str _ => true
  | .int _ => true
  | .float _ => true
  | _ => false

/-- Two texts, two whole numbers or two doubles. -/
def Json.alike : Json → Json → Bool
  | .str _, .str _ => true
  | .int _, .int _ => true
  | .float _, .float _ => true
  | _, _ => false

/-- The values are compared with a field in one way.  Inside a JSON column they have to be alike; in
a text column where case does not matter, texts do not go with numbers. -/
structure Target.Uniform (t : Target) (field : String) (c : Column) (vs : List Json) : Prop where
  inside : isDotted field = true → ∀ v ∈ vs, ∀ w ∈ vs, v.alike w = true
  lower : t.caseInsensitive = true → c.isTextual = true → ∀ v ∈ vs, ∀ w ∈ vs,
    v.isString = w.isString

instance (t : Target) (field : String) (c : Column) (vs : List Json) :
    Decidable (t.Uniform field c vs) :=
  decidable_of_iff ((isDotted field = true → ∀ v ∈ vs, ∀ w ∈ vs, v.alike w = true) ∧
    (t.caseInsensitive = true → c.isTextual = true → ∀ v ∈ vs, ∀ w ∈ vs,
      v.isString = w.isString)) ⟨fun h => ⟨h.1, h.2⟩, fun h => ⟨h.inside, h.lower⟩⟩

theorem Target.Uniform.perm {t : Target} {field : String} {c : Column} {vs ws : List Json}
    (h : t.Uniform field c vs) (hperm : ws.Perm vs) : t.Uniform field c ws where
  inside hdotted v hv w hw :=
    h.inside hdotted v (hperm.mem_iff.mp hv) w (hperm.mem_iff.mp hw)
  lower hcase htext v hv w hw :=
    h.lower hcase htext v (hperm.mem_iff.mp hv) w (hperm.mem_iff.mp hw)

theorem Json.isString_of_alike {v w : Json} (h : v.alike w = true) : v.isString = w.isString := by
  cases v <;> cases w <;> simp_all [alike, isString]

namespace Operand

variable {o : Operand} {v w : Json}

theorem extracted_of_alike (h : v.alike w = true) : o.extracted v = o.extracted w := by
  cases v <;> cases w <;> simp_all [Json.alike, extracted]

theorem caseInsensitive_ofField {t : Target} {field : String} (h : ofField t field = .ok o) :
    o.caseInsensitive = t.caseInsensitive := by
  unfold ofField at h
  dsimp only at h
  split at h
  · cases h
  · split at h
    · cases h
    · cases h
      rfl

/-- Values that are compared in one way have one left side. -/
theorem left_of_uniform {t : Target} {field : String} (ho : ofField t field = .ok o)
    {vs : List Json} (h : t.Uniform field o.column vs) (hv : v ∈ vs) (hw : w ∈ vs) :
    o.left v = o.left w := by
  obtain ⟨-, hjson, hplain⟩ := ofField_eq_ok ho
  have hcase := caseInsensitive_ofField ho
  have hside : (if o.isPlain then o.expr else o.extracted v) =
      if o.isPlain then o.expr else o.extracted w := by
    split
    · rfl
    · rename_i hnot
      rw [Bool.not_eq_true] at hnot
      rw [hnot, Bool.not_false] at hplain
      exact extracted_of_alike (h.inside hplain.symm v hv w hw)
  have hlower : o.ignoresCase v = o.ignoresCase w := by
    unfold ignoresCase isTextual
    cases hdotted : isDotted field with
    | true => rw [Json.isString_of_alike (h.inside hdotted v hv w hw)]
    | false =>
        rw [hdotted] at hplain
        rw [hplain, Bool.false_or, hcase]
        cases hci : t.caseInsensitive with
        | false => rfl
        | true =>
            cases htext : o.column.isTextual with
            | false => simp only [Bool.and_false]
            | true => rw [h.lower hci htext v hv w hw]
  unfold left
  dsimp only
  rw [hside, hlower]

end Operand

namespace Target

variable {t : Target} {key : String} {o : Operand}

/-- A filter with one value for a field. -/
theorem filter_field (hkey : isOperatorName key = false) (v : Json) :
    t.filter [(key, v)] = t.field key v := by
  have hentry : t.entry key v = t.field key v >>= fun e => pure (some e) := by
    rw [entry_eq, if_neg, if_neg (ne_of_isOperatorName hkey (by decide)), if_neg]
    · rw [hkey]
      exact Bool.false_ne_true
    · rw [not_or]
      exact ⟨ne_of_isOperatorName hkey (by decide), ne_of_isOperatorName hkey (by decide)⟩
  unfold filter entries
  rw [hentry]
  simp [entries, Expr.allOf]

theorem filter_single (hkey : isOperatorName key = false) (ho : Operand.ofField t key = .ok o)
    {v : Json} (hv : v.isTextOrNumber = true) : t.filter [(key, v)] = o.equals v := by
  rw [filter_field hkey]
  unfold field
  rw [ho]
  cases v with
  | obj entries => cases hv
  | _ => rfl

theorem filter_list (hkey : isOperatorName key = false) (ho : Operand.ofField t key = .ok o)
    (first : Json) (rest : List Json) :
    t.filter [(key, .obj [("$in", .arr (first :: rest))])] = o.isOneOf first rest := by
  refine (condition_eq hkey ho (by decide) _).trans ?_
  unfold Operand.operator
  rfl

end Target

namespace Database

variable {V : Type} (db : Database V) {has : V → V → Bool} (harrays : db.Arrays has) (row : Row V)
  {t : Target} {field : String} {o : Operand} (hfield : isOperatorName field = false)
  (ho : Operand.ofField t field = .ok o)

include hfield ho

theorem single_decides {v : Json} (hv : v.isTextOrNumber = true) :
    db.Decides row (t.filter [(field, v)]) (db.equalsOn row o v v) := by
  rw [Target.filter_single hfield ho hv]
  have hexpr := Operand.expr_ofField ho
  cases v with
  | str s => exact db.equals_decides row hexpr (fun h => by cases h) (fun b h => by cases h) rfl
  | int n => exact db.equals_decides row hexpr (fun h => by cases h) (fun b h => by cases h) rfl
  | float x => exact db.equals_decides row hexpr (fun h => by cases h) (fun b h => by cases h) rfl
  | null => cases hv
  | bool b => cases hv
  | arr items => cases hv
  | obj entries => cases hv

include harrays

/-- A list of values, with the left side of the first. -/
theorem list_decides_first {first : Json} {rest : List Json}
    (hvs : ∀ v ∈ first :: rest, v.isTextOrNumber = true) :
    db.Decides row (t.filter [(field, .obj [("$in", .arr (first :: rest))])])
      (.any ((first :: rest).map (db.equalsOn row o first))) := by
  rw [Target.filter_list hfield ho]
  refine db.isOneOf_eq_any harrays row (Operand.expr_ofField ho) first rest fun v hv hnull => ?_
  have hsingle := hvs v hv
  rw [hnull] at hsingle
  cases hsingle

/-- A list of values that are compared in one way is the disjunction of their equalities. -/
theorem list_decides {vs : List Json} (hne : vs ≠ []) (hvs : ∀ v ∈ vs, v.isTextOrNumber = true)
    (huniform : t.Uniform field o.column vs) :
    db.Decides row (t.filter [(field, .obj [("$in", .arr vs)])])
      (.any (vs.map fun v => db.equalsOn row o v v)) := by
  cases vs with
  | nil => exact absurd rfl hne
  | cons first rest =>
      have hleft : ∀ v ∈ first :: rest, db.equalsOn row o first v = db.equalsOn row o v v := by
        intro v hv
        unfold equalsOn
        rw [Operand.left_of_uniform ho huniform List.mem_cons_self hv]
      have hdecides := db.list_decides_first harrays row hfield ho hvs
      rw [List.map_congr_left hleft] at hdecides
      exact hdecides

end Database

/-- **`$in` is the disjunction of equalities.**  On every field, the condition for a list of texts
and numbers that are compared in one way is true in a row if and only if one of the conditions for
its single values is; all of them compile from every argument list.  So the order of the list does
not matter. -/
theorem Target.one_of_iff {V : Type} (db : Database V) {has : V → V → Bool}
    (harrays : db.Arrays has) (row : Row V) {t : Target} {field : String} {c : Column}
    (hfield : isOperatorName field = false)
    (hcolumn : t.table.table.column? (firstSegment field) = some c)
    (hjson : isDotted field = true → c.isJson = true) {vs : List Json} (hne : vs ≠ [])
    (hvs : ∀ v ∈ vs, v.isTextOrNumber = true) (huniform : t.Uniform field c vs) :
    ∃ (oneOf : Truth) (equal : Json → Truth),
      db.Decides row (t.filter [(field, .obj [("$in", .arr vs)])]) oneOf ∧
      (∀ v ∈ vs, db.Decides row (t.filter [(field, v)]) (equal v)) ∧
      (oneOf = .yes ↔ ∃ v ∈ vs, equal v = .yes) ∧
      ∀ ws : List Json, ws.Perm vs → ∃ oneOf',
        db.Decides row (t.filter [(field, .obj [("$in", .arr ws)])]) oneOf' ∧
        (oneOf' = .yes ↔ oneOf = .yes) := by
  obtain ⟨o, ho⟩ := Operand.exists_ofField hcolumn hjson
  obtain ⟨hcolumn', -, -⟩ := Operand.ofField_eq_ok ho
  obtain rfl : o.column = c := Option.some.inj (hcolumn'.symm.trans hcolumn)
  have hyes : ∀ us : List Json, Truth.any (us.map fun v => db.equalsOn row o v v) = .yes ↔
      ∃ v ∈ us, db.equalsOn row o v v = .yes := by
    intro us
    rw [Truth.any_eq_yes, List.mem_map]
  refine ⟨_, fun v => db.equalsOn row o v v,
    db.list_decides harrays row hfield ho hne hvs huniform,
    fun v hv => db.single_decides row hfield ho (hvs v hv), hyes vs, fun ws hperm => ?_⟩
  have hne' : ws ≠ [] := fun hnil => hne (List.perm_nil.mp (hnil ▸ hperm.symm))
  have hws : ∀ v ∈ ws, v.isTextOrNumber = true := fun v hv => hvs v (hperm.mem_iff.mp hv)
  refine ⟨_, db.list_decides harrays row hfield ho hne' hws (huniform.perm hperm), ?_⟩
  rw [hyes, hyes]
  simp only [hperm.mem_iff]

/-! ### Documents to try -/

namespace Sample

/-- A double as the nearest whole number. -/
def rounded (x : Double) : Int :=
  let parts := x.parts
  let size : Nat := if 0 ≤ parts.2 then parts.1 * Nat.pow 2 parts.2.toNat
    else (2 * parts.1 + Nat.pow 2 (-parts.2).toNat) / Nat.pow 2 (-parts.2 + 1).toNat
  if x.isNegative then -(size : Int) else size

/-- What is at a place inside a JSON value. -/
def place : List PathStep → Json → Option Json
  | [], j => some j
  | .key name :: steps, .obj entries => (Entries.get? entries name).bind (place steps)
  | .index n :: steps, .arr items => items[n]?.bind (place steps)
  | _, _ => none

def hasItem : Json → Json → Bool
  | .arr items, j => items.any (·.same j)
  | _, _ => false

/-- Columns and values are JSON values. -/
def documents : Database Json where
  sent
    | .null => .null
    | .bool b => .bool b
    | .int n => .int n
    | .float x => .float x
    | .numeric n => .int n
    | .str s => .str s
    | .json j => j
  isTrue j := j.same (.bool true)
  equal := Json.same
  relates
    | .contains, a, .arr items => items.all (hasItem a)
    | .overlaps, a, .arr items => items.any (hasItem a)
    | _, _, _ => false
  lower
    | .str s => .str (String.ofList (s.toList.flatMap lowercase))
    | j => j
  apply _ _ := none
  array items := .arr (items.map (·.getD .null))
  extract steps asText j := (place steps j).bind fun
    | .null => if asText then none else some .null
    | .str s => some (.str s)
    | j => some (if asText then .str j.compact else j)
  cast
    | "INTEGER", .float x => some (.int (rounded x))
    | _, j => some j
  isSome_cast_sent type p := by
    split <;> rfl

theorem arrays_documents : documents.Arrays hasItem := by
  have hitems : ∀ items : List Json, (items.map some).map (·.getD .null) = items := by
    intro items
    rw [List.map_map]
    exact List.map_id _
  constructor
  · intro a items
    exact congrArg (List.all · (hasItem a)) (hitems items)
  · intro a items
    exact congrArg (List.any · (hasItem a)) (hitems items)

/-- Nine quarters, `2.25`, and a quarter. -/
def nineQuarters : Json := .float ⟨0x4002000000000000⟩

def quarter : Json := .float ⟨0x3FD0000000000000⟩

/-- A post with a title and a number in its data. -/
def rated : Row Json where
  column c :=
    if c = .qualified "p" "data" then some (.obj [("n", nineQuarters)])
    else if c = .qualified "p" "title" then some (.str "A")
    else none
  other _ := none

/-- The catalogue where case does not matter. -/
def caseless : Target := { catalogue with caseInsensitive := true }

def ratingOperand : Operand :=
  ⟨⟨.scalar .jsonb, true⟩, .columnOf "p" "data", [.key "n"], false⟩

def titleOperand : Operand := ⟨⟨.scalar .text, true⟩, .columnOf "p" "title", [], true⟩

end Sample

theorem Target.one_of_iff_sample :
    Sample.catalogue.Uniform "data.n" ⟨.scalar .jsonb, true⟩
      [Sample.quarter, Sample.nineQuarters] ∧
    ∃ (oneOf : Truth) (equal : Json → Truth),
      Sample.documents.Decides Sample.rated (Sample.catalogue.filter
        [("data.n", .obj [("$in", .arr [Sample.quarter, Sample.nineQuarters])])]) oneOf ∧
      Sample.documents.Decides Sample.rated
        (Sample.catalogue.filter [("data.n", Sample.nineQuarters)]) (equal Sample.nineQuarters) ∧
      (oneOf = .yes ↔ ∃ v ∈ [Sample.quarter, Sample.nineQuarters], equal v = .yes) := by
  have huniform : Sample.catalogue.Uniform "data.n" ⟨.scalar .jsonb, true⟩
      [Sample.quarter, Sample.nineQuarters] := by decide
  refine ⟨huniform, ?_⟩
  obtain ⟨oneOf, equal, hin, hequal, hiff, -⟩ := one_of_iff Sample.documents
    Sample.arrays_documents Sample.rated (by decide : isOperatorName "data.n" = false) rfl
    (fun _ => rfl) (List.cons_ne_nil _ _) (by decide) huniform
  exact ⟨oneOf, equal, hin, hequal _ (by simp), hiff⟩

/-- **A value may be missed behind one of another kind.**  The number in the data is nine quarters,
but in a list that starts with a whole number it is compared as a whole number.  The title is an
`A`, but in a list that starts with a number it is not put into lower case, as the value is. -/
theorem Target.one_of_misses :
    Sample.documents.Decides Sample.rated
      (Sample.catalogue.filter [("data.n", Sample.nineQuarters)]) .yes ∧
    Sample.documents.Decides Sample.rated (Sample.catalogue.filter
      [("data.n", .obj [("$in", .arr [Sample.nineQuarters, .int 1])])]) .yes ∧
    Sample.documents.Decides Sample.rated (Sample.catalogue.filter
      [("data.n", .obj [("$in", .arr [.int 1, Sample.nineQuarters])])]) .no ∧
    Sample.documents.Decides Sample.rated
      (Sample.caseless.filter [("title", .str "A")]) .yes ∧
    Sample.documents.Decides Sample.rated (Sample.caseless.filter
      [("title", .obj [("$in", .arr [.int 1, .str "A"])])]) .no := by
  have hdata : Operand.ofField Sample.catalogue "data.n" = .ok Sample.ratingOperand := rfl
  have htitle : Operand.ofField Sample.caseless "title" = .ok Sample.titleOperand := rfl
  have hdata' : isOperatorName "data.n" = false := by decide
  have htitle' : isOperatorName "title" = false := by decide
  have harrays := Sample.arrays_documents
  refine ⟨?_, ?_, ?_, ?_, ?_⟩
  · exact Sample.documents.single_decides Sample.rated hdata' hdata rfl
  · exact Sample.documents.list_decides_first harrays Sample.rated hdata' hdata (by decide)
  · exact Sample.documents.list_decides_first harrays Sample.rated hdata' hdata (by decide)
  · exact Sample.documents.single_decides Sample.rated htitle' htitle rfl
  · exact Sample.documents.list_decides_first harrays Sample.rated htitle' htitle (by decide)

end ShapedQuery
