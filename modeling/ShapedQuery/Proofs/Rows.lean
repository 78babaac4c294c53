import ShapedQuery.Proofs.Meaning

/-! # Conditions on a row

A condition is read in a row of a table (`Row`) by a database (`Database`), which knows what its
values are and how they compare.  Null is no value.  Comparisons and containment are unknown where
a side is null; `IS DISTINCT FROM` and the tests are not.  What holds of a single condition in a
row is one of the valuations of `Expr.truth`.

`Target.equal_or_not` says how `$eq` and `$ne` divide the rows.  Exactly one of them holds, with
one exception: an array column that is null contains no item, and does not fail to contain it
either. -/

namespace ShapedQuery

/-! ### Databases and rows -/

/-- The values of a database and what it does with them.  Null is not among them: it is `none`
where it may stand. -/
structure Database (V : Type) where
  /-- A value as it arrives with a statement. -/
  sent : Param → V
  isTrue : V → Bool
  equal : V → V → Bool
  /-- The comparisons other than equality, and containment. -/
  relates : BinaryOp → V → V → Bool
  lower : V → V
  /-- The functions other than the one for lower case. -/
  apply : Function → List (Option V) → Option V
  array : List (Option V) → V
  /-- What is at a place inside a JSON value, if anything is. -/
  extract : List PathStep → Bool → V → Option V
  /-- What is found inside a JSON value may become null in a cast. -/
  cast : String → V → Option V
  /-- A value that was sent does not. -/
  isSome_cast_sent (type : String) (p : Param) : (cast type (sent p)).isSome

/-- A row: its columns, and what is read of it by expressions that no selector has. -/
structure Row (V : Type) where
  column : ColumnRef → Option V
  other : Expr Placeholder → Option V

/-- Two values that have to be known. -/
def Truth.ofKnown {V : Type} (relates : V → V → Bool) : Option V → Option V → Truth
  | some a, some b => .ofBool (relates a b)
  | _, _ => .unknown

namespace Database

variable {V : Type} (db : Database V)

def param : Param → Option V
  | .null => none
  | p => some (db.sent p)

def call : Function → List (Option V) → Option V
  | .lower, [a] => a.map db.lower
  | f, as => db.apply f as

def operate : BinaryOp → Option V → Option V → Truth
  | .eq, a, b => .ofKnown db.equal a b
  | .ne, a, b => (Truth.ofKnown db.equal a b).not
  | .distinctFrom, some a, some b => .ofBool (!db.equal a b)
  | .distinctFrom, none, none => .no
  | .distinctFrom, _, _ => .yes
  | op, a, b => .ofKnown (db.relates op) a b

def test : Test → Option V → Bool
  | .null, a => a.isNone
  | .notNull, a => a.isSome
  | .true, a => a.any db.isTrue
  | .notTrue, a => !a.any db.isTrue
  | .false, a => a.any (!db.isTrue ·)
  | .notFalse, a => !a.any (!db.isTrue ·)

section reading

variable (row : Row V) (args : Arguments)

mutual

/-- The value of an expression in a row, with the values that are bound. -/
def value : Expr Placeholder → Option V
  | .column c => row.column c
  | .bound p => (args.value? p.index).bind db.param
  | .path e steps asText => (value e).bind (db.extract steps asText)
  | .cast e type => (value e).bind (db.cast type)
  | .call f es => db.call f (values es)
  | .array es => some (db.array (values es))
  | e => row.other e

def values : List (Expr Placeholder) → List (Option V)
  | [] => []
  | e :: es => value e :: values es

end

/-- The truth of a single condition. -/
def holds : Expr Placeholder → Truth
  | .binary l op r => db.operate op (db.value row args l) (db.value row args r)
  | .isIn l es => .any ((db.values row args es).map (Truth.ofKnown db.equal (db.value row args l)))
  | .test e t => .ofBool (db.test t (db.value row args e))
  | e =>
    match db.value row args e with
    | some a => .ofBool (db.isTrue a)
    | none => .unknown

/-- The truth of a condition in a row. -/
def truth (e : Expr Placeholder) : Truth := e.truth (db.holds row args)

@[simp] theorem truth_binary (l : Expr Placeholder) (op : BinaryOp) (r : Expr Placeholder) :
    db.truth row args (.binary l op r) =
      db.operate op (db.value row args l) (db.value row args r) := rfl

@[simp] theorem truth_test (e : Expr Placeholder) (t : Test) :
    db.truth row args (.test e t) = .ofBool (db.test t (db.value row args e)) := rfl

@[simp] theorem truth_not (e : Expr Placeholder) :
    db.truth row args (.not e) = (db.truth row args e).not := rfl

end reading

end Database

/-! ### Reading what a step makes -/

section reads

variable {α β γ δ : Type}

/-- Wherever the step starts, it succeeds, and what it makes reads as `a`, also when further values
are bound behind. -/
def Reads (read : Arguments → α → β) (x : Bind α) (a : β) : Prop :=
  ∀ args, ∃ e vs, x args = .ok e (args.extend vs) ∧ ∀ more, read (args.extend (vs ++ more)) e = a

theorem Reads.pure {read : Arguments → α → β} {e : α} {a : β} (h : ∀ args, read args e = a) :
    Reads read (Pure.pure e) a := by
  intro args
  refine ⟨e, [], ?_, fun more => h _⟩
  rw [Arguments.extend_nil]
  rfl

theorem Reads.map {read : Arguments → α → β} {read' : Arguments → γ → δ} {x : Bind α} {a : β}
    {b : δ} (h : Reads read x a) (f : α → γ)
    (hf : ∀ args e, read args e = a → read' args (f e) = b) :
    Reads read' (x >>= fun e => Pure.pure (f e)) b := by
  intro args
  obtain ⟨e, vs, he, hread⟩ := h args
  refine ⟨f e, vs, ?_, fun more => hf _ e (hread more)⟩
  simp only [bind, EStateM.bind, he]
  rfl

end reads

namespace Database

variable {V : Type} (db : Database V) (row : Row V)

/-- The step makes an expression with this value. -/
def Yields (x : Bind (Expr Placeholder)) (a : Option V) : Prop := Reads (db.value row) x a

/-- The step makes a condition with this truth. -/
def Decides (x : Bind (Expr Placeholder)) (a : Truth) : Prop := Reads (db.truth row) x a

theorem bindValue_yields (j : Json) : db.Yields row (bindValue j) (db.param (.ofJson j)) := by
  intro args
  refine ⟨_, [.ofJson j], rfl, fun more => ?_⟩
  have hlookup : (args.extend ([.ofJson j] ++ more)).value? (args.size + 1) =
      some (.ofJson j) := by
    have hlt : args.offset < args.offset + args.values.length + 1 := by omega
    have hindex : args.offset + args.values.length + 1 - args.offset - 1 = args.values.length := by
      omega
    simp [Arguments.value?, Arguments.extend, Arguments.size, hlt, hindex]
  simp only [value, hlookup]
  rfl

theorem param_ofJson {j : Json} (hj : j ≠ .null) :
    db.param (.ofJson j) = some (db.sent (.ofJson j)) := by
  cases j with
  | null => exact absurd rfl hj
  | int n =>
      rw [Param.ofJson]
      split <;> rfl
  | bool b => rfl
  | float x => rfl
  | str s => rfl
  | arr items => rfl
  | obj entries => rfl

section operand

variable (o : Operand)

/-- The right side of a comparison is not null. -/
theorem right_yields {v : Json} (hv : v ≠ .null) : ∃ r, db.Yields row (o.right v) (some r) := by
  have hbound := db.bindValue_yields row v
  rw [db.param_ofJson hv] at hbound
  unfold Operand.right
  split
  · obtain ⟨r, hr⟩ := Option.isSome_iff_exists.mp
      (db.isSome_cast_sent ScalarType.jsonb.sqlName (.ofJson v))
    refine ⟨r, hbound.map (Expr.cast · _) fun args e he => ?_⟩
    rw [value, he, Option.bind_some, hr]
  · split
    · refine ⟨db.lower (db.sent (.ofJson v)), hbound.map Operand.lower fun args e he => ?_⟩
      simp [Operand.lower, value, values, call, he]
    · exact ⟨_, hbound.map id fun args e he => he⟩

theorem item_yields (v : Json) : ∃ a, db.Yields row (o.item v) a := by
  have hbound := db.bindValue_yields row v
  unfold Operand.item
  cases o.itemType? with
  | some type =>
      refine ⟨(db.param (.ofJson v)).bind (db.cast type.sqlName),
        hbound.map (Expr.cast · type.sqlName) fun args e he => ?_⟩
      rw [value, he]
  | none => exact ⟨_, hbound.map id fun args e he => he⟩

variable {o} {c : ColumnRef} (hexpr : o.expr = .column c)
include hexpr

/-- The left side of a comparison has no placeholder. -/
theorem value_left (v : Json) (args : Arguments) :
    db.value row args (o.left v) = db.value row .empty (o.left v) := by
  have hextracted : db.value row args (o.extracted v) = db.value row .empty (o.extracted v) := by
    cases v <;> simp [Operand.extracted, value, hexpr]
  have hside : db.value row args (if o.isPlain then o.expr else o.extracted v) =
      db.value row .empty (if o.isPlain then o.expr else o.extracted v) := by
    split
    · rw [hexpr, value, value]
    · exact hextracted
  unfold Operand.left
  dsimp only
  split
  · rw [Operand.lower, value, value, values, values, hside]
    rfl
  · exact hside

/-- On a whole column, it is null where the column is. -/
theorem left_eq_none_iff (hplain : o.isPlain = true) (v : Json) :
    db.value row .empty (o.left v) = none ↔ row.column c = none := by
  unfold Operand.left
  dsimp only
  rw [if_pos hplain, hexpr]
  split
  · simp [Operand.lower, value, values, call]
  · rw [value]

theorem test_decides (v : Json) (t : Test) : db.Decides row (pure (.test (o.left v) t))
    (.ofBool (db.test t (db.value row .empty (o.left v)))) := by
  apply Reads.pure
  intro args
  rw [truth_test, value_left db row hexpr]

theorem binary_decides {x : Bind (Expr Placeholder)} {b : Option V} (h : db.Yields row x b)
    (v : Json) (op : BinaryOp) :
    db.Decides row (x >>= fun e => pure (.binary (o.left v) op e))
      (db.operate op (db.value row .empty (o.left v)) b) := by
  refine h.map (Expr.binary (o.left v) op) fun args e he => ?_
  rw [truth_binary, value_left db row hexpr, he]

end operand

end Database

/-! ### Equal or not -/

/-- One of two conditions holds, and not both. -/
def Truth.Split (a b : Truth) : Prop := a = .yes ↔ b ≠ .yes

instance (a b : Truth) : Decidable (a.Split b) := inferInstanceAs (Decidable (_ ↔ _))

/-- Is the value one that an array may contain?  An array column is itself compared with null, a
truth value and an array. -/
def Json.isItem : Json → Bool
  | .null => false
  | .bool _ => false
  | .arr _ => false
  | _ => true

theorem Truth.split_ofBool (b : Bool) : (ofBool b).Split (ofBool !b) := by
  cases b <;> decide

namespace Operand

variable {o : Operand} {v : Json} (hnull : v ≠ .null) (hbool : ∀ b, v ≠ .bool b)
include hnull hbool

/-- Equality with a value that is no test. -/
theorem equals_eq : o.equals v =
    if o.isArray && !v.isArray then
      o.item v >>= fun e => pure (.binary (o.left v) .contains (.array [e]))
    else o.right v >>= fun e => pure (.binary (o.left v) .eq e) := by
  cases v with
  | null => exact absurd rfl hnull
  | bool b => exact absurd rfl (hbool b)
  | _ => rfl

theorem notEquals_eq : o.notEquals v =
    if o.isArray && !v.isArray then o.equals v >>= fun e => pure (.not e)
    else o.right v >>= fun e =>
      pure (.binary (o.left v) (if o.isNullable then .distinctFrom else .ne) e) := by
  cases v with
  | null => exact absurd rfl hnull
  | bool b => exact absurd rfl (hbool b)
  | _ => rfl

theorem isItem_eq : v.isItem = !v.isArray := by
  cases v with
  | null => exact absurd rfl hnull
  | bool b => exact absurd rfl (hbool b)
  | _ => rfl

end Operand

namespace Database

variable {V : Type} (db : Database V) {row : Row V}

/-- A value that is known, against one that is known or may be null. -/
theorem operate_split {a : Option V} {nullable : Bool} (ha : nullable = false → a ≠ none) (b : V) :
    (db.operate .eq a (some b)).Split
      (db.operate (if nullable then .distinctFrom else .ne) a (some b)) := by
  cases a with
  | some a =>
      cases nullable with
      | true => exact Truth.split_ofBool (db.equal a b)
      | false =>
          have hnot : (Truth.ofBool (db.equal a b)).not = .ofBool !db.equal a b := by
            cases db.equal a b <;> rfl
          simp only [Bool.false_eq_true, if_false, operate, Truth.ofKnown, hnot]
          exact Truth.split_ofBool (db.equal a b)
  | none =>
      cases nullable with
      | true => simp [operate, Truth.ofKnown, Truth.Split]
      | false => exact absurd rfl (ha rfl)

/-- Two steps make conditions that split the rows, but leave out those with `missing`. -/
def SplitUnless (row : Row V) (missing : Prop) (x y : Bind (Expr Placeholder)) : Prop :=
  ∃ a b, db.Decides row x a ∧ db.Decides row y b ∧ (missing → a = .unknown ∧ b = .unknown) ∧
    (¬ missing → a.Split b)

section operand

variable {o : Operand} {c : ColumnRef} (hexpr : o.expr = .column c)
include hexpr

theorem tests_split (v : Json) {t t' : Test} (h : ∀ a, db.test t' a = !db.test t a)
    {missing : Prop} (hmissing : ¬ missing) :
    db.SplitUnless row missing (pure (.test (o.left v) t)) (pure (.test (o.left v) t')) := by
  refine ⟨_, _, db.test_decides row hexpr v t, db.test_decides row hexpr v t',
    fun hm => absurd hm hmissing, fun _ => ?_⟩
  rw [h]
  exact Truth.split_ofBool _

/-- Containment in an array column, and its negation. -/
theorem contains_split (harray : o.isArray = true) (v : Json) :
    db.SplitUnless row (row.column c = none)
      (o.item v >>= fun e => pure (.binary (o.left v) .contains (.array [e])))
      ((o.item v >>= fun e => pure (.binary (o.left v) .contains (.array [e]))) >>= fun e =>
        pure (.not e)) := by
  have hplain : o.isPlain = true := by
    rw [Operand.isArray, Bool.and_eq_true] at harray
    exact harray.1
  have hnone := db.left_eq_none_iff row hexpr hplain v
  obtain ⟨a, ha⟩ := db.item_yields row o v
  have hitems : db.Yields row (o.item v >>= fun e => pure (.array [e])) (some (db.array [a])) := by
    refine ha.map (fun e => Expr.array [e]) fun args e he => ?_
    rw [value, values, values, he]
  have heq := db.binary_decides row hexpr hitems v .contains
  simp only [bind_assoc, pure_bind] at heq
  refine ⟨_, _, heq, heq.map Expr.not fun args e he => by rw [truth_not, he], fun hm => ?_,
    fun hm => ?_⟩
  · rw [hnone.mpr hm]
    exact ⟨rfl, rfl⟩
  · cases hl : db.value row .empty (o.left v) with
    | none => exact absurd (hnone.mp hl) hm
    | some l =>
        simp only [operate, Truth.ofKnown]
        cases db.relates .contains l (db.array [a]) <;> decide

/-- A comparison with a value that is not null. -/
theorem compared_split (hrow : o.isNullable = false → row.column c ≠ none) {v : Json}
    (hv : v ≠ .null) {missing : Prop} (hmissing : ¬ missing) :
    db.SplitUnless row missing (o.right v >>= fun e => pure (.binary (o.left v) .eq e))
      (o.right v >>= fun e =>
        pure (.binary (o.left v) (if o.isNullable then .distinctFrom else .ne) e)) := by
  obtain ⟨r, hr⟩ := db.right_yields row o hv
  refine ⟨_, _, db.binary_decides row hexpr hr v _, db.binary_decides row hexpr hr v _,
    fun hm => absurd hm hmissing, fun _ => db.operate_split (fun hnullable hl => ?_) r⟩
  have hplain : o.isPlain = true := by
    rw [Operand.isNullable, Bool.or_eq_false_iff, Bool.not_eq_false'] at hnullable
    exact hnullable.1
  exact hrow hnullable ((db.left_eq_none_iff row hexpr hplain v).mp hl)

/-- What is asked of a field by `$eq` and by `$ne`. -/
theorem equals_split (hrow : o.isNullable = false → row.column c ≠ none) (v : Json) :
    db.SplitUnless row (o.isArray = true ∧ v.isItem = true ∧ row.column c = none)
      (o.equals v) (o.notEquals v) := by
  have compared (hnull : v ≠ .null) (hbool : ∀ b, v ≠ .bool b) :
      db.SplitUnless row (o.isArray = true ∧ v.isItem = true ∧ row.column c = none)
        (o.equals v) (o.notEquals v) := by
    rw [Operand.notEquals_eq hnull hbool, Operand.equals_eq hnull hbool,
      Operand.isItem_eq hnull hbool]
    by_cases hitem : (o.isArray && !v.isArray) = true
    · rw [if_pos hitem, if_pos hitem]
      rw [Bool.and_eq_true] at hitem
      obtain ⟨a, b, ha, hb, hunknown, hsplit⟩ := db.contains_split hexpr hitem.1 v
      exact ⟨a, b, ha, hb, fun hm => hunknown hm.2.2,
        fun hm => hsplit fun hnone => hm ⟨hitem.1, hitem.2, hnone⟩⟩
    · rw [if_neg hitem, if_neg hitem]
      refine db.compared_split hexpr hrow hnull fun hm => hitem ?_
      rw [Bool.and_eq_true]
      exact ⟨hm.1, hm.2.1⟩
  cases v with
  | null => exact db.tests_split hexpr .null (fun a => by cases a <;> rfl) (by simp [Json.isItem])
  | bool b =>
      cases b with
      | true => exact db.tests_split hexpr _ (fun a => rfl) (by simp [Json.isItem])
      | false => exact db.tests_split hexpr _ (fun a => rfl) (by simp [Json.isItem])
  | int n => exact compared (fun h => by cases h) fun b h => by cases h
  | float x => exact compared (fun h => by cases h) fun b h => by cases h
  | str s => exact compared (fun h => by cases h) fun b h => by cases h
  | arr items => exact compared (fun h => by cases h) fun b h => by cases h
  | obj entries => exact compared (fun h => by cases h) fun b h => by cases h

end operand

end Database

/-- The columns of a target that are never null are not null in the row. -/
def Row.Respects {V : Type} (row : Row V) (t : Target) : Prop :=
  ∀ name c, t.table.table.column? name = some c → c.nullable = false →
    row.column (t.ref name) ≠ none

theorem Operand.expr_ofField {t : Target} {field : String} {o : Operand}
    (h : ofField t field = .ok o) : o.expr = .column (t.ref (firstSegment field)) := by
  unfold ofField at h
  dsimp only at h
  rw [FieldPath.column_split] at h
  cases hc : t.table.lookupColumn (firstSegment field) with
  | error e =>
      rw [hc] at h
      cases h
  | ok c =>
      rw [hc] at h
      dsimp only at h
      split at h
      · cases h
      · injection h with h
        rw [← h]
        rfl

theorem Column.isArray_eq_false {c : Column} (h : c.isJson = true) : c.type.isArray = false := by
  cases htype : c.type with
  | scalar type => rfl
  | array items =>
      rw [Column.isJson, htype] at h
      cases h

/-- **`$eq` and `$ne` split the rows.**  Of the two conditions on a field, which compile from every
argument list, exactly one holds in a row.  Left out are the rows in which an array column is null,
if it is asked for an item: there, both are unknown. -/
theorem Target.equal_or_not {V : Type} (db : Database V) {t : Target} {row : Row V}
    (hrow : row.Respects t) {field : String} {c : Column} (hfield : isOperatorName field = false)
    (hcolumn : t.table.table.column? (firstSegment field) = some c)
    (hjson : isDotted field = true → c.isJson = true) (v : Json) :
    ∃ eq ne, db.Decides row (t.filter [(field, .obj [("$eq", v)])]) eq ∧
      db.Decides row (t.filter [(field, .obj [("$ne", v)])]) ne ∧
      (c.type.isArray = true ∧ v.isItem = true ∧ row.column (t.ref (firstSegment field)) = none →
        eq = .unknown ∧ ne = .unknown) ∧
      (¬ (c.type.isArray = true ∧ v.isItem = true ∧
          row.column (t.ref (firstSegment field)) = none) →
        (eq = .yes ↔ ne ≠ .yes)) := by
  obtain ⟨o, ho⟩ := Operand.exists_ofField hcolumn hjson
  obtain ⟨hcolumn', -, hplain⟩ := Operand.ofField_eq_ok ho
  have hc : o.column = c := Option.some.inj (hcolumn'.symm.trans hcolumn)
  have harray : o.isArray = c.type.isArray := by
    rw [Operand.isArray, hc]
    cases hdotted : isDotted field with
    | true => rw [Column.isArray_eq_false (hjson hdotted), Bool.and_false]
    | false =>
        rw [hdotted, Bool.not_eq_false'] at hplain
        rw [hplain, Bool.true_and]
  have hnullable : o.isNullable = false → row.column (t.ref (firstSegment field)) ≠ none := by
    intro h
    rw [Operand.isNullable, Bool.or_eq_false_iff, hc] at h
    exact hrow _ c hcolumn h.2
  have heq : t.filter [(field, .obj [("$eq", v)])] = o.equals v := by
    exact (condition_eq hfield ho (by decide) v).trans (o.operator_eq v)
  have hne : t.filter [(field, .obj [("$ne", v)])] = o.notEquals v := by
    refine (condition_eq hfield ho (by decide) v).trans ?_
    unfold Operand.operator
    rfl
  rw [heq, hne, ← harray]
  exact db.equals_split (Operand.expr_ofField ho) hnullable v

namespace Sample

/-- Texts, and arrays of texts.  A text is an array of one. -/
def texts : Database (List String) where
  sent
    | .str s => [s]
    | _ => []
  isTrue := (· == ["true"])
  equal := (· == ·)
  relates
    | .contains, a, b => b.all a.contains
    | .overlaps, a, b => b.any a.contains
    | _, _, _ => false
  lower := id
  apply _ _ := none
  array items := (items.filterMap id).flatten
  extract _ _ _ := none
  cast _ v := some v
  isSome_cast_sent _ _ := rfl

/-- A post without a title, with its tags. -/
def post (tags : Option (List String)) : Row (List String) where
  column c :=
    if c = .qualified "p" "tags" then tags
    else if c = .qualified "p" "title" ∨ c = .qualified "p" "data" then none
    else some ["1"]
  other _ := none

theorem respects_post (tags : Option (List String)) : (post tags).Respects catalogue := by
  intro name c hc hnullable hnone
  have hname : name = "tags" ∨ name = "title" ∨ name = "data" := by
    by_contra hother
    rw [not_or, not_or] at hother
    simp [post, catalogue, Target.ref, hother] at hnone
  rcases hname with rfl | rfl | rfl <;> (cases hc; cases hnullable)

/-- A post that has all columns but perhaps the title, which may be null. -/
theorem respects_of_title {V : Type} {row : Row V} {t : Target} (ht : t.table = catalogue.table)
    (h : ∀ name, name ≠ "title" → row.column (t.ref name) ≠ none) : row.Respects t := by
  have htitle : catalogue.table.table.column? "title" = some ⟨.scalar .text, true⟩ := rfl
  intro name c hc hnullable
  apply h
  rintro rfl
  rw [ht, htitle, Option.some.injEq] at hc
  rw [← hc] at hnullable
  cases hnullable

end Sample

theorem Target.equal_or_not_sample :
    (Sample.post (some ["x"])).Respects Sample.catalogue ∧
      ∃ eq ne, Sample.texts.Decides (Sample.post (some ["x"]))
          (Sample.catalogue.filter [("tags", .obj [("$eq", .str "y")])]) eq ∧
        Sample.texts.Decides (Sample.post (some ["x"]))
          (Sample.catalogue.filter [("tags", .obj [("$ne", .str "y")])]) ne ∧
        (eq = .yes ↔ ne ≠ .yes) := by
  have hrow := Sample.respects_post (some ["x"])
  refine ⟨hrow, ?_⟩
  obtain ⟨eq, ne, heq, hne, -, hsplit⟩ := equal_or_not Sample.texts hrow
    (by decide : isOperatorName "tags" = false) rfl (fun h => by cases h) (.str "y")
  exact ⟨eq, ne, heq, hne, hsplit fun h => by cases h.2.2⟩

/-- A post without tags is neither among those that have a tag nor among those that do not. -/
theorem Target.equal_or_not_neither :
    (Sample.post none).Respects Sample.catalogue ∧
      Sample.texts.Decides (Sample.post none)
        (Sample.catalogue.filter [("tags", .obj [("$eq", .str "x")])]) .unknown ∧
      Sample.texts.Decides (Sample.post none)
        (Sample.catalogue.filter [("tags", .obj [("$ne", .str "x")])]) .unknown :=
  ⟨Sample.respects_post none, fun _ => ⟨_, [.str "x"], rfl, fun _ => rfl⟩,
    fun _ => ⟨_, [.str "x"], rfl, fun _ => rfl⟩⟩

end ShapedQuery
