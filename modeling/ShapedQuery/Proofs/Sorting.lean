import ShapedQuery.Proofs.Rows

/-! # The order of rows

What an `ORDER BY` clause means: the first term that tells two rows apart decides
(`Database.ordering`), and nulls stand where the term says or, by default, behind all values in
ascending order and in front of them in descending order (`OrderTerm.nullsFirst`).

A sort means that rows are compared by their keys one after the other, each ascending or descending,
with null as the smallest value (`lexicographic`).  The clause that a sort compiles to gives this
comparison on all rows in which a column that is never null is not null
(`NamedTable.orderBy_lexicographic`).  The terms of such columns say nothing of nulls, and the
default for them would be wrong, but no null comes up. -/

namespace ShapedQuery

/-! ### Clauses -/

/-- A comparison in a direction. -/
def Direction.apply : Direction → Ordering → Ordering
  | .ascending, o => o
  | .descending, o => o.swap

/-- The other direction. -/
def Direction.flip : Direction → Direction
  | .ascending => .descending
  | .descending => .ascending

namespace OrderTerm

/-- Do nulls come before all values? -/
def nullsFirst {π : Type} (t : OrderTerm π) : Bool :=
  match t.nulls, t.direction with
  | some .first, _ => true
  | some .last, _ => false
  | none, .ascending => false
  | none, .descending => true

/-- How a term orders two values, one of which may be null. -/
def compare {π V : Type} (cmp : V → V → Ordering) (t : OrderTerm π) : Option V → Option V → Ordering
  | none, none => .eq
  | none, some _ => if t.nullsFirst then .lt else .gt
  | some _, none => if t.nullsFirst then .gt else .lt
  | some a, some b => t.direction.apply (cmp a b)

end OrderTerm

/-- How the terms of a clause order two rows: the first that tells them apart decides. -/
def Database.ordering {V : Type} (db : Database V) (cmp : V → V → Ordering) (x y : Row V) :
    List (OrderTerm Placeholder) → Ordering
  | [] => .eq
  | t :: terms =>
    (t.compare cmp (db.value x .empty t.target) (db.value y .empty t.target)).then
      (ordering db cmp x y terms)

/-! ### Sorts -/

/-- Null is smaller than every value. -/
def nullsLeast {V : Type} (cmp : V → V → Ordering) : Option V → Option V → Ordering
  | none, none => .eq
  | none, some _ => .lt
  | some _, none => .gt
  | some a, some b => cmp a b

/-- Two rows by their keys, one key after the other. -/
def lexicographic {V : Type} (cmp : V → V → Ordering) (x y : String → Option V) :
    Entries Direction → Ordering
  | [] => .eq
  | (key, direction) :: sort =>
    (direction.apply (nullsLeast cmp (x key) (y key))).then (lexicographic cmp x y sort)

/-- The sort with all directions the other way. -/
def flipped (sort : Entries Direction) : Entries Direction :=
  sort.map fun k => (k.1, k.2.flip)

section laws

variable {V : Type} {cmp : V → V → Ordering}

theorem keys_flipped (sort : Entries Direction) : (flipped sort).keys = sort.keys := by
  simp [flipped, Entries.keys]

theorem Direction.apply_flip (d : Direction) (o : Ordering) :
    d.flip.apply o = (d.apply o).swap := by
  cases d with
  | ascending => rfl
  | descending => exact Ordering.swap_swap.symm

theorem Direction.apply_swap (d : Direction) (o : Ordering) :
    d.apply o.swap = (d.apply o).swap := by
  cases d <;> rfl

/-- With all directions the other way the comparison is reversed. -/
theorem lexicographic_flipped (x y : String → Option V) (sort : Entries Direction) :
    lexicographic cmp x y (flipped sort) = (lexicographic cmp x y sort).swap := by
  induction sort with
  | nil => rfl
  | cons k sort ih =>
      simp only [flipped, List.map_cons, lexicographic] at ih ⊢
      rw [ih, Direction.apply_flip, Ordering.swap_then]

variable [Std.OrientedCmp cmp]

theorem nullsLeast_swap (a b : Option V) : nullsLeast cmp b a = (nullsLeast cmp a b).swap := by
  cases a with
  | none => cases b <;> rfl
  | some a =>
      cases b with
      | none => rfl
      | some b =>
          show cmp b a = (cmp a b).swap
          exact Std.OrientedCmp.eq_swap

/-- The rows may change places. -/
theorem lexicographic_swap (x y : String → Option V) (sort : Entries Direction) :
    lexicographic cmp y x sort = (lexicographic cmp x y sort).swap := by
  induction sort with
  | nil => rfl
  | cons k sort ih =>
      simp only [lexicographic]
      rw [ih, nullsLeast_swap, Direction.apply_swap, Ordering.swap_then]

end laws

/-! ### Compiling a sort -/

/-- The place of nulls that makes them smallest. -/
def Direction.nulls : Direction → NullsOrder
  | .ascending => .first
  | .descending => .last

namespace NamedTable

variable {t : NamedTable} {label : String}

/-- The term of a key. -/
def orderTerm (label key : String) (c : Column) (d : Direction) : OrderTerm Placeholder :=
  ⟨.columnOf label key, d, if c.nullable then some d.nulls else none⟩

theorem orderBy_cons (t : NamedTable) (label key : String) (d : Direction)
    (sort : Entries Direction) : t.orderBy label ((key, d) :: sort) =
      match t.table.column? key with
      | none => .error (.columnNotFound t.name key)
      | some c => (t.orderBy label sort).map (orderTerm label key c d :: ·) := by
  cases hc : t.table.column? key with
  | none => simp only [orderBy, lookupColumn, hc]
  | some c =>
      cases hrest : t.orderBy label sort with
      | error e => simp only [orderBy, lookupColumn, hc, hrest, Except.map]
      | ok terms =>
          simp only [orderBy, lookupColumn, hc, hrest, Except.map]
          cases d <;> rfl

/-- A sort fails at the first key that is no column. -/
theorem orderBy_eq_error_iff (label : String) {sort : Entries Direction} {e : QueryError} :
    t.orderBy label sort = .error e ↔
      ∃ key, sort.keys.find? (fun k => (t.table.column? k).isNone) = some key ∧
        e = .columnNotFound t.name key := by
  induction sort with
  | nil => simp [orderBy, Entries.keys]
  | cons k sort ih =>
      obtain ⟨key, d⟩ := k
      rw [orderBy_cons, Entries.keys, List.map_cons, List.find?_cons]
      cases hc : t.table.column? key with
      | none => simp [eq_comm]
      | some c =>
          simp only [Option.isNone_some]
          rw [← Entries.keys, ← ih]
          cases t.orderBy label sort with
          | error e' => simp [Except.map]
          | ok terms => simp [Except.map]

/-- One term compares values as its key does, if a column that is never null is not null. -/
theorem compare_orderTerm {V : Type} (cmp : V → V → Ordering) (label key : String) {c : Column}
    (d : Direction) {a b : Option V} (ha : c.nullable = false → a ≠ none)
    (hb : c.nullable = false → b ≠ none) :
    (orderTerm label key c d).compare cmp a b = d.apply (nullsLeast cmp a b) := by
  cases hnullable : c.nullable with
  | true =>
      rw [orderTerm, if_pos hnullable]
      cases d <;> cases a <;> cases b <;> rfl
  | false =>
      obtain ⟨a, rfl⟩ := Option.ne_none_iff_exists'.mp (ha hnullable)
      obtain ⟨b, rfl⟩ := Option.ne_none_iff_exists'.mp (hb hnullable)
      rfl

end NamedTable

/-- A table whose rows stand under an alias. -/
def NamedTable.under (t : NamedTable) (label : String) : Target := ⟨t, some label, false⟩

/-- The columns of a row under an alias. -/
def Row.under {V : Type} (row : Row V) (label key : String) : Option V :=
  row.column (.qualified label key)

namespace NamedTable

variable {V : Type} (db : Database V) (cmp : V → V → Ordering) {t : NamedTable} {label : String}
  {sort : Entries Direction} {terms : List (OrderTerm Placeholder)} {x y : Row V}

theorem ordering_orderBy (h : t.orderBy label sort = .ok terms) (hx : x.Respects (t.under label))
    (hy : y.Respects (t.under label)) :
    db.ordering cmp x y terms = lexicographic cmp (x.under label) (y.under label) sort := by
  induction sort generalizing terms with
  | nil =>
      cases h
      rfl
  | cons k sort ih =>
      obtain ⟨key, d⟩ := k
      rw [orderBy_cons] at h
      cases hc : t.table.column? key with
      | none =>
          rw [hc] at h
          cases h
      | some c =>
          rw [hc] at h
          cases hrest : t.orderBy label sort with
          | error e =>
              rw [hrest] at h
              cases h
          | ok rest =>
              rw [hrest] at h
              cases h
              rw [Database.ordering, lexicographic, ih hrest]
              have hterm := compare_orderTerm cmp label key d (hx key c hc) (hy key c hc)
              exact congrArg (Ordering.then · _) hterm

/-- Whether a sort compiles does not depend on its directions. -/
theorem exists_orderBy_flipped (h : t.orderBy label sort = .ok terms) :
    ∃ terms', t.orderBy label (flipped sort) = .ok terms' := by
  cases hflip : t.orderBy label (flipped sort) with
  | ok terms' => exact ⟨terms', rfl⟩
  | error e =>
      rw [orderBy_eq_error_iff, keys_flipped, ← orderBy_eq_error_iff label, h] at hflip
      cases hflip

/-- **Sorting is lexicographic, and null is the smallest value.**  A sort fails exactly if one of
its keys is no column of the table, and the first such key is the reason.  Otherwise its clause
compares any two rows by the keys in order, each in its direction, with null below all values; and
the sort with all directions the other way compiles too and compares them the other way round. -/
theorem orderBy_lexicographic [Std.OrientedCmp cmp] (t : NamedTable) (label : String)
    (sort : Entries Direction) :
    (∀ e, t.orderBy label sort = .error e ↔
      ∃ key, sort.keys.find? (fun k => (t.table.column? k).isNone) = some key ∧
        e = .columnNotFound t.name key) ∧
    ∀ terms, t.orderBy label sort = .ok terms →
      ∃ terms', t.orderBy label (flipped sort) = .ok terms' ∧
        ∀ x y : Row V, x.Respects (t.under label) → y.Respects (t.under label) →
          db.ordering cmp x y terms = lexicographic cmp (x.under label) (y.under label) sort ∧
          db.ordering cmp x y terms' = (db.ordering cmp x y terms).swap ∧
          db.ordering cmp x y terms' = db.ordering cmp y x terms := by
  refine ⟨fun e => orderBy_eq_error_iff label, fun terms h => ?_⟩
  obtain ⟨terms', h'⟩ := exists_orderBy_flipped h
  refine ⟨terms', h', fun x y hx hy => ?_⟩
  have hxy := ordering_orderBy db cmp h hx hy
  have hyx := ordering_orderBy db cmp h hy hx
  have hflipped := ordering_orderBy db cmp h' hx hy
  rw [lexicographic_flipped] at hflipped
  refine ⟨hxy, ?_, ?_⟩
  · rw [hflipped, hxy]
  · rw [hflipped, hyx]
    exact (lexicographic_swap _ _ _).symm

end NamedTable

namespace Sample

/-- A post with a key, perhaps with a title. -/
def titled (key : String) (title : Option String) : Row (List String) where
  column c := if c = .qualified "p" "title" then title.map ([·]) else some [key]
  other _ := none

theorem respects_titled (key : String) (title : Option String) :
    (titled key title).Respects (catalogue.table.under "p") := by
  refine respects_of_title rfl fun name hname => ?_
  simp [titled, NamedTable.under, Target.ref, hname]

end Sample

namespace NamedTable

/-- By title from the last one down, a post without a title comes behind all others. -/
theorem orderBy_lexicographic_sample :
    ∃ terms, Sample.catalogue.table.orderBy "p" [("title", .descending), ("_id", .ascending)] =
        .ok terms ∧
      (Sample.titled "1" none).Respects (Sample.catalogue.table.under "p") ∧
      Sample.texts.ordering (List.compareLex compare) (Sample.titled "1" none)
        (Sample.titled "2" (some "a")) terms = .gt := by
  obtain ⟨terms, h⟩ : ∃ terms, Sample.catalogue.table.orderBy "p"
      [("title", .descending), ("_id", .ascending)] = .ok terms := ⟨_, rfl⟩
  obtain ⟨-, hterms⟩ := orderBy_lexicographic Sample.texts (List.compareLex compare)
    Sample.catalogue.table "p" [("title", .descending), ("_id", .ascending)]
  obtain ⟨terms', -, hrows⟩ := hterms terms h
  obtain ⟨hlex, -⟩ := hrows (Sample.titled "1" none) (Sample.titled "2" (some "a"))
    (Sample.respects_titled _ _) (Sample.respects_titled _ _)
  exact ⟨terms, h, Sample.respects_titled _ _, hlex⟩

end NamedTable

end ShapedQuery
