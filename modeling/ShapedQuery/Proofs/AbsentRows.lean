import ShapedQuery.Proofs.JsonShape
import ShapedQuery.Proofs.Writing

/-! # Rows that are not there

A join may find no row.  All columns of its alias are null then, and so is the row as a whole.
`Engine.value` is the value of an expression in the rows that stand under the aliases of a
statement, where null is `none`.

A related row is written as an object behind a test of its key.  Its value is null exactly if the
row is not there, and an object otherwise (`Engine.showsRow_relatedRow`), whatever the object is
made of.  This holds of all related rows that a compiled request shows, as the test is on the alias
that the object is read from (`Request.compile_null_rows`). -/

namespace ShapedQuery

/-! ### Rows and values -/

/-- A row that is there: its columns, and the object that it is as a whole.  Its key is not null. -/
structure FoundRow where
  column : String → Option Json
  object : Entries Json
  isSome_key : (column primaryKey).isSome = true

/-- The rows under the aliases of a statement, where there are any. -/
abbrev JoinedRows := String → Option FoundRow

/-- What a database does with values.  Null is `none`. -/
structure Engine where
  /-- The value behind a placeholder. -/
  bound : Placeholder → Option Json
  operate : BinaryOp → Option Json → Option Json → Option Json
  apply : Function → List (Option Json) → Option Json
  /-- Expressions that no field is written with. -/
  other : Expr Placeholder → Option Json

def Constant.value : Constant → Option Json
  | .null => none
  | .bool b => some (.bool b)
  | .int n => some (.int n)
  | .emptyText => some (.str "")

/-- The first object overridden by the fields, of which the last one under a name counts. -/
def Entries.overridden (es fields : Entries Json) : Entries Json :=
  fields.foldl (fun es f => es.insert f.1 f.2) es

namespace Engine

variable (db : Engine) (rows : JoinedRows)

mutual

/-- The value of an expression. -/
def value : Expr Placeholder → Option Json
  | .column (.qualified label name) => (rows label).bind fun row => row.column name
  | .constant c => c.value
  | .bound p => db.bound p
  | .binary l op r => db.operate op (value l) (value r)
  | .call f es => db.apply f (values es)
  | .test e .null => some (.bool (value e).isNone)
  | .test e .notNull => some (.bool (value e).isSome)
  | .cases c y n => if value c = some (.bool true) then value y else value n
  | .object none fields => some (.obj (Entries.overridden [] (fieldValues fields)))
  | .object (some label) fields =>
    (rows label).map fun row => .obj (row.object.overridden (fieldValues fields))
  | e => db.other e

def values : List (Expr Placeholder) → List (Option Json)
  | [] => []
  | e :: es => value e :: values es

/-- The fields of an object, where null becomes the null of JSON. -/
def fieldValues : List (String × Expr Placeholder) → Entries Json
  | [] => []
  | (key, e) :: fields => (key, (value e).getD .null) :: fieldValues fields

end

/-- A value shows `o` of the row under an alias: it is null if there is no such row, and otherwise
the object of the entries in `o`, after the row as a whole if `o` starts from it. -/
structure ShowsRow (label : String) (o : Output) (v : Option Json) : Prop where
  null_iff : v = none ↔ rows label = none
  object : ∀ row, rows label = some row → v =
    some (.obj ((if o.row.isSome then row.object else []).overridden (db.fieldValues rows o.entries)))

variable {db rows}

/-- The key of a row is null exactly if the row is not there. -/
theorem isNone_value_key (label : String) :
    (db.value rows (.columnOf label primaryKey)).isNone = (rows label).isNone := by
  rw [Expr.columnOf, value]
  cases rows label with
  | none => rfl
  | some row =>
      obtain ⟨key, hkey⟩ := Option.isSome_iff_exists.mp row.isSome_key
      rw [Option.bind_some, hkey]
      rfl

/-- A related row is the object that it is made of if the row is there. -/
theorem value_relatedRow (db : Engine) (rows : JoinedRows) (label : String) (o : Output) :
    db.value rows (.relatedRow label primaryKey o.row o.entries) =
      if (rows label).isNone then none else db.value rows (.object o.row o.entries) := by
  have hguard : db.value rows (.test (.columnOf label primaryKey) .null) =
      some (.bool (rows label).isNone) := by
    rw [value, isNone_value_key]
  rw [Expr.relatedRow, value, hguard]
  cases (rows label).isNone with
  | true => exact if_pos rfl
  | false => exact if_neg (by decide)

/-- The object of a row that is there. -/
theorem value_object {label : String} {o : Output} (hrow : ∀ l, o.row = some l → l = label)
    {row : FoundRow} (h : rows label = some row) : db.value rows (.object o.row o.entries) =
      some (.obj ((if o.row.isSome then row.object else []).overridden
        (db.fieldValues rows o.entries))) := by
  cases ho : o.row with
  | none => rfl
  | some l =>
      have hl := hrow l ho
      subst hl
      rw [value, h]
      rfl

/-- **A related row is null exactly if it is not there**, and an object otherwise. -/
theorem showsRow_relatedRow {label : String} {o : Output}
    (hrow : ∀ l, o.row = some l → l = label) :
    db.ShowsRow rows label o (db.value rows (.relatedRow label primaryKey o.row o.entries)) := by
  have hvalue := value_relatedRow db rows label o
  have hobject : ∀ row, rows label = some row →
      db.value rows (.relatedRow label primaryKey o.row o.entries) =
        some (.obj ((if o.row.isSome then row.object else []).overridden
          (db.fieldValues rows o.entries))) := by
    intro row h
    rw [hvalue, h]
    exact value_object hrow h
  refine ⟨⟨fun hnull => ?_, fun hnone => ?_⟩, hobject⟩
  · cases hfound : rows label with
    | none => rfl
    | some row =>
        rw [hobject row hfound] at hnull
        cases hnull
  · rw [hvalue, hnone]
    rfl

end Engine

/-- What is written for a related row shows it, whatever rows are joined.  It does not matter what
is written for an argument. -/
def Legend.nullable (joins : List (Join Placeholder)) : Legend where
  argument _ _ := True
  joined := JoinedBy (fun _ => True) (fun _ _ => True) joins
  row label o e := ∀ (db : Engine) (rows : JoinedRows), db.ShowsRow rows label o (db.value rows e)

theorem Legend.of_within_nullable (S : JoinSpec → Prop)
    (argument : String → Expr Placeholder → Prop) (joins : List (Join Placeholder)) :
    (Legend.of S argument joins).Within (.nullable joins) where
  argument _ := trivial
  joined := (Legend.of_within (fun _ _ => trivial) (fun _ _ _ => trivial)
    fun j hj => ⟨j, hj, rfl⟩).joined
  row := by
    rintro label o e ⟨hrow, rfl⟩ db rows
    exact Engine.showsRow_relatedRow hrow

/-! ### Requests -/

namespace Request

variable {env : Env} {r : Request} {aliases : Aliases} {q : Query}

/-- **A related row that is not there is null, and never an object.**  Every relation that the user
gets to see has a join of its own, made from the row that it belongs to.  Whatever rows are joined,
the value that is shown for it is null if that join finds no row, and otherwise the object of what
is shown of the row; the related rows in that object are of the same kind again, down to any depth.
The same holds of the rows that computed fields show. -/
theorem compile_null_rows (h : r.compile env aliases = .ok q) :
    ∃ f o, env.metadata.fragments.get? r.fragment = some f ∧
      q.select.source = some ⟨f.table, rootAlias f.table⟩ ∧ q.select.Displays o ∧
      (q.select.joins.map Join.label).Nodup ∧
      ∀ depth, env.settings.maxFragmentDepth.toNat + 1 < depth →
        Output.Written env (.nullable q.select.joins) depth (.fields r.fragment f.selections)
          f.table (rootAlias f.table) o := by
  obtain ⟨f, table, w, w', htrace⟩ := compile_writes (Compile.admits_true env).joins h
  refine ⟨f, w.context.output, htrace.fragment, htrace.source, htrace.displays, ?_,
    fun depth hdepth => ?_⟩
  · rw [htrace.completes.joins, List.map_map]
    exact (Context.nodup_of_repeatedAlias? htrace.completes.labels).1
  · rw [htrace.completes.joins]
    exact (htrace.written depth hdepth).mono (Legend.of_within_nullable _ _ _)

/-- In the library, the author of a book is null exactly if the join of the author finds no row. -/
theorem compile_null_rows_sample :
    ∃ q o, Sample.libraryRequest.compile Sample.libraryEnv .sequential = .ok q ∧
      q.select.Displays o ∧ ∃ label e, ("author", e) ∈ o.entries ∧
        ∀ (db : Engine) (rows : JoinedRows), db.value rows e = none ↔ rows label = none := by
  obtain ⟨q, hq, -⟩ := Sample.compile_libraryRequest
  obtain ⟨f, o, hf, -, hdisplays, -, hwritten⟩ := compile_null_rows hq
  cases hf
  obtain ⟨t, es, ht, -, hes, hentries⟩ := hwritten _ (Nat.lt_succ_self _)
  cases ht
  obtain ⟨_, _, -, ⟨_, _, -, ⟨_, _, ⟨_, hfield, hauthor⟩, rfl, rfl⟩, rfl⟩, rfl⟩ := hes
  cases hfield
  obtain ⟨label, o', e, -, hrow, -, rfl⟩ := hauthor
  refine ⟨q, o, hq, hdisplays, label, e, ?_, fun db rows => (hrow db rows).null_iff⟩
  rw [hentries]
  refine List.mem_append_right _ (List.mem_append_right _ (List.mem_append_right _ ?_))
  exact List.mem_append_left _ (List.mem_singleton_self _)

end Request

end ShapedQuery
