import ShapedQuery.Proofs.Heads

/-! # JSON objects in several calls

A call that builds a JSON object takes only so many fields, so a large object is written as several
calls with `||` between them, behind the row it starts from if there is one.

`Expr.sql_object` gives the text in terms of the calls, which have between one and fifty fields each
(`length_of_mem_chunks`).  The value is read by the rules of `Objects`: the last field under a key
counts within a call, and the right side of `||` counts between two objects.  By these, the calls
come to the same as a single one (`Objects.value_terms`), and `Expr.object_in_calls` puts text and
value together. -/

namespace ShapedQuery

/-! ### Texts -/

namespace Piece

theorem text_append (ps qs : List Piece) : text (ps ++ qs) = text ps ++ text qs := by
  unfold text
  rw [List.flatMap_append, String.ofList_append]

@[simp] theorem text_plain (s : String) : text [.plain s] = s := by
  simp [text, chars]

theorem text_separated (separator : String) (rows : List (List Piece)) :
    text (separated separator rows) = separator.intercalate (rows.map text) := by
  induction rows with
  | nil => rfl
  | cons row rows ih =>
      cases rows with
      | nil => simp [separated]
      | cons next rows =>
          have hrest : text (row ++ .plain separator :: separated separator (next :: rows)) =
              text row ++ separator ++ text (separated separator (next :: rows)) := by
            rw [← List.singleton_append, text_append, text_append, text_plain, String.append_assoc]
          rw [List.map_cons, List.map_cons, String.intercalate_cons_cons, ← List.map_cons, ← ih]
          exact hrest

end Piece

/-- A whole row as a JSON object. -/
def rowSql (label : String) : String := "TO_JSONB(" ++ Piece.text [.name label] ++ ".*)"

/-- A key and its value. -/
def fieldSql (field : String × Expr Placeholder) : String :=
  Piece.text [.literal field.1] ++ ", " ++ field.2.sql

/-- A call with some fields. -/
def callSql (fields : List (String × Expr Placeholder)) : String :=
  "JSONB_BUILD_OBJECT( " ++ String.intercalate ", " (fields.map fieldSql) ++ " )"

/-- An object that is put together from terms, or the empty object. -/
def objectSql : List String → String
  | [] => "('\x7b\x7d'::JSONB)"
  | terms => "(" ++ String.intercalate " || " terms ++ ")"

namespace Expr

/-- A field with the number of each placeholder only. -/
def numbered (field : String × Expr Placeholder) : String × Expr Nat :=
  (field.1, field.2.map Placeholder.index)

theorem text_row (label : String) : Piece.text (Part.row label).pieces = rowSql label := by
  have hpieces : (Part.row label).pieces =
      [.plain "TO_JSONB("] ++ [.name label] ++ [.plain ".*)"] := rfl
  rw [hpieces, Piece.text_append, Piece.text_append, Piece.text_plain, Piece.text_plain]
  rfl

theorem text_field (field : String × Expr Placeholder) :
    Piece.text (fieldPieces (numbered field)) = fieldSql field := by
  have hpieces : fieldPieces (numbered field) =
      [.literal field.1] ++ [.plain ", "] ++ (field.2.map Placeholder.index).pieces := rfl
  rw [hpieces, Piece.text_append, Piece.text_append, Piece.text_plain]
  rfl

theorem text_call (fields : List (String × Expr Placeholder)) :
    Piece.text (Part.call (fields.map numbered)).pieces = callSql fields := by
  have hpieces : (Part.call (fields.map numbered)).pieces = [.plain "JSONB_BUILD_OBJECT( "] ++
      Piece.separated ", " ((fields.map numbered).map fieldPieces) ++ [.plain " )"] := rfl
  have hfields : ((fields.map numbered).map fieldPieces).map Piece.text = fields.map fieldSql := by
    rw [List.map_map, List.map_map]
    apply List.map_congr_left
    intro field _
    exact text_field field
  rw [hpieces, Piece.text_append, Piece.text_append, Piece.text_plain, Piece.text_plain,
    Piece.text_separated, hfields]
  rfl

theorem text_parts (row : Option String) (fields : List (String × Expr Placeholder)) :
    ((parts row (fields.map numbered)).map Part.pieces).map Piece.text =
      row.toList.map rowSql ++ (chunks fields).map callSql := by
  rw [parts, chunks_map]
  simp only [List.map_append, List.map_map]
  congr 1
  · apply List.map_congr_left
    intro label _
    exact text_row label
  · apply List.map_congr_left
    intro call _
    exact text_call call

/-- The text of an object: the row if there is one, and then the calls. -/
theorem sql_object (row : Option String) (fields : List (String × Expr Placeholder)) :
    (object row fields).sql = objectSql (row.toList.map rowSql ++ (chunks fields).map callSql) := by
  have hfields : mapFields Placeholder.index fields = fields.map numbered :=
    mapFields_eq Placeholder.index fields
  rw [sql, map, hfields, pieces_object, ← text_parts]
  cases (parts row (fields.map numbered)).map Part.pieces with
  | nil => rfl
  | cons p ps =>
      show Piece.text ([.plain "("] ++ (Piece.separated " || " (p :: ps) ++ [.plain ")"])) =
        "(" ++ String.intercalate " || " ((p :: ps).map Piece.text) ++ ")"
      rw [Piece.text_append, Piece.text_append, Piece.text_separated, Piece.text_plain,
        Piece.text_plain, String.append_assoc]

end Expr

/-- A call has a field, and not more fields than it takes. -/
theorem length_of_mem_chunks {α : Type} {xs call : List α} (h : call ∈ chunks xs) :
    1 ≤ call.length ∧ call.length ≤ maxFieldsPerCall := by
  induction xs using chunks.induct with
  | case1 xs hempty =>
      rw [List.isEmpty_iff] at hempty
      rw [hempty, chunks_nil] at h
      cases h
  | case2 xs hne ih =>
      rw [List.isEmpty_iff] at hne
      rw [chunks_of_ne_nil hne, List.mem_cons] at h
      rcases h with rfl | h
      · have hpos := List.length_pos_iff.mpr hne
        simp only [List.length_take, maxFieldsPerCall]
        omega
      · exact ih h

/-! ### Values -/

/-- The JSON objects of a database.  Two of them are equal if they have the same value under every
key.  In a call the last field under a key counts, and between two objects the right one. -/
structure Objects (O V : Type) where
  get? : O → String → Option V
  ext : ∀ a b, (∀ key, get? a key = get? b key) → a = b
  empty : O
  get?_empty : ∀ key, get? empty key = none
  /-- What a call with some fields gives. -/
  build : List (String × V) → O
  get?_build : ∀ fields key, get? (build fields) key = fields.reverse.lookup key
  /-- What stands for `||`. -/
  concat : O → O → O
  get?_concat : ∀ a b key, get? (concat a b) key = (get? b key).or (get? a key)

namespace Objects

variable {O V : Type} (db : Objects O V)

/-- Objects with `||` between them, of which one may be null. -/
def joined : Option O → Option O → Option O
  | some a, some b => some (db.concat a b)
  | _, _ => none

/-- The value of the terms of an object, from left to right. -/
def value : List (Option O) → Option O
  | [] => some db.empty
  | term :: terms => terms.foldl db.joined term

/-- The terms of an object: the row that it starts from, which is null if it is not there, and
calls with the values of the fields. -/
def terms (rows : String → Option O) (value : Expr Placeholder → V) (row : Option String)
    (calls : List (List (String × Expr Placeholder))) : List (Option O) :=
  row.toList.map rows ++ calls.map fun call => some (db.build (call.map fun f => (f.1, value f.2)))

/-- An object overridden by fields, one after the other. -/
def overridden (o : O) (fields : List (String × V)) : O :=
  fields.foldl (fun o f => db.concat o (db.build [f])) o

/-! The rules of `||` and of calls. -/

theorem concat_assoc (a b c : O) :
    db.concat (db.concat a b) c = db.concat a (db.concat b c) := by
  apply db.ext
  intro key
  simp only [db.get?_concat, Option.or_assoc]

theorem empty_concat (a : O) : db.concat db.empty a = a := by
  apply db.ext
  intro key
  rw [db.get?_concat, db.get?_empty, Option.or_none]

theorem concat_build_nil (a : O) : db.concat a (db.build []) = a := by
  apply db.ext
  intro key
  rw [db.get?_concat, db.get?_build]
  rfl

/-- Two calls give what one call with the fields of both gives. -/
theorem build_append (fields more : List (String × V)) :
    db.build (fields ++ more) = db.concat (db.build fields) (db.build more) := by
  apply db.ext
  intro key
  rw [db.get?_concat, db.get?_build, db.get?_build, db.get?_build, List.reverse_append,
    List.lookup_append]

/-- The fields of a call override an object one by one. -/
theorem concat_build (o : O) (fields : List (String × V)) :
    db.concat o (db.build fields) = db.overridden o fields := by
  induction fields generalizing o with
  | nil => exact db.concat_build_nil o
  | cons f fields ih =>
      have hfirst : db.build (f :: fields) = db.concat (db.build [f]) (db.build fields) :=
        db.build_append [f] fields
      rw [hfirst, ← db.concat_assoc, ih]
      rfl

/-- Calls behind an object override it by all of their fields. -/
theorem foldl_calls (calls : List (List (String × V))) (o : Option O) :
    (calls.map fun call => some (db.build call)).foldl db.joined o =
      o.map fun o => db.concat o (db.build calls.flatten) := by
  induction calls generalizing o with
  | nil =>
      cases o with
      | none => rfl
      | some o => exact congrArg some (db.concat_build_nil o).symm
  | cons call calls ih =>
      rw [List.map_cons, List.foldl_cons, ih, List.flatten_cons, db.build_append]
      cases o with
      | none => rfl
      | some o => exact congrArg some (db.concat_assoc o _ _)

theorem value_calls (calls : List (List (String × V))) :
    db.value (calls.map fun call => some (db.build call)) = some (db.build calls.flatten) := by
  cases calls with
  | nil =>
      have hnil := db.concat_build_nil db.empty
      rw [db.empty_concat] at hnil
      exact congrArg some hnil.symm
  | cons call calls =>
      have hfold := db.foldl_calls calls (some (db.build call))
      rw [List.map_cons, value, hfold, List.flatten_cons, db.build_append]
      rfl

/-- The calls of an object come to the same as the fields, in whatever way they are cut. -/
theorem value_terms (rows : String → Option O) (value : Expr Placeholder → V) (row : Option String)
    (calls : List (List (String × Expr Placeholder))) :
    db.value (db.terms rows value row calls) = ((row.map rows).getD (some db.empty)).map fun o =>
      db.overridden o (calls.flatten.map fun f => (f.1, value f.2)) := by
  have hcalls : (calls.map fun call => some (db.build (call.map fun f => (f.1, value f.2)))) =
      (calls.map (List.map fun f => (f.1, value f.2))).map fun call => some (db.build call) := by
    rw [List.map_map]
    rfl
  simp only [terms, hcalls, List.map_flatten, ← db.concat_build]
  cases row with
  | none =>
      rw [Option.toList_none, List.map_nil, List.nil_append, db.value_calls]
      exact congrArg some (db.empty_concat _).symm
  | some label => exact db.foldl_calls _ (rows label)

/-- Objects as what they have under each key. -/
def lookups (V : Type) : Objects (String → Option V) V where
  get? o := o
  ext _ _ h := funext h
  empty _ := none
  get?_empty _ := rfl
  build fields key := fields.reverse.lookup key
  get?_build _ _ := rfl
  concat a b key := (b key).or (a key)
  get?_concat _ _ _ := rfl

end Objects

/-! ### Text and value -/

/-- **An object in several calls is the same object.**  The text consists of the row, if there is
one, and of calls with one to fifty fields each, which taken together are the fields in order; the
empty object has a text of its own.  The value is that of one call with all of the fields, and that
of the row overridden by the fields in order. -/
theorem Expr.object_in_calls (row : Option String) (fields : List (String × Expr Placeholder)) :
    ∃ calls : List (List (String × Expr Placeholder)),
      (∀ call ∈ calls, 1 ≤ call.length ∧ call.length ≤ 50) ∧ calls.flatten = fields ∧
      (object row fields).sql = objectSql (row.toList.map rowSql ++ calls.map callSql) ∧
      ∀ {O V : Type} (db : Objects O V) (rows : String → Option O) (value : Expr Placeholder → V),
        db.value (db.terms rows value row calls) = db.value (db.terms rows value row [fields]) ∧
        db.value (db.terms rows value row calls) = ((row.map rows).getD (some db.empty)).map
          fun o => db.overridden o (fields.map fun f => (f.1, value f.2)) := by
  refine ⟨chunks fields, fun call hcall => length_of_mem_chunks hcall, flatten_chunks fields,
    sql_object row fields, fun db rows value => ?_⟩
  have hsingle : [fields].flatten = fields := List.append_nil fields
  rw [db.value_terms, db.value_terms, flatten_chunks, hsingle]
  exact ⟨rfl, rfl⟩

namespace Sample

/-- Fifty-one fields under one key. -/
def repeated : List (String × Expr Placeholder) :=
  (List.range 51).map fun n => ("k", .constant (.int n))

def numberOf : Expr Placeholder → Int
  | .constant (.int n) => n
  | _ => 0

/-- A row with a value under that key and under another one. -/
def shadowed (key : String) : Option Int := if key = "k" ∨ key = "x" then some (-1) else none

end Sample

/-- The fields take two calls at least, and the last one of them counts; the other key of the row
stays. -/
theorem Expr.object_in_calls_sample : ∃ calls : List (List (String × Expr Placeholder)),
    (∀ call ∈ calls, 1 ≤ call.length ∧ call.length ≤ 50) ∧ 2 ≤ calls.length ∧
    (object (some "q") Sample.repeated).sql = objectSql (rowSql "q" :: calls.map callSql) ∧
    ∃ o, (Objects.lookups Int).value ((Objects.lookups Int).terms (fun _ => some Sample.shadowed)
        Sample.numberOf (some "q") calls) = some o ∧
      o "k" = some 50 ∧ o "x" = some (-1) ∧ o "y" = none := by
  obtain ⟨calls, hlength, hflatten, hsql, hvalue⟩ := object_in_calls (some "q") Sample.repeated
  obtain ⟨-, hvalue⟩ := hvalue (.lookups Int) (fun _ => some Sample.shadowed) Sample.numberOf
  refine ⟨calls, hlength, ?_, hsql, _, hvalue, rfl, rfl, rfl⟩
  have hfields : calls.flatten.length = 51 := congrArg List.length hflatten
  rcases calls with _ | ⟨first, _ | ⟨second, rest⟩⟩
  · cases hfields
  · have hfirst := (hlength first (List.mem_singleton_self first)).2
    rw [List.flatten_singleton] at hfields
    omega
  · exact Nat.le_add_left 2 rest.length

end ShapedQuery
