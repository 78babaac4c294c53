import ShapedQuery.Metadata.Column
import ShapedQuery.Proofs.Lexer
import ShapedQuery.Proofs.Placeholders
import ShapedQuery.Sql.Render

/-! # Statements read back

Whatever names and keys stand in a statement, reading its text gives back exactly these, in
order, together with its placeholders, and never ends inside a quote or a comment
(`sql_marks`).

`Expr.marks`, `Select.marks` and so on list the names, keys and placeholders of a statement from
left to right.  Two kinds of texts are written as they are: the names of functions, which must be
identifiers, and the types of casts, which must be names of column types (`Expr.WellNamed`). -/

namespace ShapedQuery

open Lexer

/-! ### The marks of a statement -/

def Constant.marks : Constant → List Mark
  | .emptyText => [.literal ""]
  | _ => []

def ColumnRef.marks : ColumnRef → List Mark
  | .qualified table name => [.name table, .name name]
  | .bare name => [.name name]

def PathStep.marks : PathStep → List Mark
  | .key name => [.literal name]
  | .index _ => []

namespace Expr

mutual

/-- The names, keys and placeholders of an expression, from left to right.  An object without a
row and fields is written as a literal. -/
def marks : Expr Nat → List Mark
  | .all es => marksAll es
  | .any es => marksAll es
  | .not e => marks e
  | .binary l _ r => marks l ++ marks r
  | .isIn l es => marks l ++ marksAll es
  | .test e _ => marks e
  | .call _ es => marksAll es
  | .array es => marksAll es
  | .column c => c.marks
  | .path e steps _ => marks e ++ steps.flatMap PathStep.marks
  | .cases c y n => marks c ++ (marks y ++ marks n)
  | .object row fields =>
    if row.isNone && fields.isEmpty then [.literal "\x7b\x7d"]
    else row.toList.map .name ++ marksFields fields
  | .cast e _ => marks e
  | .constant c => c.marks
  | .bound n => [.placeholder n]

def marksAll : List (Expr Nat) → List Mark
  | [] => []
  | e :: es => marks e ++ marksAll es

def marksFields : List (String × Expr Nat) → List Mark
  | [] => []
  | (key, e) :: es => .literal key :: (marks e ++ marksFields es)

end

theorem marksAll_eq (es : List (Expr Nat)) : marksAll es = es.flatMap marks := by
  induction es with
  | nil => rfl
  | cons e es ih => rw [marksAll, ih, List.flatMap_cons]

theorem marksFields_eq (fields : List (String × Expr Nat)) :
    marksFields fields = fields.flatMap fun f => .literal f.1 :: f.2.marks := by
  induction fields with
  | nil => rfl
  | cons f fields ih => rw [marksFields, ih, List.flatMap_cons, List.cons_append]

theorem piecesAll_eq (es : List (Expr Nat)) : piecesAll es = es.map pieces := by
  induction es with
  | nil => rfl
  | cons e es ih => rw [piecesAll, ih, List.map_cons]

theorem piecesFields_eq (fields : List (String × Expr Nat)) :
    piecesFields fields = fields.map fun f => .literal f.1 :: .plain ", " :: f.2.pieces := by
  induction fields with
  | nil => rfl
  | cons f fields ih => rw [piecesFields, ih, List.map_cons]

end Expr

def SelectItem.marks : SelectItem Nat → List Mark
  | .star table => [.name table]
  | .column c => c.marks
  | .named e name => e.marks ++ [.name name]

def Source.marks (s : Source) : List Mark := [.name s.table, .name s.label]

def Join.marks (j : Join Nat) : List Mark :=
  .name j.table :: .name j.label :: j.on.flatMap Expr.marks

/-- The names, keys and placeholders of a statement, clause by clause.  Its comment has none. -/
def Select.marks (s : Select Nat) : List Mark :=
  s.items.flatMap SelectItem.marks ++ s.source.toList.flatMap Source.marks ++
  s.joins.flatMap Join.marks ++ s.condition.marks ++ s.order.flatMap (fun t => t.target.marks) ++
  s.limit.toList.map .placeholder ++ s.offset.toList.map .placeholder

def CreateIndex.marks (c : CreateIndex Nat) : List Mark :=
  .name c.name :: .name c.table :: (c.elements.flatMap Expr.marks ++ c.condition.marks)

def DropIndex.marks (d : DropIndex) : List Mark := [.name d.name]

/-! ### What is written as it is -/

/-- Functions that the metadata names are identifiers. -/
def Function.WellNamed : Function → Prop
  | .named name => isIdentifier name = true
  | _ => True

namespace Expr

variable {π ρ : Type}

mutual

/-- The functions of an expression are well named and its casts are to column types. -/
def WellNamed : Expr π → Prop
  | .all es => WellNamedAll es
  | .any es => WellNamedAll es
  | .not e => WellNamed e
  | .binary l _ r => WellNamed l ∧ WellNamed r
  | .isIn l es => WellNamed l ∧ WellNamedAll es
  | .test e _ => WellNamed e
  | .call f es => f.WellNamed ∧ WellNamedAll es
  | .array es => WellNamedAll es
  | .column _ => True
  | .path e _ _ => WellNamed e
  | .cases c y n => WellNamed c ∧ WellNamed y ∧ WellNamed n
  | .object _ fields => WellNamedFields fields
  | .cast e type => WellNamed e ∧ ∃ t : ScalarType, t.sqlName = type
  | .constant _ => True
  | .bound _ => True

def WellNamedAll : List (Expr π) → Prop
  | [] => True
  | e :: es => WellNamed e ∧ WellNamedAll es

def WellNamedFields : List (String × Expr π) → Prop
  | [] => True
  | (_, e) :: es => WellNamed e ∧ WellNamedFields es

end

theorem wellNamedAll_iff {es : List (Expr π)} : WellNamedAll es ↔ ∀ e ∈ es, e.WellNamed := by
  induction es with
  | nil => exact ⟨fun _ => nofun, fun _ => trivial⟩
  | cons e es ih => rw [WellNamedAll, ih, List.forall_mem_cons]

theorem wellNamedFields_iff {fields : List (String × Expr π)} :
    WellNamedFields fields ↔ ∀ f ∈ fields, f.2.WellNamed := by
  induction fields with
  | nil => exact ⟨fun _ => nofun, fun _ => trivial⟩
  | cons f fields ih => rw [WellNamedFields, ih, List.forall_mem_cons]

theorem WellNamedAll.mapAll {f : π → ρ} {es : List (Expr π)}
    (ih : ∀ e ∈ es, e.WellNamed → (e.map f).WellNamed) (h : WellNamedAll es) :
    WellNamedAll (Expr.mapAll f es) := by
  rw [mapAll_eq, wellNamedAll_iff, List.forall_mem_map]
  exact fun e he => ih e he (wellNamedAll_iff.mp h e he)

theorem WellNamedFields.mapFields {f : π → ρ} {fields : List (String × Expr π)}
    (ih : ∀ k ∈ fields, k.2.WellNamed → (k.2.map f).WellNamed) (h : WellNamedFields fields) :
    WellNamedFields (Expr.mapFields f fields) := by
  rw [mapFields_eq, wellNamedFields_iff, List.forall_mem_map]
  exact fun k hk => ih k hk (wellNamedFields_iff.mp h k hk)

/-- What stands at the placeholders is of no concern. -/
theorem WellNamed.map (f : π → ρ) {e : Expr π} (h : e.WellNamed) : (e.map f).WellNamed := by
  induction e using Expr.induct with
  | all es ih => exact h.mapAll ih
  | any es ih => exact h.mapAll ih
  | not e ih => exact ih h
  | binary l op r ihl ihr => exact ⟨ihl h.1, ihr h.2⟩
  | isIn l es ihl ih => exact ⟨ihl h.1, h.2.mapAll ih⟩
  | test e t ih => exact ih h
  | call g es ih => exact ⟨h.1, h.2.mapAll ih⟩
  | array es ih => exact h.mapAll ih
  | column c => trivial
  | path e steps asText ih => exact ih h
  | cases c y n ihc ihy ihn => exact ⟨ihc h.1, ihy h.2.1, ihn h.2.2⟩
  | object row fields ih => exact h.mapFields ih
  | cast e type ih => exact ⟨ih h.1, h.2⟩
  | constant c => trivial
  | bound p => trivial

end Expr

section wellNamed

variable {π ρ : Type} (f : π → ρ)

def SelectItem.WellNamed : SelectItem π → Prop
  | .named e _ => e.WellNamed
  | _ => True

structure Select.WellNamed (s : Select π) : Prop where
  items : ∀ i ∈ s.items, i.WellNamed
  joins : ∀ j ∈ s.joins, ∀ e ∈ j.on, e.WellNamed
  condition : s.condition.WellNamed
  order : ∀ t ∈ s.order, t.target.WellNamed

structure CreateIndex.WellNamed (c : CreateIndex π) : Prop where
  elements : ∀ e ∈ c.elements, e.WellNamed
  condition : c.condition.WellNamed

theorem SelectItem.WellNamed.map {i : SelectItem π} (h : i.WellNamed) : (i.map f).WellNamed := by
  cases i with
  | star table => trivial
  | column c => trivial
  | named e name => exact Expr.WellNamed.map f h

theorem Select.WellNamed.map {s : Select π} (h : s.WellNamed) : (s.map f).WellNamed where
  items := List.forall_mem_map.mpr fun i hi => (h.items i hi).map f
  joins := List.forall_mem_map.mpr fun j hj => List.forall_mem_map.mpr fun e he =>
    (h.joins j hj e he).map f
  condition := h.condition.map f
  order := List.forall_mem_map.mpr fun t ht => (h.order t ht).map f

theorem CreateIndex.WellNamed.map {c : CreateIndex π} (h : c.WellNamed) : (c.map f).WellNamed where
  elements := List.forall_mem_map.mpr fun e he => (h.elements e he).map f
  condition := h.condition.map f

end wellNamed

/-! ### Words -/

theorem isWordChar_of_isIdentifier {name : String} (h : isIdentifier name = true) :
    name.toList ≠ [] ∧ ∀ c ∈ name.toList, isWordChar c = true := by
  unfold isIdentifier at h
  cases hn : name.toList with
  | nil =>
      rw [hn] at h
      cases h
  | cons c cs =>
      rw [hn] at h
      simp only [Bool.and_eq_true, List.all_eq_true, Bool.or_eq_true] at h
      refine ⟨nofun, List.forall_mem_cons.mpr ⟨?_, fun d hd => ?_⟩⟩
      · simp only [isWordChar, Char.isAlphanum, Bool.or_eq_true]
        exact h.1.imp_left .inl
      · simp only [isWordChar, Char.isAlphanum, Bool.or_eq_true]
        rcases h.2 d hd with (h | h) | h
        · exact .inl (.inl h)
        · exact .inr h
        · exact .inl (.inr h)

theorem Function.ends_text {f : Function} (h : f.WellNamed) : Ends [.plain f.text] := by
  cases f with
  | coalesce => decide
  | lower => decide
  | arrayLength => decide
  | named name =>
      obtain ⟨hne, hword⟩ := isWordChar_of_isIdentifier h
      exact ends_word hne hword

theorem isWordChar_of_mem_toDigits {n : Nat} {c : Char} (h : c ∈ Nat.toDigits 10 n) :
    isWordChar c = true := by
  simp [isWordChar, Char.isAlphanum, isDigit_of_mem_toDigits h]

theorem ends_nat (n : Nat) : Ends [.plain (toString n)] := by
  refine ends_word ?_ ?_
  · rw [toList_toString_nat]
    exact Nat.toDigits_ne_nil
  · rw [toList_toString_nat]
    exact fun c => isWordChar_of_mem_toDigits

theorem ends_int (n : Int) : Ends [.plain (toString n)] := by
  cases n with
  | ofNat n => exact ends_nat n
  | negSucc n =>
      exact ends_minus_word (toList_toString_negSucc n) Nat.toDigits_ne_nil
        fun c => isWordChar_of_mem_toDigits

/-! ### Expressions -/

theorem Constant.reads (c : Constant) : Reads c.pieces c.marks := by
  cases c with
  | null => exact Ends.reads (by decide)
  | bool b => cases b <;> exact Ends.reads (by decide)
  | int n => exact (ends_int n).reads
  | emptyText => exact reads_literal ""

theorem ColumnRef.reads (c : ColumnRef) : Reads c.pieces c.marks := by
  cases c with
  | qualified table name =>
      exact (reads_name table).between "." (by decide) (by decide) (reads_name name)
  | bare name => exact reads_name name

theorem PathStep.reads (s : PathStep) : Reads [s.piece] s.marks := by
  cases s with
  | key name => exact reads_literal name
  | index n => exact (ends_nat n).reads

theorem follows_pathPieces (asText : Bool) (steps : List PathStep) :
    Follows (pathPieces asText steps) (steps.flatMap PathStep.marks) := by
  match steps with
  | [] => exact follows_nil
  | [step] =>
      rw [List.flatMap_singleton]
      cases asText with
      | false => exact step.reads.behind "->" (by decide) (by decide)
      | true => exact step.reads.behind "->>" (by decide) (by decide)
  | step :: step' :: steps =>
      have hsteps := step.reads.append (follows_pathPieces asText (step' :: steps))
      exact hsteps.behind "->" (by decide) (by decide)

theorem reads_grouped {e : Expr Nat} {ps : List Piece} {ms : List Mark} (h : Reads ps ms) :
    Reads (grouped e ps) ms := by
  unfold grouped
  split
  · exact h.within (by decide) (by decide) (by decide)
  · exact h

/-! ### Objects -/

theorem chunks_nil {α : Type} : chunks ([] : List α) = [] := by
  rw [chunks]
  rfl

theorem chunks_of_ne_nil {α : Type} {xs : List α} (h : xs ≠ []) :
    chunks xs = xs.take maxFieldsPerCall :: chunks (xs.drop maxFieldsPerCall) := by
  rw [chunks, if_neg]
  simpa using h

theorem flatten_chunks {α : Type} (xs : List α) : (chunks xs).flatten = xs := by
  induction xs using chunks.induct with
  | case1 xs h =>
      rw [List.isEmpty_iff] at h
      rw [h, chunks_nil, List.flatten_nil]
  | case2 xs h ih =>
      rw [List.isEmpty_iff] at h
      rw [chunks_of_ne_nil h, List.flatten_cons, ih, List.take_append_drop]

theorem chunks_map {α β : Type} (f : α → β) (xs : List α) :
    chunks (xs.map f) = (chunks xs).map (List.map f) := by
  induction xs using chunks.induct with
  | case1 xs h =>
      rw [List.isEmpty_iff] at h
      rw [h, List.map_nil, chunks_nil, chunks_nil, List.map_nil]
  | case2 xs h ih =>
      rw [List.isEmpty_iff] at h
      rw [chunks_of_ne_nil h, chunks_of_ne_nil (by simpa using h), List.map_cons, List.map_take,
        ← List.map_drop, ih]

namespace Expr

/-- A part of a JSON object: a row, or one call with some of the fields. -/
inductive Part where
  | row (label : String)
  | call (fields : List (String × Expr Nat))

def fieldPieces (f : String × Expr Nat) : List Piece := .literal f.1 :: .plain ", " :: f.2.pieces

def fieldMarks (f : String × Expr Nat) : List Mark := .literal f.1 :: f.2.marks

namespace Part

def pieces : Part → List Piece
  | .row label => [.plain "TO_JSONB(", .name label, .plain ".*)"]
  | .call fields => .plain "JSONB_BUILD_OBJECT( " ::
    (Piece.separated ", " (fields.map fieldPieces) ++ [.plain " )"])

def marks : Part → List Mark
  | .row label => [.name label]
  | .call fields => fields.flatMap fieldMarks

def fields : Part → List (String × Expr Nat)
  | .row _ => []
  | .call fields => fields

end Part

def parts (row : Option String) (fields : List (String × Expr Nat)) : List Part :=
  row.toList.map .row ++ (chunks fields).map .call

theorem pieces_object (row : Option String) (fields : List (String × Expr Nat)) :
    (object row fields).pieces = match (parts row fields).map Part.pieces with
      | [] => [.plain "(", .literal "\x7b\x7d", .plain "::JSONB", .plain ")"]
      | ps => .plain "(" :: (Piece.separated " || " ps ++ [.plain ")"]) := by
  rw [pieces, piecesFields_eq, parts, List.map_append, List.map_map, List.map_map]
  unfold objectPieces
  rw [chunks_map, List.map_map]
  cases row <;> rfl

theorem fields_parts (row : Option String) (fields : List (String × Expr Nat)) :
    (parts row fields).flatMap Part.fields = fields := by
  have hcalls : ((chunks fields).map Part.call).flatMap Part.fields = fields := by
    rw [List.flatMap_map]
    exact List.flatMap_id.trans (flatten_chunks fields)
  rw [parts, List.flatMap_append, hcalls]
  cases row <;> rfl

/-- The fields of the parts are fields of the object. -/
theorem mem_of_mem_parts {row : Option String} {fields : List (String × Expr Nat)} {p : Part}
    (hp : p ∈ parts row fields) {f : String × Expr Nat} (hf : f ∈ p.fields) : f ∈ fields := by
  rw [← fields_parts row fields]
  exact List.mem_flatMap.mpr ⟨p, hp, hf⟩

theorem parts_eq_nil (row : Option String) (fields : List (String × Expr Nat)) :
    parts row fields = [] ↔ (row.isNone && fields.isEmpty) = true := by
  rw [parts, List.append_eq_nil_iff, List.map_eq_nil_iff, List.map_eq_nil_iff,
    Bool.and_eq_true, List.isEmpty_iff, Option.isNone_iff_eq_none, Option.toList_eq_nil_iff]
  refine and_congr_right fun _ => ⟨fun h => ?_, fun h => ?_⟩
  · rw [← flatten_chunks fields, h, List.flatten_nil]
  · rw [h, chunks_nil]

theorem marks_parts (row : Option String) (fields : List (String × Expr Nat)) :
    (parts row fields).flatMap Part.marks = row.toList.map Mark.name ++ marksFields fields := by
  have hcalls : ((chunks fields).map Part.call).flatMap Part.marks = marksFields fields := by
    have hflat := congrArg (List.flatMap fieldMarks) (flatten_chunks fields)
    rw [← List.flatMap_id, List.flatMap_assoc] at hflat
    rw [List.flatMap_map, marksFields_eq]
    exact hflat
  rw [parts, List.flatMap_append, hcalls]
  cases row <;> rfl

theorem Part.reads {p : Part} (h : ∀ f ∈ p.fields, Reads f.2.pieces f.2.marks) :
    Reads p.pieces p.marks := by
  cases p with
  | row label => exact (reads_name label).within (by decide) (by decide) (by decide)
  | call fields =>
      have hfields : ∀ f ∈ fields, Reads (fieldPieces f) (fieldMarks f) := fun f hf =>
        (reads_literal f.1).between ", " (by decide) (by decide) (h f hf)
      have hs := reads_separated ", " (by decide) (by decide) hfields
      exact hs.within (by decide) (by decide) (by decide)

/-- An object is read as its row and its fields, however many calls it takes. -/
theorem reads_object (row : Option String) {fields : List (String × Expr Nat)}
    (h : ∀ f ∈ fields, Reads f.2.pieces f.2.marks) :
    Reads (object row fields).pieces (object row fields).marks := by
  -- the row and every call are read on their own, so how the fields are cut does not matter
  have hparts : ∀ p ∈ parts row fields, Reads p.pieces p.marks := fun p hp =>
    Part.reads fun f hf => h f (mem_of_mem_parts hp hf)
  rw [pieces_object, marks]
  by_cases hnone : parts row fields = []
  · rw [if_pos ((parts_eq_nil row fields).mp hnone), hnone]
    have htail : Reads [.plain "::JSONB", .plain ")"] [] := Ends.reads (by decide)
    have hlit := (reads_literal "\x7b\x7d").append ⟨htail, Opens.cons (by decide)⟩
    exact Reads.cons (by decide) hlit
  · rw [if_neg (fun hc => hnone ((parts_eq_nil row fields).mpr hc)), ← marks_parts]
    have hs := reads_separated " || " (by decide) (by decide) hparts
    obtain ⟨p, ps, hcons⟩ := List.exists_cons_of_ne_nil hnone
    rw [hcons] at hs ⊢
    exact hs.within (by decide) (by decide) (by decide)

end Expr

/-! ### Expressions as a whole -/

theorem BinaryOp.breaksOff_text (op : BinaryOp) : BreaksOff op.text := by
  cases op <;> decide

theorem BinaryOp.closes_text (op : BinaryOp) : Closes [.plain op.text] := by
  cases op <;> decide

theorem Test.breaksOff_text (t : Test) : BreaksOff t.text := by
  cases t <;> decide

theorem Test.ends_text (t : Test) : Ends [.plain t.text] := by
  cases t <;> decide

theorem ScalarType.ends_cast (t : ScalarType) : Ends [.plain "::", .plain t.sqlName] := by
  cases t <;> decide

section lists

variable {es : List (Expr Nat)} (ih : ∀ e ∈ es, e.WellNamed → Reads e.pieces e.marks)
  (h : Expr.WellNamedAll es)

include ih h

theorem reads_list (text : String) (ho : BreaksOff text) (hc : Closes [.plain text]) :
    Reads (Piece.separated text (Expr.piecesAll es)) (Expr.marksAll es) := by
  rw [Expr.piecesAll_eq, Expr.marksAll_eq]
  exact reads_separated text ho hc fun e he => ih e he (Expr.wellNamedAll_iff.mp h e he)

theorem reads_connective {word unit : String} (ho : BreaksOff word) (hc : Closes [.plain word])
    (hu : Ends [.plain unit]) :
    Reads (connective word unit (Expr.piecesAll es)) (Expr.marksAll es) := by
  have hs := reads_list ih h word ho hc
  cases es with
  | nil => exact hu.reads
  | cons e es => exact hs.within (by decide) (by decide) (by decide)

end lists

/-- **An expression is read as its marks.**  The induction is over the expression, and each case
joins what its parts give: every part stands behind a text that closes, and in front of one that
breaks off its last token. -/
theorem Expr.reads (e : Expr Nat) (h : e.WellNamed) : Reads e.pieces e.marks := by
  induction e using Expr.induct with
  | all es ih => exact reads_connective ih h (by decide) (by decide) (by decide)
  | any es ih => exact reads_connective ih h (by decide) (by decide) (by decide)
  | not e ih => exact (ih h).within (by decide) (by decide) (by decide)
  | binary l op r ihl ihr =>
      exact (reads_grouped (ihl h.1)).between op.text op.breaksOff_text op.closes_text
        (reads_grouped (ihr h.2))
  | isIn l es ihl ih =>
      have hes := reads_list ih h.2 " , " (by decide) (by decide)
      have hitems := hes.within (by decide : Closes [.plain "( "]) (by decide : BreaksOff " )")
        (by decide)
      exact (ihl h.1).between " IN " (by decide) (by decide) hitems
  | test e t ih => exact (reads_grouped (ih h)).close t.text t.breaksOff_text t.ends_text
  | call f es ih =>
      have hes := reads_list ih h.2 ", " (by decide) (by decide)
      have hargs := (hes.close ")" (by decide) (by decide)).behind "(" (by decide) (by decide)
      exact (Function.ends_text h.1).reads.append hargs
  | array es ih =>
      have hes := reads_list ih h " , " (by decide) (by decide)
      exact hes.within (by decide) (by decide) (by decide)
  | column c => exact c.reads
  | path e steps asText ih =>
      have hpath := (ih h).append (follows_pathPieces asText steps)
      exact hpath.within (by decide) (by decide) (by decide)
  | cases c y n ihc ihy ihn =>
      have hn := (ihn h.2.2).close " END" (by decide) (by decide)
      have hy := (ihy h.2.1).between " ELSE " (by decide) (by decide) hn
      have hc := (ihc h.1).between " THEN " (by decide) (by decide) hy
      exact Reads.cons (by decide) hc
  | object row fields ih =>
      exact reads_object row fun f hf => ih f hf (wellNamedFields_iff.mp h f hf)
  | cast e type ih =>
      obtain ⟨he, t, rfl⟩ := h
      exact (reads_grouped (ih he)).trailed (by decide) t.ends_cast
  | constant c => exact c.reads
  | bound n => exact reads_placeholder n

/-! ### Clauses -/

theorem SelectItem.reads {i : SelectItem Nat} (h : i.WellNamed) : Reads i.pieces i.marks := by
  cases i with
  | star table => exact (reads_name table).close ".*" (by decide) (by decide)
  | column c => exact c.reads
  | named e name =>
      exact (Expr.reads e h).between " " (by decide) (by decide) (reads_name name)

/-- How the source of a statement is written. -/
def Source.pieces (s : Source) : List Piece :=
  [.plain " FROM ", .name s.table, .plain " ", .name s.label]

theorem Source.follows (s : Source) : Follows s.pieces s.marks := by
  have hs := (reads_name s.table).between " " (by decide) (by decide) (reads_name s.label)
  exact hs.behind " FROM " (by decide) (by decide)

theorem JoinKind.closes_text (k : JoinKind) : Closes [.plain k.text] := by
  cases k <;> decide

theorem Join.reads {j : Join Nat} (h : ∀ e ∈ j.on, e.WellNamed) : Reads j.pieces j.marks := by
  obtain ⟨kind, table, label, on⟩ := j
  have hhead : ∀ {ps : List Piece} {ms : List Mark}, Reads ps ms →
      Reads (.plain kind.text :: .name table :: .plain " " :: .name label :: .plain " ON " :: ps)
        (.name table :: .name label :: ms) := by
    intro ps ms hps
    have hlabel := (reads_name label).between " ON " (by decide) (by decide) hps
    have htable := (reads_name table).between " " (by decide) (by decide) hlabel
    exact htable.cons kind.closes_text
  cases on with
  | nil =>
      have htrue : Ends [.plain "TRUE"] := by decide
      exact hhead htrue.reads
  | cons e es =>
      exact hhead (reads_separated " AND " (by decide) (by decide) fun e he =>
        e.reads (h e he))

theorem Expr.marks_of_isTrueConstant {e : Expr Nat} (h : e.isTrueConstant = true) :
    e.marks = [] := by
  cases e with
  | constant c =>
      cases c with
      | bool b => rfl
      | _ => cases h
  | _ => cases h

theorem follows_wherePieces {e : Expr Nat} (h : e.WellNamed) : Follows (wherePieces e) e.marks := by
  unfold wherePieces
  split
  · rename_i htrue
    rw [Expr.marks_of_isTrueConstant htrue]
    exact follows_nil
  · exact (e.reads h).behind " WHERE " (by decide) (by decide)

theorem Direction.breaksOff_text (d : Direction) : BreaksOff d.text := by
  cases d <;> decide

theorem Direction.ends_text (d : Direction) : Ends [.plain d.text] := by
  cases d <;> decide

theorem Direction.ends_nulls (d : Direction) (n : NullsOrder) :
    Ends [.plain d.text, .plain n.text] := by
  cases d <;> cases n <;> decide

theorem OrderTerm.reads {t : OrderTerm Nat} (h : t.target.WellNamed) :
    Reads t.pieces t.target.marks := by
  obtain ⟨target, direction, nulls⟩ := t
  have ht : Reads target.pieces target.marks := target.reads h
  cases nulls with
  | none => exact ht.trailed direction.breaksOff_text direction.ends_text
  | some nulls => exact ht.trailed direction.breaksOff_text (direction.ends_nulls nulls)

theorem follows_orderPieces {terms : List (OrderTerm Nat)} (h : ∀ t ∈ terms, t.target.WellNamed) :
    Follows (orderPieces terms) (terms.flatMap fun t => t.target.marks) := by
  cases terms with
  | nil => exact follows_nil
  | cons t ts =>
      have hts := reads_separated ", " (by decide) (by decide) fun t ht =>
        OrderTerm.reads (h t ht)
      exact hts.behind " ORDER BY " (by decide) (by decide)

theorem follows_boundPieces {word : String} (ho : BreaksOff word) (hc : Closes [.plain word])
    (bound : Option Nat) :
    Follows (boundPieces word bound) (bound.toList.map .placeholder) := by
  cases bound with
  | none => exact follows_nil
  | some n => exact (reads_placeholder n).behind word ho hc

/-! ### Statements as a whole -/

theorem Select.pieces_eq (s : Select Nat) : s.pieces =
    s.comment.toList.map .comment ++
    .plain "SELECT " :: Piece.separated ", " (s.items.map SelectItem.pieces) ++
    s.source.toList.flatMap Source.pieces ++ s.joins.flatMap (fun j => .plain " " :: j.pieces) ++
    wherePieces s.condition ++ orderPieces s.order ++
    boundPieces " LIMIT " s.limit ++ boundPieces " OFFSET " s.offset := by
  unfold Select.pieces
  cases s.comment <;> cases s.source <;> rfl

theorem closes_comments (comment : Option String) :
    Closes (comment.toList.map .comment) := by
  cases comment with
  | none => decide
  | some text => exact closes_comment text

theorem Select.reads {s : Select Nat} (h : s.WellNamed) : Reads s.pieces s.marks := by
  have hitems := reads_separated ", " (by decide) (by decide) fun i hi =>
    SelectItem.reads (h.items i hi)
  have hword : Closes [.plain "SELECT "] := by decide
  have hselect := (hitems.cons hword).after (closes_comments s.comment)
  have hsource : Follows (s.source.toList.flatMap Source.pieces) _ :=
    follows_flatMap fun source _ => source.follows
  have hjoins := follows_flatMap fun j hj =>
    (Join.reads (h.joins j hj)).behind " " (by decide) (by decide)
  rw [pieces_eq]
  exact (((((hselect.append hsource).append hjoins).append
    (follows_wherePieces h.condition)).append (follows_orderPieces h.order)).append
    (follows_boundPieces (by decide) (by decide) s.limit)).append
    (follows_boundPieces (by decide) (by decide) s.offset)

/-- The words in front of the name of a new index. -/
def CreateIndex.head (unique concurrently ifNotExists : Bool) : List Piece :=
  .plain "CREATE " :: optionalWord unique "UNIQUE " ++ .plain "INDEX " ::
    optionalWord concurrently "CONCURRENTLY " ++ optionalWord ifNotExists "IF NOT EXISTS "

theorem CreateIndex.closes_head : ∀ unique concurrently ifNotExists,
    Closes (CreateIndex.head unique concurrently ifNotExists) := by
  decide

theorem CreateIndex.pieces_eq (c : CreateIndex Nat) : c.pieces =
    head c.unique c.concurrently c.ifNotExists ++ Piece.name c.name :: Piece.plain " ON " ::
      Piece.name c.table :: Piece.plain " USING " :: Piece.plain c.method.text ::
        Piece.plain " ( " :: (Piece.separated " , " (c.elements.map Expr.pieces) ++
          [Piece.plain " )"] ++ wherePieces c.condition) := by
  simp [CreateIndex.pieces, head]

theorem IndexMethod.closes_using (m : IndexMethod) :
    Closes [.plain " USING ", .plain m.text, .plain " ( "] := by
  cases m <;> decide

theorem CreateIndex.reads {c : CreateIndex Nat} (h : c.WellNamed) : Reads c.pieces c.marks := by
  have helements := reads_separated " , " (by decide) (by decide) fun e he =>
    Expr.reads e (h.elements e he)
  have hbody := (helements.close " )" (by decide) (by decide)).append
    (follows_wherePieces h.condition)
  have htable := (reads_name c.table).append
    ⟨hbody.after c.method.closes_using, Opens.cons (by decide)⟩
  have hname := (reads_name c.name).between " ON " (by decide) (by decide) htable
  rw [pieces_eq]
  exact hname.after (closes_head c.unique c.concurrently c.ifNotExists)

theorem DropIndex.reads (d : DropIndex) : Reads d.pieces d.marks := by
  have hhead : ∀ ifExists,
      Closes (.plain "DROP INDEX " :: optionalWord ifExists "IF EXISTS ") := by
    decide
  exact (reads_name d.name).after (hhead d.ifExists)

/-- **Nothing in a statement leaves its quotes.**  The text of a statement does not end inside a
quote or a comment, and the quoted names, the literals and the placeholders found in it are
exactly those of the statement, in order and unescaped. -/
theorem sql_marks :
    (∀ s : Select Placeholder, s.WellNamed →
      (tokens? s.sql).map Lexer.marks = some (s.map Placeholder.index).marks) ∧
    (∀ c : CreateIndex Placeholder, c.WellNamed →
      (tokens? c.sql).map Lexer.marks = some (c.map Placeholder.index).marks) ∧
    ∀ d : DropIndex, (tokens? d.sql).map Lexer.marks = some d.marks :=
  ⟨fun _ h => (Select.reads (h.map _)).tokens?, fun _ h => (CreateIndex.reads (h.map _)).tokens?,
    fun d => d.reads.tokens?⟩

namespace Sample

/-- Names, keys and a comment that hold quotes, dashes, dollars and line breaks. -/
def quoting : Select Placeholder where
  comment := some "by \"title\"\r\n'; DROP TABLE posts; --"
  items := [.star "p\"",
    .named (.call (.named "to_char") [.cast (.bound ⟨2, .int 7⟩) ScalarType.date.sqlName,
      .constant .emptyText]) "day -- $9",
    .named (.object (some "p\"") [("it's", .object none [])]) ""]
  source := some ⟨"posts\n", "p\""⟩
  joins := [⟨.left, "users", "u", [.binary (.columnOf "u" "id") .eq (.bound ⟨1, .int 3⟩)]⟩]
  condition := .test (.path (.columnOf "p\"" "tags") [.key "'", .index 0, .key "$1"] true) .notNull
  order := [⟨.columnOf "p\"" "title\"; --", .descending, some .last⟩]
  limit := some ⟨3, .int 10⟩
  offset := none

theorem wellNamed_quoting : quoting.WellNamed where
  items := by
    simp only [quoting, List.forall_mem_cons]
    have hname : isIdentifier "to_char" = true := by decide
    exact ⟨trivial, ⟨hname, ⟨trivial, .date, rfl⟩, trivial, trivial⟩, ⟨trivial, trivial⟩, nofun⟩
  joins := by
    simp only [quoting, List.forall_mem_cons]
    exact ⟨⟨⟨trivial, trivial⟩, nofun⟩, nofun⟩
  condition := trivial
  order := by
    simp only [quoting, List.forall_mem_cons]
    exact ⟨trivial, nofun⟩

/-- An index over a function, for some of the rows. -/
def partialIndex : CreateIndex Placeholder where
  name := "by \"name\""
  table := "users; --"
  unique := true
  concurrently := false
  ifNotExists := true
  method := .btree
  elements := [.call .lower [.column (.bare "name")]]
  condition := .test (.call (.named "is_live") [.column (.bare "it's")]) .true

theorem wellNamed_partialIndex : partialIndex.WellNamed where
  elements := List.forall_mem_cons.mpr ⟨⟨trivial, trivial, trivial⟩, nofun⟩
  condition :=
    have hname : isIdentifier "is_live" = true := by decide
    ⟨hname, trivial, trivial⟩

end Sample

theorem sql_marks_sample :
    Sample.quoting.WellNamed ∧ (tokens? Sample.quoting.sql).map Lexer.marks =
      some [.name "p\"", .placeholder 2, .literal "", .name "day -- $9", .name "p\"",
        .literal "it's", .literal "\x7b\x7d", .name "", .name "posts\n", .name "p\"",
        .name "users", .name "u", .name "u", .name "id", .placeholder 1, .name "p\"", .name "tags",
        .literal "'", .literal "$1", .name "p\"", .name "title\"; --", .placeholder 3] ∧
    Sample.partialIndex.WellNamed ∧ (tokens? Sample.partialIndex.sql).map Lexer.marks =
      some [.name "by \"name\"", .name "users; --", .name "name", .name "it's"] :=
  ⟨Sample.wellNamed_quoting, sql_marks.1 _ Sample.wellNamed_quoting,
    Sample.wellNamed_partialIndex, sql_marks.2.1 _ Sample.wellNamed_partialIndex⟩

end ShapedQuery
