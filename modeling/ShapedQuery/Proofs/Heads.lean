import ShapedQuery.Proofs.Spelling

/-! # The heads of expressions

The text of an expression begins with a head.  The first few characters tell what kind of head it is
(`Expr.kindOf_write`), so heads of different kinds never have a text in common (`Expr.kind_eq`). -/

namespace ShapedQuery

open Lexer (isWordChar)

namespace Expr

/-! ### The text of each kind of head -/

theorem chars_all {es : List (Expr Nat)} (h : es ≠ []) :
    (all es).chars = "( ".toList ++ (script.list " AND ".toList " )".toList).write es := by
  rw [← chars_list]
  cases es with
  | nil => exact absurd rfl h
  | cons e es => rfl

theorem chars_any {es : List (Expr Nat)} (h : es ≠ []) :
    (any es).chars = "( ".toList ++ (script.list " OR ".toList " )".toList).write es := by
  rw [← chars_list]
  cases es with
  | nil => exact absurd rfl h
  | cons e es => rfl

theorem chars_not (e : Expr Nat) :
    (Expr.not e).chars = "NOT ( ".toList ++ (e.chars ++ " )".toList) := by
  simp [chars, pieces, Piece.chars]

theorem chars_call (f : Function) (es : List (Expr Nat)) : (call f es).chars =
    f.text.toList ++ '(' :: (script.list ", ".toList ")".toList).write es := by
  rw [← chars_list]
  simp [chars, pieces, Piece.chars]

theorem chars_array (es : List (Expr Nat)) : (array es).chars =
    "ARRAY[ ".toList ++ (script.list " , ".toList " ]".toList).write es := by
  rw [← chars_list]
  simp [chars, pieces, Piece.chars]

theorem chars_path (e : Expr Nat) (steps : List PathStep) (asText : Bool) :
    (path e steps asText).chars =
      '(' :: (e.chars ++ (arrowScript.many.write (arrows asText steps) ++ ")".toList)) := by
  rw [← write_arrows]
  simp [chars, pieces, Piece.chars]

theorem chars_cases (c y n : Expr Nat) : (Expr.cases c y n).chars = "CASE WHEN ".toList ++
    (c.chars ++ (" THEN ".toList ++ (y.chars ++ (" ELSE ".toList ++ (n.chars ++ " END".toList))))) := by
  simp [chars, pieces, Piece.chars]

def Part.label? : Part → Option String
  | .row label => some label
  | .call _ => none

/-- A row and fields can be had back from the parts. -/
theorem parts_inj {row row' : Option String} {fields fields' : List (String × Expr Nat)}
    (h : parts row fields = parts row' fields') : row = row' ∧ fields = fields' := by
  have hrow : ∀ row fields, (parts row fields).head?.bind Part.label? = row := by
    intro row fields
    cases row with
    | some label => rfl
    | none =>
        unfold parts
        cases chunks fields <;> rfl
  constructor
  · rw [← hrow row fields, h, hrow]
  · rw [← fields_parts row fields, h, fields_parts]

def fieldScript : Script (String × Expr Nat) :=
  (Script.quoted '\x27').pair (script.behind ", ".toList)

def partScript : Script Part where
  write
    | .row label => "TO_JSONB(".toList ++ (Piece.quotedBy '"' label ++ ".*)".toList)
    | .call fields =>
      "JSONB_BUILD_OBJECT( ".toList ++ (fieldScript.list ", ".toList " )".toList).write fields
  valid
    | .row _ => True
    | .call fields => ∀ f ∈ fields, fieldScript.valid f
  ends _ := True

theorem write_part (p : Part) : partScript.write p = p.pieces.flatMap Piece.chars := by
  cases p with
  | row label => simp [partScript, Part.pieces, Piece.chars]
  | call fields =>
      have hfields := Script.write_list (S := fieldScript) fieldPieces (fun _ => rfl) ", " " )" fields
      simp only [partScript, Part.pieces, hfields, List.flatMap_cons, Piece.chars]

theorem chars_object (row : Option String) (fields : List (String × Expr Nat)) :
    (object row fields).chars = '(' :: match parts row fields with
      | [] => "'\x7b\x7d'::JSONB)".toList
      | ps => (partScript.list " || ".toList ")".toList).write ps := by
  rw [chars, pieces_object]
  cases parts row fields with
  | nil => rfl
  | cons p ps =>
      have hlist := Script.write_list (S := partScript) Part.pieces write_part " || " ")" (p :: ps)
      simp only [List.map_cons, List.flatMap_cons] at hlist ⊢
      rw [hlist]
      rfl

theorem valid_parts (row : Option String) {fields : List (String × Expr Nat)}
    (h : ∀ f ∈ fields, f.2.WellFormed) : ∀ p ∈ parts row fields, partScript.valid p := by
  intro p hp
  cases p with
  | row label => exact trivial
  | call chunk => exact fun f hf => ⟨trivial, h f (mem_of_mem_parts hp hf)⟩

/-! ### The kind of a head -/

/-- What the first characters of a head tell. -/
inductive Kind where
  | parenthesis
  | not
  | call
  | array
  | column
  | bracket
  | cases
  | constant
  | bound

def Head.kind : Head → Kind
  | .atom (.not _) => .not
  | .atom (.call ..) => .call
  | .atom (.array _) => .array
  | .atom (.column _) => .column
  | .atom (.path ..) => .bracket
  | .atom (.object ..) => .bracket
  | .atom (.cases ..) => .cases
  | .atom (.constant _) => .constant
  | .atom (.bound _) => .bound
  | _ => .parenthesis

/-- The kind of the head that a text begins with. -/
def kindOf : List Char → Option Kind
  | [] => none
  | c :: cs =>
    if c = '"' then some .column
    else if c = '$' then some .bound
    else if c = '(' then some (if cs.head? = some ' ' then .parenthesis else .bracket)
    else if ((c :: cs).dropWhile isWordChar).head? = some '(' then some .call
    else if c.isDigit || c == '-' then some .constant
    else if (c :: cs).takeWhile isWordChar = "NOT".toList then some .not
    else if (c :: cs).takeWhile isWordChar = "ARRAY".toList then some .array
    else if (c :: cs).takeWhile isWordChar = "CASE".toList then some .cases
    else some .constant

theorem ne_of_isWordChar {c : Char} (h : isWordChar c = true) :
    c ≠ ' ' ∧ c ≠ ')' ∧ c ≠ '"' ∧ c ≠ '$' ∧ c ≠ '(' := by
  refine ⟨?_, ?_, ?_, ?_, ?_⟩ <;> rintro rfl <;> cases h

theorem isWordChar_of_isDigit {c : Char} (h : c.isDigit = true) : isWordChar c = true := by
  simp [isWordChar, Char.isAlphanum, h]

/-- No head begins with a blank or a closing parenthesis. -/
theorem exists_head_char {h : Head} (hv : headScript.valid h) :
    ∃ c cs, headScript.write h = c :: cs ∧ c ≠ ' ' ∧ c ≠ ')' := by
  cases h with
  | group e => exact ⟨'(', _, rfl, by decide, by decide⟩
  | atom e =>
      have hp := Every.self hv.1
      show ∃ c cs, e.chars = c :: cs ∧ _
      cases e with
      | all es =>
          rw [chars_all (List.ne_nil_of_length_pos (Nat.lt_of_lt_of_le Nat.two_pos hp))]
          exact ⟨'(', _, rfl, by decide, by decide⟩
      | any es =>
          rw [chars_any (List.ne_nil_of_length_pos (Nat.lt_of_lt_of_le Nat.two_pos hp))]
          exact ⟨'(', _, rfl, by decide, by decide⟩
      | not e =>
          rw [chars_not]
          exact ⟨'N', _, rfl, by decide, by decide⟩
      | call f es =>
          obtain ⟨hne, hword⟩ := Function.text_isWord hp
          rw [chars_call]
          cases ht : f.text.toList with
          | nil => exact absurd ht hne
          | cons c cs =>
              rw [ht] at hword
              have hc := ne_of_isWordChar (hword c List.mem_cons_self)
              exact ⟨c, _, rfl, hc.1, hc.2.1⟩
      | array es =>
          rw [chars_array]
          exact ⟨'A', _, rfl, by decide, by decide⟩
      | column c => cases c <;> exact ⟨'"', _, rfl, by decide, by decide⟩
      | path e steps asText =>
          rw [chars_path]
          exact ⟨'(', _, rfl, by decide, by decide⟩
      | cases c y n =>
          rw [chars_cases]
          exact ⟨'C', _, rfl, by decide, by decide⟩
      | object row fields =>
          rw [chars_object]
          exact ⟨'(', _, rfl, by decide, by decide⟩
      | constant c =>
          cases c with
          | null => exact ⟨'N', _, rfl, by decide, by decide⟩
          | bool b =>
              cases b with
              | true => exact ⟨'T', _, rfl, by decide, by decide⟩
              | false => exact ⟨'F', _, rfl, by decide, by decide⟩
          | int n =>
              obtain ⟨c, cs, hn, hc⟩ := exists_toString_int n
              refine ⟨c, cs, ?_, ?_⟩
              · rw [chars, pieces, Constant.pieces, List.flatMap_singleton, Piece.chars, hn]
              · rcases hc with hc | rfl
                · have hw := ne_of_isWordChar (isWordChar_of_isDigit hc)
                  exact ⟨hw.1, hw.2.1⟩
                · decide
          | emptyText => exact ⟨'\x27', _, rfl, by decide, by decide⟩
      | bound index => exact ⟨'$', _, rfl, by decide, by decide⟩
      | binary l op r => cases hv.2
      | isIn l es => cases hv.2
      | test e t => cases hv.2
      | cast e type => cases hv.2

theorem exists_char {e : Expr Nat} (he : e.WellFormed) :
    ∃ c cs, e.chars = c :: cs ∧ c ≠ ' ' ∧ c ≠ ')' := by
  obtain ⟨h, s, hv, -, hw⟩ := exists_head he (r := []) rfl
  obtain ⟨c, cs, hc, hne⟩ := exists_head_char hv
  rw [List.append_nil, hc, List.cons_append] at hw
  exact ⟨c, cs ++ s, hw, hne⟩

theorem dropWhile_word {word r : List Char} (hword : ∀ c ∈ word, isWordChar c = true)
    (hr : ∀ c ∈ r.head?, isWordChar c = false) : (word ++ r).dropWhile isWordChar = r := by
  rw [List.dropWhile_append_of_pos hword]
  cases r with
  | nil => rfl
  | cons c r => rw [List.dropWhile_cons_of_neg (by rw [hr c rfl]; decide)]

theorem kindOf_call {word r : List Char} (hne : word ≠ [])
    (hword : ∀ c ∈ word, isWordChar c = true) : kindOf (word ++ '(' :: r) = some .call := by
  have hdrop : (word ++ '(' :: r).dropWhile isWordChar = '(' :: r := by
    refine dropWhile_word hword ?_
    rintro c hc
    cases hc
    decide
  cases word with
  | nil => exact absurd rfl hne
  | cons c cs =>
      have hc := ne_of_isWordChar (hword c List.mem_cons_self)
      rw [List.cons_append] at hdrop ⊢
      rw [kindOf, if_neg hc.2.2.1, if_neg hc.2.2.2.1, if_neg hc.2.2.2.2, hdrop]
      rfl

theorem kindOf_int (n : Int) {r : List Char} (hr : endsHead r = true) :
    kindOf ((toString n).toList ++ r) = some .constant := by
  have hend : ∀ c ∈ r.head?, isWordChar c = false := fun c hc => (not_of_endsHead hr hc).1
  have hnoparen : r.head? ≠ some '(' := fun hc => (not_of_endsHead hr hc).2.2.1 rfl
  cases n with
  | ofNat n =>
      have hn : (toString (Int.ofNat n)).toList = Nat.toDigits 10 n := toList_toString_nat n
      have hdrop := dropWhile_word (fun c => isWordChar_of_mem_toDigits (n := n)) hend
      obtain ⟨c, cs, hd, hdigit⟩ := exists_toDigits n
      have hc := ne_of_isWordChar (isWordChar_of_isDigit hdigit)
      rw [hn, hd, List.cons_append]
      rw [hd, List.cons_append] at hdrop
      rw [kindOf, if_neg hc.2.2.1, if_neg hc.2.2.2.1, if_neg hc.2.2.2.2, hdrop, if_neg hnoparen,
        hdigit]
      rfl
  | negSucc n =>
      rw [toList_toString_negSucc, List.cons_append]
      rfl

/-- What stands behind a word of the compiler is not looked at any further. -/
theorem kindOf_constant (c : Constant) {r : List Char} (hr : endsHead r = true) :
    kindOf (c.pieces.flatMap Piece.chars ++ r) = some .constant := by
  cases c with
  | int n =>
      rw [Constant.pieces, List.flatMap_singleton]
      exact kindOf_int n hr
  | emptyText => rfl
  | null =>
      cases r with
      | nil => rfl
      | cons c r =>
          simp only [endsHead, Bool.or_eq_true, beq_iff_eq] at hr
          rcases hr with (((rfl | rfl) | rfl) | rfl) | rfl <;> rfl
  | bool b =>
      cases r with
      | nil => cases b <;> rfl
      | cons c r =>
          simp only [endsHead, Bool.or_eq_true, beq_iff_eq] at hr
          rcases hr with (((rfl | rfl) | rfl) | rfl) | rfl <;> cases b <;> rfl

/-- The first characters tell the kind of a head. -/
theorem kindOf_write {h : Head} (hv : headScript.valid h) {r : List Char}
    (hr : endsHead r = true) : kindOf (headScript.write h ++ r) = some h.kind := by
  cases h with
  | group e => rfl
  | atom e =>
      have hp := Every.self hv.1
      show kindOf (e.chars ++ r) = _
      cases e with
      | all es =>
          rw [chars_all (List.ne_nil_of_length_pos (Nat.lt_of_lt_of_le Nat.two_pos hp))]
          rfl
      | any es =>
          rw [chars_any (List.ne_nil_of_length_pos (Nat.lt_of_lt_of_le Nat.two_pos hp))]
          rfl
      | not e =>
          rw [chars_not]
          rfl
      | call f es =>
          obtain ⟨hne, hword⟩ := Function.text_isWord hp
          rw [chars_call, List.append_assoc, List.cons_append]
          exact kindOf_call hne hword
      | array es =>
          rw [chars_array]
          rfl
      | column c => cases c <;> rfl
      | path e steps asText =>
          obtain ⟨c, cs, hc, hne⟩ := exists_char hv.1.2
          rw [chars_path, hc]
          show some (if some c = some ' ' then Kind.parenthesis else Kind.bracket) = _
          rw [if_neg fun he => hne.1 (Option.some.inj he)]
          rfl
      | cases c y n =>
          rw [chars_cases]
          rfl
      | object row fields =>
          rw [chars_object]
          cases parts row fields with
          | nil => rfl
          | cons p ps => cases p <;> rfl
      | constant c => exact kindOf_constant c hr
      | bound index => rfl
      | binary l op r => cases hv.2
      | isIn l es => cases hv.2
      | test e t => cases hv.2
      | cast e type => cases hv.2

/-- Heads with the same text are of the same kind. -/
theorem kind_eq {h h' : Head} {r s : List Char} (hv : headScript.valid h)
    (hv' : headScript.valid h') (hr : endsHead r = true) (hs : endsHead s = true)
    (he : headScript.write h ++ r = headScript.write h' ++ s) : h.kind = h'.kind := by
  have hkind := kindOf_write hv hr
  rw [he, kindOf_write hv' hs] at hkind
  exact (Option.some.inj hkind).symm

end Expr

end ShapedQuery
