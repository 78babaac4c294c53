import ShapedQuery.Proofs.Spine

/-! # How the smallest parts are spelled

Types, functions, columns, constants and the steps of a JSON path are legible, each in front of
what may stand behind it. -/

namespace ShapedQuery

open ShapedQuery.Expr (endsHead castScript)
open Lexer (isWordChar)

/-- What ends a head is no part of a word, and no quote. -/
theorem Expr.not_of_endsHead {r : List Char} (h : endsHead r = true) {c : Char} (hc : c ∈ r.head?) :
    isWordChar c = false ∧ c ≠ '"' ∧ c ≠ '(' ∧ c ≠ '.' := by
  cases r with
  | nil => cases hc
  | cons d r =>
      cases hc
      simp only [endsHead, Bool.or_eq_true, beq_iff_eq] at h
      rcases h with (((rfl | rfl) | rfl) | rfl) | rfl <;> decide

/-! ### Types -/

/-- The types, each behind those that its name begins. -/
def ScalarType.list : List ScalarType :=
  [.boolean, .smallint, .integer, .bigint, .real, .doublePrecision, .numeric, .character, .varchar,
    .text, .jsonb, .json, .date, .timestamptz, .timestamp, .uuid]

/-- The type at the beginning of a text. -/
def ScalarType.read? (cs : List Char) : Option ScalarType :=
  ScalarType.list.find? fun t => t.sqlName.toList.isPrefixOf cs

theorem ScalarType.read?_sqlName (t : ScalarType) {r : List Char} (hr : endsHead r = true) :
    read? (t.sqlName.toList ++ r) = some t := by
  -- two names are the beginning of another one, which goes on with a letter
  cases r with
  | nil => cases t <;> rfl
  | cons c r =>
      simp only [endsHead, Bool.or_eq_true, beq_iff_eq] at hr
      cases t with
      | json => rcases hr with (((rfl | rfl) | rfl) | rfl) | rfl <;> rfl
      | timestamp => rcases hr with (((rfl | rfl) | rfl) | rfl) | rfl <;> rfl
      | _ => rfl

theorem Expr.legible_cast {type : String} (h : castScript.valid type) : castScript.Legible type := by
  refine Script.legible_of_read (fun cs => (ScalarType.read? (cs.drop 2)).map ScalarType.sqlName)
    h ?_
  rintro _ r ⟨t, rfl⟩ hr
  show (ScalarType.read? (t.sqlName.toList ++ r)).map ScalarType.sqlName = _
  rw [ScalarType.read?_sqlName t hr]
  rfl

/-! ### Functions -/

theorem Function.text_isWord {f : Function} (h : f.Proper) :
    f.text.toList ≠ [] ∧ ∀ c ∈ f.text.toList, isWordChar c = true := by
  cases f with
  | coalesce => exact ⟨by decide, List.all_eq_true.mp (by decide)⟩
  | lower => exact ⟨by decide, List.all_eq_true.mp (by decide)⟩
  | arrayLength => exact ⟨by decide, List.all_eq_true.mp (by decide)⟩
  | named name => exact isWordChar_of_isIdentifier h.1

/-- The functions that the compiler knows have no other name. -/
theorem Function.text_inj {f g : Function} (hf : f.Proper) (hg : g.Proper) (h : f.text = g.text) :
    f = g := by
  have hknown : ∀ {name : String}, (Function.named name).Proper → name ≠ "COALESCE" ∧
      name ≠ "LOWER" ∧ name ≠ "ARRAY_LENGTH" := by
    intro name hn
    simpa [not_or] using hn.2
  cases f with
  | named name =>
      cases g with
      | named name' => exact congrArg Function.named h
      | coalesce => exact absurd h (hknown hf).1
      | lower => exact absurd h (hknown hf).2.1
      | arrayLength => exact absurd h (hknown hf).2.2
  | coalesce =>
      cases g with
      | named name => exact absurd h.symm (hknown hg).1
      | coalesce => rfl
      | lower => exact absurd h (by decide)
      | arrayLength => exact absurd h (by decide)
  | lower =>
      cases g with
      | named name => exact absurd h.symm (hknown hg).2.1
      | coalesce => exact absurd h (by decide)
      | lower => rfl
      | arrayLength => exact absurd h (by decide)
  | arrayLength =>
      cases g with
      | named name => exact absurd h.symm (hknown hg).2.2
      | coalesce => exact absurd h (by decide)
      | lower => exact absurd h (by decide)
      | arrayLength => rfl

/-- The name of a function ends at the parenthesis behind it. -/
theorem Function.text_append_inj {f g : Function} {r s : List Char} (hf : f.Proper) (hg : g.Proper)
    (h : f.text.toList ++ '(' :: r = g.text.toList ++ '(' :: s) : f = g ∧ r = s := by
  have hparen : ∀ {r : List Char}, ∀ c ∈ ('(' :: r).head?, isWordChar c = false := by
    rintro r c hc
    cases hc
    decide
  obtain ⟨ht, hrs⟩ := append_inj_of_class isWordChar (Function.text_isWord hf).2
    (Function.text_isWord hg).2 hparen hparen h
  rw [List.cons.injEq] at hrs
  exact ⟨Function.text_inj hf hg (String.toList_inj.mp ht), hrs.2⟩

/-! ### Columns -/

def ColumnRef.script : Script ColumnRef where
  write c := c.pieces.flatMap Piece.chars
  valid _ := True
  ends r := endsHead r = true

theorem ColumnRef.legible (c : ColumnRef) : ColumnRef.script.Legible c := by
  have hdot : ∀ {r : List Char}, '"' ∉ ('.' :: r).head? := by
    intro r hq
    cases hq
  intro d r s _ hr hs he
  have hend : ∀ {r : List Char}, endsHead r = true → '"' ∉ r.head? :=
    fun hr hq => (Expr.not_of_endsHead hr hq).2.1 rfl
  have hnodot : ∀ {x y : List Char}, endsHead x = true → x ≠ '.' :: y := by
    rintro x y hx rfl
    cases hx
  cases c with
  | bare n =>
      cases d with
      | bare m =>
          simp only [script, pieces, List.flatMap_cons, List.flatMap_nil, List.append_nil] at he
          obtain ⟨rfl, hrs⟩ := Script.quoted_legible '"' n m r s trivial (hend hr) (hend hs) he
          exact ⟨rfl, hrs⟩
      | qualified t m =>
          simp only [script, pieces, List.flatMap_cons, List.flatMap_nil, List.append_nil,
            List.append_assoc] at he
          obtain ⟨-, hrs⟩ := Script.quoted_legible '"' n t _ _ trivial (hend hr) hdot he
          exact absurd hrs (hnodot hr)
  | qualified t n =>
      cases d with
      | bare m =>
          simp only [script, pieces, List.flatMap_cons, List.flatMap_nil, List.append_nil,
            List.append_assoc] at he
          obtain ⟨-, hrs⟩ := Script.quoted_legible '"' t m _ _ trivial hdot (hend hs) he
          exact absurd hrs.symm (hnodot hs)
      | qualified u m =>
          simp only [script, pieces, List.flatMap_cons, List.flatMap_nil, List.append_nil,
            List.append_assoc] at he
          obtain ⟨rfl, hrest⟩ := Script.quoted_legible '"' t u _ _ trivial hdot hdot he
          obtain ⟨rfl, hrs⟩ := Script.quoted_legible '"' n m r s trivial (hend hr) (hend hs)
            (List.cons.inj hrest).2
          exact ⟨rfl, hrs⟩

/-! ### Constants -/

def Constant.script : Script Constant where
  write c := c.pieces.flatMap Piece.chars
  valid _ := True
  ends r := endsHead r = true

/-- A number begins with a digit or a minus. -/
theorem exists_toString_int (n : Int) :
    ∃ c cs, (toString n).toList = c :: cs ∧ (c.isDigit = true ∨ c = '-') := by
  cases n with
  | ofNat n =>
      obtain ⟨c, cs, h, hc⟩ := exists_toDigits n
      exact ⟨c, cs, (toList_toString_nat n).trans h, .inl hc⟩
  | negSucc n => exact ⟨'-', _, toList_toString_negSucc n, .inr rfl⟩

theorem isDigit_of_isWordChar {r : List Char} (h : ∀ c ∈ r.head?, isWordChar c = false) :
    Script.digits.ends r := by
  intro c hc
  have hw := h c hc
  simp only [isWordChar, Char.isAlphanum, Bool.or_eq_false_iff] at hw
  exact hw.1.2

theorem int_legible {n m : Int} {r s : List Char} (hr : Script.digits.ends r)
    (hs : Script.digits.ends s) (h : (toString n).toList ++ r = (toString m).toList ++ s) :
    n = m ∧ r = s := by
  have hminus : ∀ {k l : Nat} {x y : List Char},
      (toString (Int.ofNat k)).toList ++ x ≠ (toString (Int.negSucc l)).toList ++ y := by
    intro k l x y he
    obtain ⟨c, cs, hk, hc⟩ := exists_toDigits k
    rw [show (toString (Int.ofNat k)).toList = c :: cs from (toList_toString_nat k).trans hk,
      toList_toString_negSucc, List.cons_append, List.cons_append, List.cons.injEq] at he
    rw [he.1] at hc
    cases hc
  cases n with
  | ofNat n =>
      cases m with
      | ofNat m =>
          have hd : Nat.toDigits 10 n ++ r = Nat.toDigits 10 m ++ s := by
            rw [← toList_toString_nat, ← toList_toString_nat]
            exact h
          obtain ⟨rfl, hrs⟩ := Script.digits_legible n m r s trivial hr hs hd
          exact ⟨rfl, hrs⟩
      | negSucc m => exact absurd h hminus
  | negSucc n =>
      cases m with
      | ofNat m => exact absurd h.symm hminus
      | negSucc m =>
          rw [toList_toString_negSucc, toList_toString_negSucc, List.cons_append, List.cons_append,
            List.cons.injEq] at h
          obtain ⟨hnm, hrs⟩ := Script.digits_legible (n + 1) (m + 1) r s trivial hr hs h.2
          rw [Nat.succ.inj hnm]
          exact ⟨rfl, hrs⟩

/-- A constant that is no number, at the beginning of a text. -/
def Constant.read? : List Char → Option Constant
  | 'N' :: _ => some .null
  | 'T' :: _ => some (.bool true)
  | 'F' :: _ => some (.bool false)
  | '\x27' :: _ => some .emptyText
  | _ => none

theorem Constant.read?_int (n : Int) (r : List Char) :
    read? ((Constant.int n).pieces.flatMap Piece.chars ++ r) = none := by
  obtain ⟨c, cs, hn, hc⟩ := exists_toString_int n
  have hw : (Constant.int n).pieces.flatMap Piece.chars ++ r = c :: (cs ++ r) := by
    rw [pieces, List.flatMap_singleton, Piece.chars, hn, List.cons_append]
  rw [hw]
  unfold read?
  split
  · rename_i he
    rw [List.cons.injEq] at he
    rw [he.1] at hc
    exact absurd hc (by decide)
  · rename_i he
    rw [List.cons.injEq] at he
    rw [he.1] at hc
    exact absurd hc (by decide)
  · rename_i he
    rw [List.cons.injEq] at he
    rw [he.1] at hc
    exact absurd hc (by decide)
  · rename_i he
    rw [List.cons.injEq] at he
    rw [he.1] at hc
    exact absurd hc (by decide)
  · rfl

theorem Constant.read?_of_not_int {c : Constant} (h : ∀ n, c ≠ .int n) (r : List Char) :
    read? (c.pieces.flatMap Piece.chars ++ r) = some c := by
  cases c with
  | null => rfl
  | bool b => cases b <;> rfl
  | int n => exact absurd rfl (h n)
  | emptyText => rfl

theorem Constant.legible (c : Constant) : Constant.script.Legible c := by
  intro d r s _ hr hs he
  have hread := congrArg Constant.read? he
  by_cases hc : ∃ n, c = .int n
  · obtain ⟨n, rfl⟩ := hc
    by_cases hd : ∃ m, d = .int m
    · obtain ⟨m, rfl⟩ := hd
      simp only [script, pieces, List.flatMap_cons, List.flatMap_nil, List.append_nil,
        Piece.chars] at he
      have hend : ∀ {r : List Char}, endsHead r = true → Script.digits.ends r :=
        fun hr => isDigit_of_isWordChar fun c hc => (Expr.not_of_endsHead hr hc).1
      obtain ⟨rfl, hrs⟩ := int_legible (hend hr) (hend hs) he
      exact ⟨rfl, hrs⟩
    · simp only [script, Constant.read?_int, Constant.read?_of_not_int (not_exists.mp hd)] at hread
      cases hread
  · by_cases hd : ∃ m, d = .int m
    · obtain ⟨m, rfl⟩ := hd
      simp only [script, Constant.read?_int, Constant.read?_of_not_int (not_exists.mp hc)] at hread
      cases hread
    · simp only [script, Constant.read?_of_not_int (not_exists.mp hc),
        Constant.read?_of_not_int (not_exists.mp hd)] at hread
      cases hread
      exact ⟨rfl, List.append_cancel_left he⟩

/-! ### Paths -/

def PathStep.script : Script PathStep where
  write step := step.piece.chars
  valid _ := True
  ends r := r.head? = some '-' ∨ r.head? = some ')'

/-- A step begins with a quote or a digit. -/
theorem PathStep.exists_chars (step : PathStep) : ∃ c cs, step.piece.chars = c :: cs ∧
    match step with
    | .key _ => c = '\x27'
    | .index _ => c.isDigit = true := by
  cases step with
  | key name => exact ⟨'\x27', _, rfl, rfl⟩
  | index n =>
      obtain ⟨c, cs, h, hc⟩ := exists_toDigits n
      exact ⟨c, cs, (toList_toString_nat n).trans h, hc⟩

theorem PathStep.legible (step : PathStep) : PathStep.script.Legible step := by
  have hquote : ∀ {r : List Char}, PathStep.script.ends r → '\x27' ∉ r.head? := by
    rintro r (h | h) hq
    · rw [h] at hq
      cases hq
    · rw [h] at hq
      cases hq
  have hdigit : ∀ {r : List Char}, PathStep.script.ends r → Script.digits.ends r := by
    rintro r (h | h) c hc
    · rw [h] at hc
      cases hc
      decide
    · rw [h] at hc
      cases hc
      decide
  have hne : ∀ {name : String} {n : Nat} {x y : List Char},
      (PathStep.key name).piece.chars ++ x ≠ (PathStep.index n).piece.chars ++ y := by
    intro name n x y he
    obtain ⟨c, cs, hk, hc⟩ := (PathStep.key name).exists_chars
    obtain ⟨d, ds, hi, hd⟩ := (PathStep.index n).exists_chars
    rw [hk, hi, List.cons_append, List.cons_append, List.cons.injEq] at he
    rw [← he.1, hc] at hd
    cases hd
  intro step' r s _ hr hs he
  cases step with
  | key name =>
      cases step' with
      | key name' =>
          obtain ⟨rfl, hrs⟩ :=
            Script.quoted_legible '\x27' name name' r s trivial (hquote hr) (hquote hs) he
          exact ⟨rfl, hrs⟩
      | index m => exact absurd he hne
  | index n =>
      cases step' with
      | key name' => exact absurd he.symm hne
      | index m =>
          have hd : Nat.toDigits 10 n ++ r = Nat.toDigits 10 m ++ s := by
            rw [← toList_toString_nat, ← toList_toString_nat]
            exact he
          obtain ⟨rfl, hrs⟩ := Script.digits_legible n m r s trivial (hdigit hr) (hdigit hs) hd
          exact ⟨rfl, hrs⟩

/-- The arrow in front of a step, which may ask for text. -/
def arrow : Bool → List Char
  | true => "->>".toList
  | false => "->".toList

def arrowScript : Script (Bool × PathStep) where
  write a := arrow a.1 ++ a.2.piece.chars
  valid _ := True
  ends := PathStep.script.ends

theorem arrow_legible (a : Bool × PathStep) : arrowScript.Legible a := by
  have hne : ∀ {step step' : PathStep} {x y : List Char},
      "->".toList ++ step.piece.chars ++ x ≠ "->>".toList ++ step'.piece.chars ++ y := by
    intro step step' x y he
    obtain ⟨c, cs, hs, hc⟩ := step.exists_chars
    simp only [hs, List.cons_append, String.reduceToList, List.nil_append, List.cons.injEq,
      true_and] at he
    rw [he.1] at hc
    cases step with
    | key name => cases hc
    | index n => cases hc
  obtain ⟨asText, step⟩ := a
  rintro ⟨asText', step'⟩ r s _ hr hs he
  cases asText with
  | true =>
      cases asText' with
      | true =>
          simp only [arrowScript, List.append_assoc] at he
          obtain ⟨rfl, hrs⟩ := step.legible step' r s trivial hr hs (List.append_cancel_left he)
          exact ⟨rfl, hrs⟩
      | false => exact absurd he.symm hne
  | false =>
      cases asText' with
      | true => exact absurd he hne
      | false =>
          simp only [arrowScript, List.append_assoc] at he
          obtain ⟨rfl, hrs⟩ := step.legible step' r s trivial hr hs (List.append_cancel_left he)
          exact ⟨rfl, hrs⟩

/-- The steps of a path with their arrows. -/
def arrows (asText : Bool) : List PathStep → List (Bool × PathStep)
  | [] => []
  | [step] => [(asText, step)]
  | step :: steps => (false, step) :: arrows asText steps

theorem write_arrows (asText : Bool) (steps : List PathStep) :
    (pathPieces asText steps).flatMap Piece.chars = arrowScript.many.write (arrows asText steps) := by
  fun_induction pathPieces asText steps with
  | case1 => rfl
  | case2 step =>
      cases asText <;> simp [arrows, Script.many, arrowScript, arrow, Piece.chars]
  | case3 step steps hne ih =>
      rw [List.flatMap_cons, List.flatMap_cons, ih, arrows]
      · simp [Script.many, arrowScript, arrow, Piece.chars]
      · exact hne

theorem arrows_inj {asText asText' : Bool} {steps steps' : List PathStep} (hne : steps ≠ [])
    (h : arrows asText steps = arrows asText' steps') : steps = steps' ∧ asText = asText' := by
  fun_induction arrows asText steps generalizing steps' with
  | case1 => exact absurd rfl hne
  | case2 step =>
      match steps', h with
      | [_], h =>
          simp only [arrows, List.cons.injEq, Prod.mk.injEq, and_true] at h
          exact ⟨by rw [h.2], h.1⟩
      | _ :: _ :: [], h => simp [arrows] at h
      | _ :: _ :: _ :: _, h => simp [arrows] at h
  | case3 step steps hnil ih =>
      have hsteps : steps ≠ [] := fun he => hnil (by rw [he])
      have harrows : arrows asText steps ≠ [] := by
        cases steps with
        | nil => exact absurd rfl hsteps
        | cons step' steps =>
            cases steps <;> exact List.cons_ne_nil _ _
      match steps', h with
      | [_], h =>
          simp only [arrows, List.cons.injEq] at h
          exact absurd h.2 harrows
      | _ :: d :: ds, h =>
          rw [arrows, List.cons.injEq, Prod.mk.injEq] at h
          · obtain ⟨hs, ha⟩ := ih hsteps h.2
            exact ⟨by rw [h.1.2, hs], ha⟩
          · exact nofun

end ShapedQuery
