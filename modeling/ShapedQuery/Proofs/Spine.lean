import ShapedQuery.Proofs.LexicalSafety
import ShapedQuery.Proofs.Script
import ShapedQuery.Proofs.WellFormed

/-! # The parts of a written expression, from left to right

An expression begins with the text of its leftmost part, which may be deep inside of it.  Its
*spine* puts it in the order of the text: a head, that is an operation in parentheses or an
expression that knows where it ends; then casts; then operators, each with its right side.

The text of an expression is that of its spine (`Expr.write_spine`), and the spine holds all that
there is to know of it (`Expr.ofSpine_spine`). -/

namespace ShapedQuery

namespace Expr

/-- The characters of an expression. -/
def chars (e : Expr Nat) : List Char := e.pieces.flatMap Piece.chars

/-- The characters of an expression as an operand. -/
def operandChars (e : Expr Nat) : List Char := (grouped e e.pieces).flatMap Piece.chars

theorem operandChars_of_isOperation {e : Expr Nat} (h : e.isOperation = true) :
    e.operandChars = "( ".toList ++ (e.chars ++ " )".toList) := by
  simp [operandChars, grouped, h, Piece.chars, chars]

theorem operandChars_of_not_isOperation {e : Expr Nat} (h : e.isOperation = false) :
    e.operandChars = e.chars := by
  simp [operandChars, grouped, h, chars]

/-! ### Spines -/

/-- What an expression begins with: an operation in parentheses, or an expression that no operator
and no cast ends. -/
inductive Head where
  | group (e : Expr Nat)
  | atom (e : Expr Nat)

/-- An operator behind an expression, and what stands on its right. -/
inductive Tail where
  | binary (op : BinaryOp) (right : Expr Nat)
  | test (t : Test)
  | isIn (items : List (Expr Nat))

/-- A head and the types that it is cast to, one after the other. -/
abbrev Stem := Head × List String

abbrev Spine := Stem × List Tail

def ofHead : Head → Expr Nat
  | .group e => e
  | .atom e => e

def ofStem (s : Stem) : Expr Nat := s.2.foldl cast (ofHead s.1)

/-- The operator applied to an expression. -/
def extend (e : Expr Nat) : Tail → Expr Nat
  | .binary op right => .binary e op right
  | .test t => .test e t
  | .isIn items => .isIn e items

def ofSpine (s : Spine) : Expr Nat := s.2.foldl extend (ofStem s.1)

/-- The stem of an expression as an operand, given its spine. -/
def stem (e : Expr Nat) (s : Spine) : Stem := if e.isOperation then (.group e, []) else s.1

def spine : Expr Nat → Spine
  | .binary l op r => (stem l (spine l), [.binary op r])
  | .test e t => (stem e (spine e), [.test t])
  | .isIn l es => ((spine l).1, (spine l).2 ++ [.isIn es])
  | .cast e type => (((stem e (spine e)).1, (stem e (spine e)).2 ++ [type]), [])
  | e => ((.atom e, []), [])

/-- Is an expression one that can be the head of a spine as it is? -/
def isAtom : Expr Nat → Bool
  | .binary .. => false
  | .isIn .. => false
  | .test .. => false
  | .cast .. => false
  | _ => true

theorem spine_of_isAtom {e : Expr Nat} (h : e.isAtom = true) : e.spine = ((.atom e, []), []) := by
  cases e with
  | binary l op r => cases h
  | isIn l es => cases h
  | test e t => cases h
  | cast e type => cases h
  | _ => rfl

/-- Only an operation has operators on its spine. -/
theorem tails_of_not_isOperation {e : Expr Nat} (h : e.isOperation = false) : e.spine.2 = [] := by
  cases e with
  | binary l op r => cases h
  | isIn l es => cases h
  | test e t => cases h
  | _ => rfl

/-- An induction over the spine: only the expressions that begin with another one need a step. -/
theorem induct_left {P : Expr Nat → Prop} (atom : ∀ e, e.isAtom = true → P e)
    (binary : ∀ l op r, P l → P (.binary l op r)) (test : ∀ e t, P e → P (.test e t))
    (isIn : ∀ l es, P l → P (.isIn l es)) (cast : ∀ e type, P e → P (.cast e type))
    (e : Expr Nat) : P e := by
  induction e using induct with
  | binary l op r ihl _ => exact binary l op r ihl
  | test e t ih => exact test e t ih
  | isIn l es ihl _ => exact isIn l es ihl
  | cast e type ih => exact cast e type ih
  | _ => exact atom _ rfl

theorem ofStem_stem {e : Expr Nat} (h : ofSpine e.spine = e) : ofStem (stem e e.spine) = e := by
  unfold stem
  cases ho : e.isOperation with
  | true => rfl
  | false =>
      rw [ofSpine, tails_of_not_isOperation ho] at h
      exact h

/-- An expression can be had back from its spine. -/
theorem ofSpine_spine (e : Expr Nat) : ofSpine e.spine = e := by
  induction e using induct_left with
  | atom e ha =>
      rw [spine_of_isAtom ha]
      rfl
  | binary l op r ih =>
      show binary (ofStem (stem l l.spine)) op r = _
      rw [ofStem_stem ih]
  | test e t ih =>
      show test (ofStem (stem e e.spine)) t = _
      rw [ofStem_stem ih]
  | isIn l es ih =>
      show (l.spine.2 ++ [Tail.isIn es]).foldl extend (ofStem l.spine.1) = _
      rw [List.foldl_append]
      show isIn (ofSpine l.spine) es = _
      rw [ih]
  | cast e type ih =>
      show ((stem e e.spine).2 ++ [type]).foldl cast (ofHead (stem e e.spine).1) = _
      rw [List.foldl_append]
      show cast (ofStem (stem e e.spine)) type = _
      rw [ofStem_stem ih]

/-! ### What can stand behind a part -/

/-- The operators that can stand behind an expression. -/
inductive Operator where
  | binary (op : BinaryOp)
  | test (t : Test)
  | isIn

namespace Operator

/-- The operator, with the parenthesis that opens the items of `IN`. -/
def text : Operator → List Char
  | .binary op => op.text.toList
  | .test t => t.text.toList
  | .isIn => " IN ( ".toList

/-- The operator at the beginning of a text, told by as few characters as it takes. -/
def read? : List Char → Option Operator
  | ' ' :: '=' :: _ => some (.binary .eq)
  | ' ' :: '<' :: '>' :: _ => some (.binary .ne)
  | ' ' :: '<' :: ' ' :: _ => some (.binary .lt)
  | ' ' :: '<' :: '=' :: _ => some (.binary .le)
  | ' ' :: '>' :: ' ' :: _ => some (.binary .gt)
  | ' ' :: '>' :: '=' :: _ => some (.binary .ge)
  | ' ' :: '@' :: _ => some (.binary .contains)
  | ' ' :: '&' :: _ => some (.binary .overlaps)
  | ' ' :: '+' :: _ => some (.binary .add)
  | ' ' :: '-' :: _ => some (.binary .sub)
  | ' ' :: '*' :: _ => some (.binary .mul)
  | ' ' :: '/' :: _ => some (.binary .div)
  | ' ' :: 'I' :: 'N' :: _ => some .isIn
  | ' ' :: 'I' :: 'S' :: ' ' :: 'D' :: _ => some (.binary .distinctFrom)
  | ' ' :: 'I' :: 'S' :: ' ' :: 'T' :: _ => some (.test .true)
  | ' ' :: 'I' :: 'S' :: ' ' :: 'F' :: _ => some (.test .false)
  | ' ' :: 'I' :: 'S' :: ' ' :: 'N' :: 'U' :: _ => some (.test .null)
  | ' ' :: 'I' :: 'S' :: ' ' :: 'N' :: 'O' :: 'T' :: ' ' :: 'N' :: _ => some (.test .notNull)
  | ' ' :: 'I' :: 'S' :: ' ' :: 'N' :: 'O' :: 'T' :: ' ' :: 'T' :: _ => some (.test .notTrue)
  | ' ' :: 'I' :: 'S' :: ' ' :: 'N' :: 'O' :: 'T' :: ' ' :: 'F' :: _ => some (.test .notFalse)
  | _ => none

/-- No operator is the beginning of another one. -/
theorem read?_text (o : Operator) (r : List Char) : read? (o.text ++ r) = some o := by
  cases o with
  | binary op => cases op <;> rfl
  | test t => cases t <;> rfl
  | isIn => rfl

end Operator

/-- May a text stand behind a head? -/
def endsHead : List Char → Bool
  | [] => true
  | c :: _ => c == ' ' || c == ')' || c == ',' || c == '-' || c == ':'

/-- May a text stand behind an operand? -/
def endsOperand (r : List Char) : Bool := endsHead r && !"::".toList.isPrefixOf r

/-- May a text stand behind an expression? -/
def ends (r : List Char) : Bool := endsOperand r && (Operator.read? r).isNone

theorem endsHead_of_endsOperand {r : List Char} (h : endsOperand r = true) :
    endsHead r = true :=
  (Bool.and_eq_true_iff.mp h).1

theorem endsOperand_of_ends {r : List Char} (h : ends r = true) : endsOperand r = true :=
  (Bool.and_eq_true_iff.mp h).1

theorem endsOperand_operator (o : Operator) (r : List Char) : endsOperand (o.text ++ r) = true := by
  cases o with
  | binary op => cases op <;> rfl
  | test t => cases t <;> rfl
  | isIn => rfl

/-! ### Scripts of the parts -/

def script : Script (Expr Nat) where
  write := chars
  valid := WellFormed
  ends r := ends r = true

def operandScript : Script (Expr Nat) where
  write := operandChars
  valid := WellFormed
  ends r := endsOperand r = true

def headScript : Script Head where
  write
    | .group e => "( ".toList ++ (e.chars ++ " )".toList)
    | .atom e => e.chars
  valid
    | .group e => e.WellFormed ∧ e.isOperation = true
    | .atom e => e.WellFormed ∧ e.isAtom = true
  ends r := endsHead r = true

def castScript : Script String where
  write type := "::".toList ++ type.toList
  valid type := ∃ t : ScalarType, t.sqlName = type
  ends r := endsHead r = true

def Tail.operator : Tail → Operator
  | .binary op _ => .binary op
  | .test t => .test t
  | .isIn _ => .isIn

/-- What stands behind the operator. -/
def Tail.content : Tail → List Char
  | .binary _ right => right.operandChars
  | .test _ => []
  | .isIn items => (script.list " , ".toList " )".toList).write items

def tailScript : Script Tail where
  write t := t.operator.text ++ t.content
  valid
    | .binary _ right => right.WellFormed
    | .test _ => True
    | .isIn items => ∀ e ∈ items, e.WellFormed
  ends r := endsOperand r = true

def stemScript : Script Stem := headScript.pair castScript.many

def spineScript : Script Spine := stemScript.pair tailScript.many

/-! ### The text of a spine is that of the expression -/

theorem chars_list (separator closing : String) (es : List (Expr Nat)) :
    (Piece.separated separator (piecesAll es) ++ [Piece.plain closing]).flatMap Piece.chars =
      (script.list separator.toList closing.toList).write es := by
  rw [piecesAll_eq, Script.write_list pieces (fun _ => rfl)]

theorem chars_isIn (l : Expr Nat) (es : List (Expr Nat)) :
    (isIn l es).chars = l.chars ++ tailScript.write (.isIn es) := by
  have hin : " IN ( ".toList = " IN ".toList ++ "( ".toList := by decide
  show _ = l.chars ++ (" IN ( ".toList ++ (script.list " , ".toList " )".toList).write es)
  rw [← chars_list, hin, chars, pieces, List.flatMap_append, List.flatMap_cons, List.flatMap_cons,
    List.append_assoc]
  rfl

theorem chars_binary (l : Expr Nat) (op : BinaryOp) (r : Expr Nat) :
    (binary l op r).chars = l.operandChars ++ tailScript.write (.binary op r) := by
  simp [chars, pieces, operandChars, Piece.chars, tailScript, Tail.operator, Tail.content,
    Operator.text]

theorem chars_test (e : Expr Nat) (t : Test) :
    (test e t).chars = e.operandChars ++ tailScript.write (.test t) := by
  simp [chars, pieces, operandChars, Piece.chars, tailScript, Tail.operator, Tail.content,
    Operator.text]

theorem chars_cast (e : Expr Nat) (type : String) :
    (cast e type).chars = e.operandChars ++ castScript.write type := by
  simp [chars, pieces, operandChars, Piece.chars, castScript]

theorem write_stem {e : Expr Nat} (h : spineScript.write e.spine = e.chars) :
    stemScript.write (stem e e.spine) = e.operandChars := by
  unfold stem
  cases ho : e.isOperation with
  | true =>
      rw [operandChars_of_isOperation ho]
      simp [stemScript, Script.pair, Script.many, headScript]
  | false =>
      rw [operandChars_of_not_isOperation ho, ← h]
      simp [spineScript, Script.pair, Script.many, tails_of_not_isOperation ho]

theorem write_pair_nil (s : Stem) : spineScript.write (s, []) = stemScript.write s :=
  List.append_nil _

theorem write_pair_single (s : Stem) (t : Tail) :
    spineScript.write (s, [t]) = stemScript.write s ++ tailScript.write t := by
  simp [spineScript, Script.pair, Script.many]

theorem write_spine (e : Expr Nat) : spineScript.write e.spine = e.chars := by
  induction e using induct_left with
  | atom e ha =>
      rw [spine_of_isAtom ha, write_pair_nil]
      simp [stemScript, Script.pair, Script.many, headScript]
  | binary l op r ih =>
      rw [chars_binary, ← write_stem ih]
      exact write_pair_single (stem l l.spine) (.binary op r)
  | test e t ih =>
      rw [chars_test, ← write_stem ih]
      exact write_pair_single (stem e e.spine) (.test t)
  | isIn l es ih =>
      rw [chars_isIn, ← ih]
      show spineScript.write (l.spine.1, l.spine.2 ++ [.isIn es]) = _
      simp [spineScript, Script.pair, Script.many]
  | cast e type ih =>
      rw [chars_cast, ← write_stem ih]
      show spineScript.write (((stem e e.spine).1, (stem e e.spine).2 ++ [type]), []) = _
      rw [write_pair_nil]
      simp [stemScript, Script.pair, Script.many]

theorem valid_stem {e : Expr Nat} (he : e.WellFormed) (h : spineScript.valid e.spine) :
    stemScript.valid (stem e e.spine) := by
  unfold stem
  cases ho : e.isOperation with
  | true => exact ⟨⟨he, ho⟩, nofun⟩
  | false => exact h.1

theorem valid_spine {e : Expr Nat} (he : e.WellFormed) : spineScript.valid e.spine := by
  induction e using induct_left with
  | atom e ha =>
      rw [spine_of_isAtom ha]
      exact ⟨⟨⟨he, ha⟩, nofun⟩, nofun⟩
  | binary l op r ih =>
      exact ⟨valid_stem he.2.1 (ih he.2.1), List.forall_mem_singleton.mpr he.2.2⟩
  | test e t ih =>
      exact ⟨valid_stem he.2 (ih he.2), List.forall_mem_singleton.mpr trivial⟩
  | isIn l es ih =>
      refine ⟨(ih he.2.1).1, ?_⟩
      refine List.forall_mem_append.mpr ⟨(ih he.2.1).2, List.forall_mem_singleton.mpr ?_⟩
      exact everyAll_iff.mp he.2.2
  | cast e type ih =>
      have hstem := valid_stem he.2 (ih he.2)
      refine ⟨⟨hstem.1, ?_⟩, nofun⟩
      exact List.forall_mem_append.mpr ⟨hstem.2, List.forall_mem_singleton.mpr he.1⟩

/-! ### What stands behind the parts of a spine -/

theorem endsHead_casts {types : List String} {r : List Char} (hr : endsHead r = true) :
    endsHead (castScript.many.write types ++ r) = true := by
  cases types with
  | nil => exact hr
  | cons type types => rfl

theorem endsOperand_tails {tails : List Tail} {r : List Char} (hr : endsOperand r = true) :
    endsOperand (tailScript.many.write tails ++ r) = true := by
  cases tails with
  | nil => exact hr
  | cons t tails =>
      have hw : tailScript.many.write (t :: tails) ++ r =
          t.operator.text ++ (t.content ++ (tailScript.many.write tails ++ r)) := by
        simp [Script.many, tailScript]
      rw [hw]
      exact endsOperand_operator _ _

/-- No cast stands behind an operand. -/
theorem ends_casts {r : List Char} (h : endsOperand r = true) : castScript.many.ends r := by
  refine ⟨endsHead_of_endsOperand h, ?_⟩
  rintro type s _ rfl
  cases (Bool.and_eq_true_iff.mp h).2

/-- No operator stands behind an expression. -/
theorem ends_tails {r : List Char} (h : ends r = true) : tailScript.many.ends r := by
  refine ⟨endsOperand_of_ends h, ?_⟩
  rintro t s _ rfl
  have hread : Operator.read? (tailScript.write t ++ s) = some t.operator := by
    rw [show tailScript.write t ++ s = t.operator.text ++ (t.content ++ s) from
      List.append_assoc _ _ _]
    exact Operator.read?_text _ _
  have hnone := (Bool.and_eq_true_iff.mp h).2
  rw [hread] at hnone
  cases hnone

/-- What an expression begins with. -/
theorem exists_head {e : Expr Nat} (he : e.WellFormed) {r : List Char} (hr : ends r = true) :
    ∃ h s, headScript.valid h ∧ endsHead s = true ∧ e.chars ++ r = headScript.write h ++ s := by
  refine ⟨e.spine.1.1, castScript.many.write e.spine.1.2 ++
    (tailScript.many.write e.spine.2 ++ r), (valid_spine he).1.1, ?_, ?_⟩
  · exact endsHead_casts (endsHead_of_endsOperand (endsOperand_tails (endsOperand_of_ends hr)))
  · rw [← write_spine e]
    simp [spineScript, stemScript, Script.pair]

end Expr

end ShapedQuery
