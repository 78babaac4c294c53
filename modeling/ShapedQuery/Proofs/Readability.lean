import ShapedQuery.Proofs.Binding
import ShapedQuery.Proofs.Heads

/-! # Expressions can be read in one way only

Two well-formed expressions with the same text are equal: no grouping, no order of operands and no
operator is lost in the text (`Expr.eq_of_chars_eq`).  Each kind of head is legible if what is in it
is, and so is, by induction over the expression, its whole spine. -/

namespace ShapedQuery

open Lexer (isWordChar)

namespace Expr

/-! ### Lists -/

/-- A separator and a closing text between which expressions can stand. -/
theorem separated {separator closing : List Char} (hseparator : ∀ r, ends (separator ++ r) = true)
    (hclosing : ∀ r, ends (closing ++ r) = true) (hapart : Apart separator closing)
    (hhead : closing.head? = some ' ' ∨ closing.head? = some ')') :
    script.Separated separator closing where
  separator_ends := hseparator
  closing_ends := hclosing
  apart := hapart
  opens := by
    intro e r he _ s hw
    obtain ⟨c, cs, hc, hne⟩ := exists_char he
    cases closing with
    | nil => rcases hhead with h | h <;> cases h
    | cons d ds =>
        rw [show script.write e = c :: cs from hc, List.cons_append, List.cons_append,
          List.cons.injEq] at hw
        rw [List.head?_cons, Option.some.injEq, Option.some.injEq, ← hw.1] at hhead
        rcases hhead with h | h
        · exact hne.1 h
        · exact hne.2 h

theorem separated_and : script.Separated " AND ".toList " )".toList :=
  separated (fun _ => rfl) (fun _ => rfl) (by decide) (.inl rfl)

theorem separated_or : script.Separated " OR ".toList " )".toList :=
  separated (fun _ => rfl) (fun _ => rfl) (by decide) (.inl rfl)

theorem separated_items : script.Separated " , ".toList " )".toList :=
  separated (fun _ => rfl) (fun _ => rfl) (by decide) (.inl rfl)

theorem separated_array : script.Separated " , ".toList " ]".toList :=
  separated (fun _ => rfl) (fun _ => rfl) (by decide) (.inl rfl)

theorem separated_arguments : script.Separated ", ".toList ")".toList :=
  separated (fun _ => rfl) (fun _ => rfl) (by decide) (.inr rfl)

/-! ### Heads in parentheses -/

/-- The text behind the first expression of a head in parentheses. -/
def Head.word : Head → List Char
  | .atom (.all _) => " AND ".toList
  | .atom (.any _) => " OR ".toList
  | _ => " )".toList

/-- The expressions in a head in parentheses. -/
def Head.items : Head → List (Expr Nat)
  | .group e => [e]
  | .atom (.all es) => es
  | .atom (.any es) => es
  | .atom _ => []

theorem exists_two {es : List (Expr Nat)} (h : 2 ≤ es.length) : ∃ a b fs, es = a :: b :: fs := by
  match es, h with
  | a :: b :: fs, _ => exact ⟨a, b, fs, rfl⟩

theorem parenthesis_cases {h : Head} (hv : headScript.valid h) (hk : h.kind = .parenthesis) :
    (∃ e, h = .group e) ∨ (∃ es, h = .atom (.all es)) ∨ ∃ es, h = .atom (.any es) := by
  cases h with
  | group e => exact .inl ⟨e, rfl⟩
  | atom e =>
      cases e with
      | all es => exact .inr (.inl ⟨es, rfl⟩)
      | any es => exact .inr (.inr ⟨es, rfl⟩)
      | binary l op r => cases hv.2
      | isIn l es => cases hv.2
      | test e t => cases hv.2
      | cast e type => cases hv.2
      | _ => cases hk

theorem write_parenthesis {h : Head} (hv : headScript.valid h) (hk : h.kind = .parenthesis) :
    ∃ e rest, e ∈ h.items ∧ e.WellFormed ∧
      headScript.write h = "( ".toList ++ (e.chars ++ (h.word ++ rest)) := by
  obtain ⟨e, rfl⟩ | ⟨es, rfl⟩ | ⟨es, rfl⟩ := parenthesis_cases hv hk
  · refine ⟨e, [], List.mem_singleton.mpr rfl, hv.1, ?_⟩
    rw [List.append_nil]
    rfl
  · obtain ⟨a, b, es, rfl⟩ := exists_two hv.1.1
    refine ⟨a, script.write b ++ script.tail " AND ".toList " )".toList es,
      List.mem_cons_self, hv.1.2.1, ?_⟩
    show (all (a :: b :: es)).chars = _
    rw [chars_all (List.cons_ne_nil _ _)]
    rfl
  · obtain ⟨a, b, es, rfl⟩ := exists_two hv.1.1
    refine ⟨a, script.write b ++ script.tail " OR ".toList " )".toList es,
      List.mem_cons_self, hv.1.2.1, ?_⟩
    show (any (a :: b :: es)).chars = _
    rw [chars_any (List.cons_ne_nil _ _)]
    rfl

theorem ends_word (h : Head) (r : List Char) : ends (h.word ++ r) = true := by
  unfold Head.word
  split <;> rfl

/-- The word behind the first expression tells what the parentheses are for. -/
theorem word_eq {h h' : Head} {r s : List Char} (he : h.word ++ r = h'.word ++ s) :
    h.word = h'.word := by
  have hand : Apart " AND ".toList " OR ".toList := by decide
  have hor : Apart " OR ".toList " )".toList := by decide
  have hclose : Apart " AND ".toList " )".toList := by decide
  unfold Head.word at he ⊢
  split at he <;> split at he
  · rfl
  · exact absurd he (hand _ _)
  · exact absurd he (hclose _ _)
  · exact absurd he.symm (hand _ _)
  · rfl
  · exact absurd he (hor _ _)
  · exact absurd he.symm (hclose _ _)
  · exact absurd he.symm (hor _ _)
  · rfl

/-- Connectives of one word are told from each other by their operands. -/
theorem legible_connective {word : List Char} {es fs : List (Expr Nat)} {r s : List Char}
    (hsep : script.Separated word " )".toList) (hes : EveryAll Proper es)
    (hfs : EveryAll Proper fs) (ih : ∀ e ∈ es, script.Legible e)
    (he : "( ".toList ++ (script.list word " )".toList).write es ++ r =
      "( ".toList ++ (script.list word " )".toList).write fs ++ s) : es = fs ∧ r = s := by
  rw [List.append_assoc, List.append_assoc] at he
  exact hsep.legible_list (everyAll_iff.mp hes) ih fs r s (everyAll_iff.mp hfs) trivial trivial
    (List.append_cancel_left he)

theorem legible_parenthesis {h : Head} (hv : headScript.valid h) (hk : h.kind = .parenthesis)
    (ih : ∀ e ∈ h.items, script.Legible e) : headScript.Legible h := by
  intro h' r s hv' hr hs he
  have hk' : h'.kind = .parenthesis := (kind_eq hv hv' hr hs he).symm.trans hk
  have hword : h.word = h'.word := by
    obtain ⟨e, rest, hmem, -, hw⟩ := write_parenthesis hv hk
    obtain ⟨f, rest', -, hf, hw'⟩ := write_parenthesis hv' hk'
    rw [hw, hw'] at he
    simp only [List.append_assoc] at he
    have hfirst := List.append_cancel_left he
    exact word_eq (ih e hmem f _ _ hf (ends_word h _) (ends_word h' _) hfirst).2
  have hlen : ∀ {es : List (Expr Nat)}, 2 ≤ es.length → es ≠ [] :=
    fun h => List.ne_nil_of_length_pos (Nat.lt_of_lt_of_le Nat.two_pos h)
  have hand : " AND ".toList ≠ " )".toList := by decide
  have hor : " OR ".toList ≠ " )".toList := by decide
  have hboth : " AND ".toList ≠ " OR ".toList := by decide
  obtain ⟨e, rfl⟩ | ⟨es, rfl⟩ | ⟨es, rfl⟩ := parenthesis_cases hv hk <;>
    obtain ⟨f, rfl⟩ | ⟨fs, rfl⟩ | ⟨fs, rfl⟩ := parenthesis_cases hv' hk'
  · simp only [headScript, List.append_assoc] at he
    obtain ⟨rfl, hrest⟩ := ih e (List.mem_singleton.mpr rfl) f (" )".toList ++ r)
      (" )".toList ++ s) hv'.1 rfl rfl (List.append_cancel_left he)
    exact ⟨rfl, List.append_cancel_left hrest⟩
  · exact absurd hword.symm hand
  · exact absurd hword.symm hor
  · exact absurd hword hand
  · simp only [headScript, chars_all (hlen hv.1.1), chars_all (hlen hv'.1.1)] at he
    obtain ⟨rfl, hrs⟩ := legible_connective separated_and hv.1.2 hv'.1.2 ih he
    exact ⟨rfl, hrs⟩
  · exact absurd hword hboth
  · exact absurd hword hor
  · exact absurd hword.symm hboth
  · simp only [headScript, chars_any (hlen hv.1.1), chars_any (hlen hv'.1.1)] at he
    obtain ⟨rfl, hrs⟩ := legible_connective separated_or hv.1.2 hv'.1.2 ih he
    exact ⟨rfl, hrs⟩

/-! ### Other heads that are one of a kind -/

/-- To tell a head from another one it is enough to tell it from those of its kind. -/
theorem legible_of_kind {h : Head} (hv : headScript.valid h)
    (hkind : ∀ h' r s, h'.kind = h.kind → headScript.valid h' → endsHead r = true →
      endsHead s = true → headScript.write h ++ r = headScript.write h' ++ s → h = h' ∧ r = s) :
    headScript.Legible h :=
  fun h' r s hv' hr hs he => hkind h' r s (kind_eq hv hv' hr hs he).symm hv' hr hs he

theorem legible_not {e : Expr Nat} (hv : (Expr.not e).WellFormed) (ih : script.Legible e) :
    headScript.Legible (.atom (.not e)) := by
  refine legible_of_kind ⟨hv, rfl⟩ fun h' r s hk hv' hr hs he => ?_
  cases h' with
  | group f => cases hk
  | atom f =>
      cases f with
      | not f =>
          simp only [headScript, chars_not, List.append_assoc] at he
          obtain ⟨rfl, hrest⟩ := ih f (" )".toList ++ r) (" )".toList ++ s) hv'.1.2 rfl rfl
            (List.append_cancel_left he)
          exact ⟨rfl, List.append_cancel_left hrest⟩
      | _ => cases hk

theorem legible_call {f : Function} {es : List (Expr Nat)} (hv : (call f es).WellFormed)
    (ih : ∀ e ∈ es, script.Legible e) : headScript.Legible (.atom (.call f es)) := by
  refine legible_of_kind ⟨hv, rfl⟩ fun h' r s hk hv' hr hs he => ?_
  cases h' with
  | group f => cases hk
  | atom d =>
      cases d with
      | call g fs =>
          simp only [headScript, chars_call, List.append_assoc, List.cons_append] at he
          obtain ⟨rfl, hrest⟩ := Function.text_append_inj hv.1 hv'.1.1 he
          obtain ⟨rfl, hrs⟩ := separated_arguments.legible_list (everyAll_iff.mp hv.2) ih fs r s
            (everyAll_iff.mp hv'.1.2) trivial trivial hrest
          exact ⟨rfl, hrs⟩
      | _ => cases hk

theorem legible_array {es : List (Expr Nat)} (hv : (array es).WellFormed)
    (ih : ∀ e ∈ es, script.Legible e) : headScript.Legible (.atom (.array es)) := by
  refine legible_of_kind ⟨hv, rfl⟩ fun h' r s hk hv' hr hs he => ?_
  cases h' with
  | group f => cases hk
  | atom f =>
      cases f with
      | array fs =>
          simp only [headScript, chars_array, List.append_assoc] at he
          obtain ⟨rfl, hrs⟩ := separated_array.legible_list (everyAll_iff.mp hv.2) ih fs r s
            (everyAll_iff.mp hv'.1.2) trivial trivial (List.append_cancel_left he)
          exact ⟨rfl, hrs⟩
      | _ => cases hk

theorem legible_cases {c y n : Expr Nat} (hv : (Expr.cases c y n).WellFormed)
    (ihc : script.Legible c) (ihy : script.Legible y) (ihn : script.Legible n) :
    headScript.Legible (.atom (.cases c y n)) := by
  refine legible_of_kind ⟨hv, rfl⟩ fun h' r s hk hv' hr hs he => ?_
  cases h' with
  | group f => cases hk
  | atom f =>
      cases f with
      | cases c' y' n' =>
          obtain ⟨-, hc', hy', hn'⟩ := hv'.1
          simp only [headScript, chars_cases, List.append_assoc] at he
          have hthen : ∀ r, ends (" THEN ".toList ++ r) = true := fun _ => rfl
          have helse : ∀ r, ends (" ELSE ".toList ++ r) = true := fun _ => rfl
          have hend : ∀ r, ends (" END".toList ++ r) = true := fun _ => rfl
          obtain ⟨rfl, hy⟩ := ihc c' _ _ hc' (hthen _) (hthen _) (List.append_cancel_left he)
          obtain ⟨rfl, hn⟩ := ihy y' _ _ hy' (helse _) (helse _) (List.append_cancel_left hy)
          obtain ⟨rfl, hrs⟩ := ihn n' _ _ hn' (hend _) (hend _) (List.append_cancel_left hn)
          exact ⟨rfl, List.append_cancel_left hrs⟩
      | _ => cases hk

theorem legible_column (c : ColumnRef) : headScript.Legible (.atom (.column c)) := by
  refine legible_of_kind ⟨trivial, rfl⟩ fun h' r s hk hv' hr hs he => ?_
  cases h' with
  | group f => cases hk
  | atom f =>
      cases f with
      | column d =>
          obtain ⟨rfl, hrs⟩ := c.legible d r s trivial hr hs he
          exact ⟨rfl, hrs⟩
      | _ => cases hk

theorem legible_constant (c : Constant) : headScript.Legible (.atom (.constant c)) := by
  refine legible_of_kind ⟨trivial, rfl⟩ fun h' r s hk hv' hr hs he => ?_
  cases h' with
  | group f => cases hk
  | atom f =>
      cases f with
      | constant d =>
          obtain ⟨rfl, hrs⟩ := c.legible d r s trivial hr hs he
          exact ⟨rfl, hrs⟩
      | _ => cases hk

theorem legible_bound (index : Nat) : headScript.Legible (.atom (.bound index)) := by
  have hend : ∀ {r : List Char}, endsHead r = true → Script.digits.ends r :=
    fun hr => isDigit_of_isWordChar fun c hc => (not_of_endsHead hr hc).1
  refine legible_of_kind ⟨trivial, rfl⟩ fun h' r s hk hv' hr hs he => ?_
  cases h' with
  | group f => cases hk
  | atom f =>
      cases f with
      | bound index' =>
          simp only [headScript, chars, pieces, List.flatMap_singleton, Piece.chars,
            List.cons_append, List.cons.injEq, true_and] at he
          obtain ⟨rfl, hrs⟩ := Script.digits_legible index index' r s trivial (hend hr) (hend hs) he
          exact ⟨rfl, hrs⟩
      | _ => cases hk

/-! ### Paths and objects -/

theorem legible_field {f : String × Expr Nat} (hv : f.2.WellFormed) (ih : script.Legible f.2) :
    fieldScript.Legible f := by
  refine Script.Legible.pair (Script.quoted_legible '\x27' f.1) ih.behind hv ?_
  intro e r _ _ hq
  cases hq

theorem separated_fields : fieldScript.Separated ", ".toList " )".toList where
  separator_ends _ := rfl
  closing_ends _ := rfl
  apart := by decide
  opens := by
    intro f r _ _ s he
    cases he

theorem legible_part {p : Part} (hv : partScript.valid p)
    (ih : ∀ f ∈ p.fields, script.Legible f.2) : partScript.Legible p := by
  intro p' r s hv' _ _ he
  cases p with
  | row label =>
      cases p' with
      | row label' =>
          simp only [partScript, List.append_assoc] at he
          have hdot : ∀ r, (Script.quoted '"').ends (".*)".toList ++ r) := by
            intro r hq
            cases hq
          obtain ⟨rfl, hrs⟩ := Script.quoted_legible '"' label label' _ _ trivial (hdot r) (hdot s)
            (List.append_cancel_left he)
          exact ⟨rfl, List.append_cancel_left hrs⟩
      | call fields' => cases he
  | call fields =>
      cases p' with
      | row label' => cases he
      | call fields' =>
          simp only [partScript, List.append_assoc] at he
          obtain ⟨rfl, hrs⟩ := separated_fields.legible_list hv
            (fun f hf => legible_field (hv f hf).2 (ih f hf)) fields' r s hv' trivial trivial
            (List.append_cancel_left he)
          exact ⟨rfl, hrs⟩

theorem separated_parts : partScript.Separated " || ".toList ")".toList where
  separator_ends _ := trivial
  closing_ends _ := trivial
  apart := by decide
  opens := by
    intro p r _ _ s he
    cases p <;> cases he

theorem legible_parts (row : Option String) {fields : List (String × Expr Nat)}
    (hv : ∀ f ∈ fields, f.2.WellFormed) (ih : ∀ f ∈ fields, script.Legible f.2) :
    ∀ p ∈ parts row fields, partScript.Legible p := by
  intro p hp
  exact legible_part (valid_parts row hv p hp) fun f hf => ih f (mem_of_mem_parts hp hf)

theorem legible_object_object {row row' : Option String} {fields fields' : List (String × Expr Nat)}
    {r s : List Char} (hv : (object row fields).WellFormed) (hv' : (object row' fields').WellFormed)
    (ih : ∀ f ∈ fields, script.Legible f.2)
    (he : (object row fields).chars ++ r = (object row' fields').chars ++ s) :
    object row fields = object row' fields' ∧ r = s := by
  have hfields := everyFields_iff.mp hv.2
  have hvalid := valid_parts row hfields
  have hlegible := legible_parts row hfields ih
  have hvalid' := valid_parts row' (everyFields_iff.mp hv'.2)
  have hback : parts row fields = parts row' fields' → object row fields = object row' fields' := by
    intro hp
    obtain ⟨rfl, rfl⟩ := parts_inj hp
    rfl
  rw [chars_object, chars_object, List.cons_append, List.cons_append, List.cons.injEq] at he
  generalize parts row fields = ps at *
  generalize parts row' fields' = ps' at *
  cases ps with
  | nil =>
      cases ps' with
      | nil => exact ⟨hback rfl, List.append_cancel_left he.2⟩
      | cons p' ps' => cases p' <;> cases he.2
  | cons p ps =>
      cases ps' with
      | nil => cases p <;> cases he.2
      | cons p' ps' =>
          obtain ⟨hp, hrs⟩ := separated_parts.legible_list hvalid hlegible (p' :: ps') r s hvalid'
            trivial trivial he.2
          exact ⟨hback hp, hrs⟩

theorem ends_arrows (asText : Bool) {steps : List PathStep} (h : steps ≠ []) (r : List Char) :
    ends (arrowScript.many.write (arrows asText steps) ++ r) = true := by
  match steps, h with
  | [step], _ => cases asText <;> rfl
  | step :: step' :: steps, _ => rfl

theorem legible_path_path {e e' : Expr Nat} {steps steps' : List PathStep} {asText asText' : Bool}
    {r s : List Char} (hv : (path e steps asText).WellFormed)
    (hv' : (path e' steps' asText').WellFormed) (ih : script.Legible e)
    (he : (path e steps asText).chars ++ r = (path e' steps' asText').chars ++ s) :
    path e steps asText = path e' steps' asText' ∧ r = s := by
  have hend : ∀ r, arrowScript.many.ends (")".toList ++ r) := by
    refine fun r => ⟨.inr rfl, ?_⟩
    rintro ⟨asText, step⟩ s _ hw
    cases asText <;> cases hw
  rw [chars_path, chars_path, List.cons_append, List.cons_append, List.cons.injEq] at he
  have hrest := he.2
  simp only [List.append_assoc] at hrest
  obtain ⟨rfl, harrows⟩ := ih e' _ _ hv'.2 (ends_arrows asText hv.1 _) (ends_arrows asText' hv'.1 _) hrest
  have hmany : arrowScript.many.Legible (arrows asText steps) := by
    refine Script.Legible.many ?_ (fun _ _ => trivial) fun a _ => arrow_legible a
    rintro ⟨asText, step⟩ r _
    cases asText <;> exact .inl rfl
  obtain ⟨ha, hrs⟩ := hmany _ _ _ (fun _ _ => trivial) (hend r) (hend s) harrows
  obtain ⟨rfl, rfl⟩ := arrows_inj hv.1 ha
  exact ⟨rfl, List.append_cancel_left hrs⟩

/-- The head of a text that begins with a word and a parenthesis is a call. -/
theorem exists_call {h : Head} {x s : List Char} (word : List Char) (hv : headScript.valid h)
    (hs : endsHead s = true) (hne : word ≠ []) (hword : ∀ c ∈ word, isWordChar c = true)
    (he : headScript.write h ++ s = word ++ '(' :: x) :
    ∃ es, (∀ e ∈ es, e.WellFormed) ∧
      (script.list ", ".toList ")".toList).write es ++ s = x := by
  have hkind := kindOf_write hv hs
  rw [he, kindOf_call hne hword, Option.some.injEq] at hkind
  cases h with
  | group e => cases hkind
  | atom e =>
      cases e with
      | call f es =>
          simp only [headScript, chars_call, List.append_assoc, List.cons_append] at he
          have hparen : ∀ {r : List Char}, ∀ c ∈ ('(' :: r).head?, isWordChar c = false := by
            rintro r c hc
            cases hc
            decide
          have hrest := (append_inj_of_class isWordChar (Function.text_isWord hv.1.1).2 hword
            hparen hparen he).2
          exact ⟨es, everyAll_iff.mp hv.1.2, (List.cons.inj hrest).2⟩
      | _ => cases hkind

/-- No argument of a call is a whole row. -/
theorem arguments_ne_row {es : List (Expr Nat)} (hes : ∀ e ∈ es, e.WellFormed) (label : String)
    (r s : List Char) : (script.list ", ".toList ")".toList).write es ++ r ≠
      Piece.quotedBy '"' label ++ (".*)".toList ++ s) := by
  intro he
  cases es with
  | nil => cases he
  | cons e es =>
      simp only [Script.list, List.append_assoc] at he
      obtain ⟨h, x, hv, hx, hw⟩ := exists_head (hes e List.mem_cons_self)
        (separated_arguments.tail_ends es r)
      rw [show script.write e = e.chars from rfl, hw] at he
      have hkind := kindOf_write hv hx
      rw [he] at hkind
      cases h with
      | group f => cases hkind
      | atom f =>
          cases f with
          | column c =>
              -- a column ends in front of what may stand behind a head, and a dot may not
              have hdot : ∀ {y : List Char}, '"' ∉ ('.' :: y).head? := by
                intro y hq
                cases hq
              cases c with
              | bare name =>
                  have hq : '"' ∉ x.head? := fun hq => (not_of_endsHead hx hq).2.1 rfl
                  simp only [headScript, chars, pieces, ColumnRef.pieces,
                    List.flatMap_singleton] at he
                  have hrest := (Script.quoted_legible '"' name label _ _ trivial hq hdot he).2
                  rw [hrest] at hx
                  cases hx
              | qualified table name =>
                  simp only [headScript, chars, pieces, ColumnRef.pieces, List.flatMap_cons,
                    List.flatMap_nil, List.append_assoc] at he
                  have hrest := (Script.quoted_legible '"' table label _ _ trivial hdot hdot he).2
                  cases hrest
          | _ => cases hkind

/-- No argument begins with a blank. -/
theorem arguments_ne_blank {es : List (Expr Nat)} (hes : ∀ e ∈ es, e.WellFormed)
    (r s : List Char) : (script.list ", ".toList ")".toList).write es ++ r ≠ ' ' :: s := by
  intro he
  cases es with
  | nil => cases he
  | cons e es =>
      obtain ⟨c, cs, hc, hne⟩ := exists_char (hes e List.mem_cons_self)
      simp only [Script.list, List.append_assoc] at he
      rw [show script.write e = c :: cs from hc, List.cons_append, List.cons.injEq] at he
      exact hne.1 he.1

theorem path_ne_object {e : Expr Nat} {steps : List PathStep} {asText : Bool} {row : Option String}
    {fields : List (String × Expr Nat)} {r s : List Char} (hv : (path e steps asText).WellFormed) :
    (path e steps asText).chars ++ r ≠ (object row fields).chars ++ s := by
  intro he
  rw [chars_path, chars_object, List.cons_append, List.cons_append, List.cons.injEq] at he
  have hrest := he.2
  simp only [List.append_assoc] at hrest
  obtain ⟨h, x, hvh, hx, hw⟩ :=
    exists_head hv.2 (ends_arrows asText hv.1 (")".toList ++ r))
  rw [hw] at hrest
  cases hp : parts row fields with
  | nil =>
      rw [hp] at hrest
      have hkind := kindOf_write hvh hx
      rw [hrest] at hkind
      cases h with
      | group f => cases hkind
      | atom f =>
          cases f with
          | constant c =>
              -- the only constant that begins with a quote is the empty text
              have hread := congrArg Constant.read? hrest
              by_cases hint : ∃ n, c = .int n
              · obtain ⟨n, rfl⟩ := hint
                exact absurd ((Constant.read?_int n x).symm.trans hread) (by nofun)
              · have hc := (Constant.read?_of_not_int (not_exists.mp hint) x).symm.trans hread
                cases hc
                cases hrest
          | _ => cases hkind
  | cons p ps =>
      rw [hp] at hrest
      cases p with
      | row label =>
          have htext : (partScript.list " || ".toList ")".toList).write (.row label :: ps) ++ s =
              "TO_JSONB".toList ++ '(' :: (Piece.quotedBy '"' label ++
                (".*)".toList ++ (partScript.tail " || ".toList ")".toList ps ++ s))) := by
            simp [Script.list, partScript]
          obtain ⟨es, hes, hargs⟩ := exists_call _ hvh hx (by decide)
            (List.all_eq_true.mp (by decide)) (hrest.trans htext)
          exact arguments_ne_row hes label _ _ hargs
      | call fields =>
          obtain ⟨es, hes, hargs⟩ := exists_call "JSONB_BUILD_OBJECT".toList hvh hx
            (by decide) (List.all_eq_true.mp (by decide)) hrest
          exact arguments_ne_blank hes _ _ hargs

theorem legible_path {e : Expr Nat} {steps : List PathStep} {asText : Bool}
    (hv : (path e steps asText).WellFormed) (ih : script.Legible e) :
    headScript.Legible (.atom (.path e steps asText)) := by
  refine legible_of_kind ⟨hv, rfl⟩ fun h' r s hk hv' hr hs he => ?_
  cases h' with
  | group f => cases hk
  | atom f =>
      cases f with
      | path e' steps' asText' =>
          obtain ⟨hp, hrs⟩ := legible_path_path hv hv'.1 ih he
          exact ⟨congrArg Head.atom hp, hrs⟩
      | object row fields => exact absurd he (path_ne_object hv)
      | _ => cases hk

theorem legible_object {row : Option String} {fields : List (String × Expr Nat)}
    (hv : (object row fields).WellFormed) (ih : ∀ f ∈ fields, script.Legible f.2) :
    headScript.Legible (.atom (.object row fields)) := by
  refine legible_of_kind ⟨hv, rfl⟩ fun h' r s hk hv' hr hs he => ?_
  cases h' with
  | group f => cases hk
  | atom f =>
      cases f with
      | path e steps asText => exact absurd he.symm (path_ne_object hv'.1)
      | object row' fields' =>
          obtain ⟨ho, hrs⟩ := legible_object_object hv hv'.1 ih he
          exact ⟨congrArg Head.atom ho, hrs⟩
      | _ => cases hk

/-! ### Spines -/

theorem legible_stem {h : Head} {types : List String} (hh : headScript.Legible h)
    (ht : castScript.many.valid types) : stemScript.Legible (h, types) := by
  have htypes : castScript.many.Legible types :=
    Script.Legible.many (fun _ _ _ => rfl) ht fun type htype => legible_cast (ht type htype)
  exact hh.pair htypes ht fun types r _ hr => endsHead_casts hr.1

theorem legible_spine {s : Spine} (hs : stemScript.Legible s.1) (hv : tailScript.many.valid s.2)
    (ht : ∀ t ∈ s.2, tailScript.Legible t) : spineScript.Legible s := by
  have hmany : tailScript.many.Legible s.2 := by
    refine Script.Legible.many (fun t r _ => ?_) hv ht
    rw [show tailScript.write t ++ r = t.operator.text ++ (t.content ++ r) from
      List.append_assoc _ _ _]
    exact endsOperand_operator _ _
  exact hs.pair hmany hv fun tails r _ hr => ends_casts (endsOperand_tails hr.1)

/-- The parts of the spine of an expression are legible. -/
structure SpineLegible (e : Expr Nat) : Prop where
  head : headScript.Legible e.spine.1.1
  tails : ∀ t ∈ e.spine.2, tailScript.Legible t

namespace SpineLegible

variable {e : Expr Nat}

theorem of_atom (ha : e.isAtom = true) (h : headScript.Legible (.atom e)) : SpineLegible e := by
  refine ⟨?_, ?_⟩
  · rw [spine_of_isAtom ha]
    exact h
  · rw [spine_of_isAtom ha]
    exact nofun

theorem script (h : SpineLegible e) (he : e.WellFormed) : script.Legible e := by
  intro f r s hf hr hs hw
  have hvalid := valid_spine he
  have hspine := legible_spine (legible_stem h.head hvalid.1.2) hvalid.2 h.tails
  rw [show Expr.script.write e = spineScript.write e.spine from (write_spine e).symm,
    show Expr.script.write f = spineScript.write f.spine from (write_spine f).symm] at hw
  obtain ⟨hef, hrs⟩ := hspine f.spine r s (valid_spine hf) (ends_tails hr) (ends_tails hs) hw
  refine ⟨?_, hrs⟩
  rw [← ofSpine_spine e, hef, ofSpine_spine]

/-- The head of an operand is legible too, parentheses or not. -/
theorem stem (h : SpineLegible e) (he : e.WellFormed) :
    headScript.Legible (stem e e.spine).1 := by
  unfold Expr.stem
  cases ho : e.isOperation with
  | true =>
      refine legible_parenthesis ⟨he, ho⟩ rfl fun f hf => ?_
      rw [List.mem_singleton.mp hf]
      exact h.script he
  | false => exact h.head

theorem operand (h : SpineLegible e) (he : e.WellFormed) : operandScript.Legible e := by
  intro f r s hf hr hs hw
  have hstem : stemScript.Legible (Expr.stem e e.spine) :=
    legible_stem (h.stem he) (valid_stem he (valid_spine he)).2
  rw [show operandScript.write e = stemScript.write (Expr.stem e e.spine) from
      (write_stem (write_spine e)).symm,
    show operandScript.write f = stemScript.write (Expr.stem f f.spine) from
      (write_stem (write_spine f)).symm] at hw
  obtain ⟨hef, hrs⟩ := hstem (Expr.stem f f.spine) r s (valid_stem hf (valid_spine hf))
    (ends_casts hr) (ends_casts hs) hw
  refine ⟨?_, hrs⟩
  rw [← ofStem_stem (ofSpine_spine e), hef, ofStem_stem (ofSpine_spine f)]

end SpineLegible

/-- The operator tells what follows it. -/
theorem operator_eq {t t' : Tail} {r s : List Char}
    (he : tailScript.write t ++ r = tailScript.write t' ++ s) : t.operator = t'.operator := by
  have hread := congrArg Operator.read? he
  rw [show tailScript.write t ++ r = t.operator.text ++ (t.content ++ r) from
      List.append_assoc _ _ _,
    show tailScript.write t' ++ s = t'.operator.text ++ (t'.content ++ s) from
      List.append_assoc _ _ _, Operator.read?_text, Operator.read?_text] at hread
  exact Option.some.inj hread

theorem legible_binary {op : BinaryOp} {right : Expr Nat} (ih : operandScript.Legible right) :
    tailScript.Legible (.binary op right) := by
  intro t r s hv hr hs he
  have ho := operator_eq he
  cases t with
  | binary op' right' =>
      cases ho
      simp only [tailScript, List.append_assoc] at he
      obtain ⟨rfl, hrs⟩ := ih right' r s hv hr hs (List.append_cancel_left he)
      exact ⟨rfl, hrs⟩
  | test t => cases ho
  | isIn items => cases ho

theorem legible_test (t : Test) : tailScript.Legible (.test t) := by
  intro t' r s hv hr hs he
  have ho := operator_eq he
  cases t' with
  | binary op right => cases ho
  | test t' =>
      cases ho
      exact ⟨rfl, List.append_cancel_left he⟩
  | isIn items => cases ho

theorem legible_isIn {es : List (Expr Nat)} (hv : ∀ e ∈ es, e.WellFormed)
    (ih : ∀ e ∈ es, script.Legible e) : tailScript.Legible (.isIn es) := by
  intro t r s hv' hr hs he
  have ho := operator_eq he
  cases t with
  | binary op right => cases ho
  | test t => cases ho
  | isIn fs =>
      simp only [tailScript, List.append_assoc] at he
      obtain ⟨rfl, hrs⟩ := separated_items.legible_list hv ih fs r s hv' trivial trivial
        (List.append_cancel_left he)
      exact ⟨rfl, hrs⟩

/-! ### The induction -/

/-- All parts of a well-formed expression are legible, by induction over the expression. -/
theorem spineLegible {e : Expr Nat} (he : e.WellFormed) : SpineLegible e := by
  have hlist : ∀ {es : List (Expr Nat)}, (∀ e ∈ es, e.WellFormed → SpineLegible e) →
      EveryAll Proper es → ∀ e ∈ es, script.Legible e := fun ih hes e hmem =>
    have he := everyAll_iff.mp hes e hmem
    (ih e hmem he).script he
  induction e using induct with
  | all es ih => exact .of_atom rfl (legible_parenthesis ⟨he, rfl⟩ rfl (hlist ih he.2))
  | any es ih => exact .of_atom rfl (legible_parenthesis ⟨he, rfl⟩ rfl (hlist ih he.2))
  | not e ih => exact .of_atom rfl (legible_not he ((ih he.2).script he.2))
  | binary l op r ihl ihr =>
      have hr := (ihr he.2.2).operand he.2.2
      exact ⟨(ihl he.2.1).stem he.2.1, List.forall_mem_singleton.mpr (legible_binary hr)⟩
  | isIn l es ihl ih =>
      have hes := legible_isIn (everyAll_iff.mp he.2.2) (hlist ih he.2.2)
      exact ⟨(ihl he.2.1).head,
        List.forall_mem_append.mpr ⟨(ihl he.2.1).tails, List.forall_mem_singleton.mpr hes⟩⟩
  | test e t ih => exact ⟨(ih he.2).stem he.2, List.forall_mem_singleton.mpr (legible_test t)⟩
  | call f es ih => exact .of_atom rfl (legible_call he (hlist ih he.2))
  | array es ih => exact .of_atom rfl (legible_array he (hlist ih he.2))
  | column c => exact .of_atom rfl (legible_column c)
  | path e steps asText ih => exact .of_atom rfl (legible_path he ((ih he.2).script he.2))
  | cases c y n ihc ihy ihn =>
      obtain ⟨-, hc, hy, hn⟩ := id he
      exact .of_atom rfl
        (legible_cases he ((ihc hc).script hc) ((ihy hy).script hy) ((ihn hn).script hn))
  | object row fields ih =>
      refine .of_atom rfl (legible_object he fun f hf => ?_)
      have hvf := everyFields_iff.mp he.2 f hf
      exact (ih f hf hvf).script hvf
  | cast e type ih => exact ⟨(ih he.2).stem he.2, nofun⟩
  | constant c => exact .of_atom rfl (legible_constant c)
  | bound index => exact .of_atom rfl (legible_bound index)

/-- Expressions with the same text are equal. -/
theorem eq_of_chars_eq {e f : Expr Nat} (he : e.WellFormed) (hf : f.WellFormed)
    (h : e.chars = f.chars) : e = f :=
  ((spineLegible he).script he f [] [] hf rfl rfl (congrArg (· ++ []) h)).1

end Expr

/-- **Expressions can be read in one way only**: conditions, computed fields and elements of indexes
are well formed, and two well-formed expressions with the same text are the same up to the values
bound at their placeholders, which the text shows by number only. -/
theorem unique_readability :
    (∀ (t : Target) s args args' e, t.selector s args = .ok e args' → e.WellFormed) ∧
    (∀ c w w' e, Compile.computed c w = .ok e w' → e.WellFormed) ∧
    (∀ table options field e, TableIndex.element table options field = .ok e → e.WellFormed) ∧
    ∀ e f : Expr Placeholder, e.WellFormed → f.WellFormed → e.sql = f.sql →
      e.map Placeholder.index = f.map Placeholder.index := by
  refine ⟨fun _ _ _ _ _ => Target.selector_wellFormed, fun _ _ _ _ => Compile.computed_wellFormed,
    fun _ _ _ _ => TableIndex.element_wellFormed, fun e f he hf h => ?_⟩
  refine Expr.eq_of_chars_eq ((Expr.wellFormed_map _ e).mpr he) ((Expr.wellFormed_map _ f).mpr hf) ?_
  exact String.ofList_injective h

namespace Sample

/-- A condition with an operation on its left side and a path on its right, and a value in it. -/
def condition (value : Param) : Expr Placeholder :=
  .all [.binary (.isIn (.columnOf "p" "title") [.bound ⟨1, value⟩, .constant .null]) .eq
      (.cast (.path (.test (.columnOf "p" "data") .notNull) [.key "a", .index 0] true) "TEXT"),
    .test (.object (some "p") [("k", .call (.named "now") [])]) .null]

theorem wellFormed_condition (value : Param) : (condition value).WellFormed := by
  refine ⟨Nat.le_refl 2, ⟨trivial, ⟨trivial, trivial, trivial, trivial, trivial⟩, ⟨.text, rfl⟩,
    List.cons_ne_nil _ _, trivial, trivial⟩, ⟨trivial, trivial, ⟨?_, trivial⟩, trivial⟩, trivial⟩
  exact ⟨by decide, by decide⟩

end Sample

theorem unique_readability_sample :
    (∃ e args, Target.selector ⟨⟨"Posts", Sample.posts⟩, some "p", true⟩
      (.filter [("title", .str "it's")]) .empty = .ok e args ∧ e.WellFormed) ∧
    (∃ e w, Compile.computed (.binary (.column "title") .plus (.call "lower" [.value (.int 1)]))
      ⟨.root ⟨"Posts", Sample.posts⟩ "Users" [], .sequential, []⟩ = .ok e w ∧ e.WellFormed) ∧
    (∃ e, TableIndex.element ⟨"Posts", Sample.posts⟩ .default "title" = .ok e ∧ e.WellFormed) ∧
    (Sample.condition (.int 1)).sql = (Sample.condition (.str "x")).sql ∧
    (Sample.condition (.int 1)).map Placeholder.index =
      (Sample.condition (.str "x")).map Placeholder.index := by
  obtain ⟨hselector, hcomputed, helement, hsql⟩ := unique_readability
  refine ⟨?_, ?_, ?_, rfl, ?_⟩
  · have hrun : ∃ e args, Target.selector ⟨⟨"Posts", Sample.posts⟩, some "p", true⟩
        (.filter [("title", .str "it's")]) .empty = .ok e args := ⟨_, _, rfl⟩
    obtain ⟨e, args, h⟩ := hrun
    exact ⟨e, args, h, hselector _ _ _ _ _ h⟩
  · have hrun : ∃ e w, Compile.computed
        (.binary (.column "title") .plus (.call "lower" [.value (.int 1)]))
        ⟨.root ⟨"Posts", Sample.posts⟩ "Users" [], .sequential, []⟩ = .ok e w := ⟨_, _, rfl⟩
    obtain ⟨e, w, h⟩ := hrun
    exact ⟨e, w, h, hcomputed _ _ _ _ h⟩
  · exact ⟨_, rfl, helement ⟨"Posts", Sample.posts⟩ .default "title" _ rfl⟩
  · exact hsql _ _ (Sample.wellFormed_condition _) (Sample.wellFormed_condition _) rfl

end ShapedQuery
