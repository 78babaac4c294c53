import ShapedQuery.Proofs.Rows
import ShapedQuery.Query.Index

/-! # The elements of an index

A statement that creates an index has one element for each field of the index.  An element is the
column or the place inside it that the field names, and around it casts to text and calls of
`COALESCE` and `LOWER` (`Around`).  What an element has to be is said in `TableIndex.IsElement`: it
ignores case exactly with a collation, the two functions are called with texts only
(`Table.TakesTexts`), and in a unique index it is never null.  The last is said of every database
that follows the rules for null (`Database.NullRules`) and every row that has a value in the columns
that are never null.

An element is made in two steps, of which each may leave it as it is (`guarded`, `lowered`).  What
they keep is proved step by step, and `TableIndex.isElement_of_element` puts it together. -/

namespace ShapedQuery

/-! ### Texts and nulls -/

/-- Is the value of an expression over the columns of a table a text? -/
def Table.isText (t : Table) : Expr Placeholder → Bool
  | .column (.bare name) => (t.column? name).any Column.isTextual
  | .cast _ type => type == ScalarType.text.sqlName
  | .call .coalesce _ => true
  | .call .lower _ => true
  | .constant .emptyText => true
  | _ => false

/-- If an expression calls `LOWER` or `COALESCE`, then with texts. -/
def Table.TakesTexts (t : Table) (e : Expr Placeholder) : Prop :=
  ∀ f es, e = .call f es → f = .lower ∨ f = .coalesce → ∀ a ∈ es, t.isText a = true

/-- A function is called somewhere in an expression. -/
def Expr.Calls {π : Type} (f : Function) (e : Expr π) : Prop :=
  ¬ e.Every fun d => ∀ es, d ≠ .call f es

/-- What a database does about null: `COALESCE` gives the first value that is not null, what is not
null is not null as a text, and neither is the empty text. -/
structure Database.NullRules {V : Type} (db : Database V) (row : Row V) : Prop where
  coalesce : ∀ as, db.apply .coalesce as = as.findSome? id
  text : ∀ a, (db.cast ScalarType.text.sqlName a).isSome = true
  empty : (row.other (.constant .emptyText)).isSome = true

/-- An expression with nothing around it but casts to text and calls of `COALESCE` and `LOWER`. -/
inductive Around (place : Expr Placeholder) : Expr Placeholder → Prop
  | place : Around place place
  | text {e} : Around place e → Around place (.cast e ScalarType.text.sqlName)
  | coalesce {e} : Around place e → Around place (.call .coalesce [e, .constant .emptyText])
  | lower {e} : Around place e → Around place (.call .lower [e])

/-- No values are bound around an expression. -/
theorem Around.bounds_eq {place e : Expr Placeholder} (h : Around place e) :
    e.bounds = place.bounds := by
  induction h with
  | place => rfl
  | text _ ih => exact ih
  | coalesce _ ih =>
      rw [Expr.bounds, Expr.boundsAll, ih]
      exact List.append_nil _
  | lower _ ih =>
      rw [Expr.bounds, Expr.boundsAll, ih]
      exact List.append_nil _

namespace TableIndex

/-! ### Elements -/

/-- The column that a field names, or the place inside it. -/
def place (field : String) : Expr Placeholder :=
  let path := FieldPath.split field
  if path.steps.isEmpty then .column (.bare path.column)
  else .path (.column (.bare path.column)) path.steps false

/-- A table has the column that a field names.  If the field goes on behind a dot, it holds JSON. -/
def HasField (t : Table) (field : String) : Prop :=
  ∃ c, t.column? (firstSegment field) = some c ∧ (isDotted field = true → c.isJson = true)

/-- What is indexed for a field: its place, without regard to case if there is a collation, and
never null if the index is unique. -/
structure IsElement (t : NamedTable) (options : IndexOptions) (field : String)
    (e : Expr Placeholder) : Prop where
  around : Around (place field) e
  lower_iff : e.Calls .lower ↔ options.collation.isSome = true
  texts : e.Every t.table.TakesTexts
  isSome_value : options.unique = true → ∀ {V : Type} {db : Database V} {row : Row V},
    db.NullRules row → row.Respects ⟨t, none, false⟩ →
      ∀ args, (db.value row args e).isSome = true

/-- An expression with the empty text to fall back on, if that is asked for. -/
def guarded (guard textual : Bool) (e : Expr Placeholder) : Expr Placeholder :=
  if guard then .call .coalesce [asText textual e, .constant .emptyText] else e

/-- An expression without regard to case, if that is asked for. -/
def lowered (collated textual : Bool) (e : Expr Placeholder) : Expr Placeholder :=
  if collated then .call .lower [asText textual e] else e

section element

variable {t : NamedTable} {options : IndexOptions} {field : String} {e : Expr Placeholder}

theorem hasField_of_element (h : element t options field = .ok e) : HasField t.table field := by
  unfold element NamedTable.lookupColumn at h
  dsimp only at h
  rw [FieldPath.column_split, FieldPath.isEmpty_steps_split, Bool.not_not] at h
  unfold HasField
  cases hc : t.table.column? (firstSegment field) with
  | none =>
      rw [hc] at h
      cases h
  | some c =>
      rw [hc] at h
      dsimp only at h
      split at h
      · cases h
      · rename_i hjson
        refine ⟨c, rfl, fun hdotted => ?_⟩
        rw [hdotted] at hjson
        simpa using hjson

/-- The element of a field is made from its place in two steps.  What comes out of the first is a
text if it was made one there. -/
theorem element_eq {c : Column} (hc : t.table.column? (firstSegment field) = some c)
    (hjson : isDotted field = true → c.isJson = true) : element t options field =
      .ok (lowered options.collation.isSome
        (options.unique && c.nullable || !isDotted field && c.isTextual)
        (guarded (options.unique && c.nullable) (!isDotted field && c.isTextual)
          (place field))) := by
  unfold element place NamedTable.lookupColumn
  dsimp only
  rw [FieldPath.column_split, FieldPath.isEmpty_steps_split, hc]
  dsimp only
  cases hdotted : isDotted field with
  | true =>
      rw [hjson hdotted]
      cases options.unique && c.nullable <;> rfl
  | false => cases options.unique && c.nullable <;> rfl

end element

/-! The place of a field, and what each of the steps keeps. -/

theorem place_eq {field : String} (h : isDotted field = false) :
    place field = .column (.bare (firstSegment field)) := by
  have hsteps : (FieldPath.split field).steps.isEmpty = true := by
    rw [FieldPath.isEmpty_steps_split]
    exact congrArg not h
  rw [place, if_pos hsteps, FieldPath.column_split]

theorem bounds_place (field : String) : (place field).bounds = [] := by
  unfold place
  dsimp only
  split <;> rfl

section around

variable {p e : Expr Placeholder}

theorem around_asText (h : Around p e) (textual : Bool) : Around p (asText textual e) := by
  cases textual with
  | true => exact h
  | false => exact .text h

theorem around_guarded (h : Around p e) (guard textual : Bool) :
    Around p (guarded guard textual e) := by
  cases guard with
  | true => exact .coalesce (around_asText h textual)
  | false => exact h

theorem around_lowered (h : Around p e) (collated textual : Bool) :
    Around p (lowered collated textual e) := by
  cases collated with
  | true => exact .lower (around_asText h textual)
  | false => exact h

end around

section calls

-- Whatever holds of all expressions but calls has to be looked at where a function is called.
variable {P : Expr Placeholder → Prop} (hother : ∀ d, (∀ f es, d ≠ .call f es) → P d)
  {e : Expr Placeholder} {guard collated textual : Bool}
include hother

theorem every_place (field : String) : (place field).Every P := by
  have hcolumn (name : String) : P (.column (.bare name)) := hother _ fun f es h => by cases h
  unfold place
  dsimp only
  split
  · exact hcolumn _
  · exact ⟨hother _ (fun f es h => by cases h), hcolumn _⟩

theorem every_asText (h : e.Every P) : (asText textual e).Every P := by
  cases textual with
  | true => exact h
  | false => exact ⟨hother _ (fun f es h => by cases h), h⟩

theorem every_guarded (h : e.Every P)
    (hcall : P (.call .coalesce [asText textual e, .constant .emptyText])) :
    (guarded guard textual e).Every P := by
  cases guard with
  | true => exact ⟨hcall, every_asText hother h, hother _ (fun f es h => by cases h), trivial⟩
  | false => exact h

theorem every_lowered (h : e.Every P) (hcall : P (.call .lower [asText textual e])) :
    (lowered collated textual e).Every P := by
  cases collated with
  | true => exact ⟨hcall, every_asText hother h, trivial⟩
  | false => exact h

end calls

theorem calls_lowered {e : Expr Placeholder} (h : e.Every fun d => ∀ es, d ≠ .call .lower es)
    (collated textual : Bool) :
    (lowered collated textual e).Calls .lower ↔ collated = true := by
  cases collated with
  | false => exact ⟨fun hcalls => absurd h hcalls, fun h => by cases h⟩
  | true => exact ⟨fun _ => rfl, fun _ hevery => hevery.self _ rfl⟩

section texts

variable {t : Table} {e : Expr Placeholder} {guard textual : Bool}

theorem isText_place {field : String} {c : Column} (hc : t.column? (firstSegment field) = some c)
    (h : (!isDotted field && c.isTextual) = true) : t.isText (place field) = true := by
  rw [Bool.and_eq_true, Bool.not_eq_true'] at h
  rw [place_eq h.1, Table.isText, hc]
  exact h.2

theorem isText_asText (h : textual = true → t.isText e = true) :
    t.isText (asText textual e) = true := by
  cases textual with
  | true => exact h rfl
  | false => rfl

theorem isText_guarded (h : textual = true → t.isText e = true)
    (htext : (guard || textual) = true) : t.isText (guarded guard textual e) = true := by
  cases guard with
  | true => rfl
  | false => exact h htext

theorem takesTexts_of_not_call (h : ∀ f es, e ≠ .call f es) : t.TakesTexts e :=
  fun f es he => absurd he (h f es)

theorem takesTexts_call {f : Function} {es : List (Expr Placeholder)}
    (h : ∀ a ∈ es, t.isText a = true) : t.TakesTexts (.call f es) := by
  rintro g as ⟨⟩ -
  exact h

end texts

section values

variable {V : Type} {db : Database V} {row : Row V} (hrules : db.NullRules row) {args : Arguments}
  {e : Expr Placeholder}
include hrules

theorem isSome_value_asText (textual : Bool) (h : (db.value row args e).isSome = true) :
    (db.value row args (asText textual e)).isSome = true := by
  cases textual with
  | true => exact h
  | false =>
      obtain ⟨a, ha⟩ := Option.isSome_iff_exists.mp h
      show ((db.value row args e).bind (db.cast ScalarType.text.sqlName)).isSome = true
      rw [ha]
      exact hrules.text a

/-- With the empty text to fall back on there is always a value. -/
theorem isSome_value_guarded {guard : Bool} (textual : Bool)
    (h : guard = false → (db.value row args e).isSome = true) :
    (db.value row args (guarded guard textual e)).isSome = true := by
  cases guard with
  | false => exact h rfl
  | true =>
      show (db.apply .coalesce [db.value row args (asText textual e),
        row.other (.constant .emptyText)]).isSome = true
      rw [hrules.coalesce]
      cases db.value row args (asText textual e) with
      | some a => rfl
      | none =>
          obtain ⟨a, ha⟩ := Option.isSome_iff_exists.mp hrules.empty
          rw [ha]
          rfl

theorem isSome_value_lowered (collated textual : Bool) (h : (db.value row args e).isSome = true) :
    (db.value row args (lowered collated textual e)).isSome = true := by
  cases collated with
  | false => exact h
  | true =>
      show ((db.value row args (asText textual e)).map db.lower).isSome = true
      rw [Option.isSome_map]
      exact isSome_value_asText hrules textual h

end values

section element

variable {t : NamedTable} {options : IndexOptions} {field : String} {e : Expr Placeholder}

/-- What is made for a field is what should be indexed, unless it is a place inside a column in a
unique index. -/
theorem isElement_of_element (hunique : options.unique = true → isDotted field = false)
    (h : element t options field = .ok e) : IsElement t options field e := by
  obtain ⟨c, hc, hjson⟩ := hasField_of_element h
  rw [element_eq hc hjson, Except.ok.injEq] at h
  subst h
  have htext := isText_place hc
  generalize (!isDotted field && c.isTextual) = textual at htext ⊢
  refine ⟨around_lowered (around_guarded .place _ _) _ _, ?_, ?_,
    fun hu V db row hrules hrow args => ?_⟩
  · have hother : ∀ d : Expr Placeholder, (∀ f es, d ≠ .call f es) → ∀ es, d ≠ .call .lower es :=
      fun d hd => hd .lower
    refine calls_lowered (every_guarded hother (every_place hother field) ?_) _ _
    intro es h
    cases h
  · have hother (d : Expr Placeholder) : (∀ f es, d ≠ .call f es) → t.table.TakesTexts d :=
      takesTexts_of_not_call
    refine every_lowered hother (every_guarded hother (every_place hother field) ?_) ?_
    · refine takesTexts_call (List.forall_mem_cons.mpr ⟨isText_asText htext, ?_⟩)
      exact List.forall_mem_singleton.mpr rfl
    · exact takesTexts_call (List.forall_mem_singleton.mpr (isText_asText (isText_guarded htext)))
  · refine isSome_value_lowered hrules _ _ (isSome_value_guarded hrules _ fun hguard => ?_)
    rw [hu, Bool.true_and] at hguard
    rw [place_eq (hunique hu)]
    exact Option.isSome_iff_ne_none.mpr (hrow _ c hc hguard)

/-- What holds of the element of any field holds of all elements. -/
theorem forall_mem_of_forall₂ {R : String → Expr Placeholder → Prop} {P : Expr Placeholder → Prop}
    {fields : List String} {es : List (Expr Placeholder)} (h : List.Forall₂ R fields es)
    (hP : ∀ field e, R field e → P e) : ∀ e ∈ es, P e := by
  induction h with
  | nil => exact List.forall_mem_nil _
  | cons he _ ih => exact List.forall_mem_cons.mpr ⟨hP _ _ he, ih⟩

/-- The elements are made one by one, in the order of the fields. -/
theorem forall₂_of_elements {fields : List String} {es : List (Expr Placeholder)}
    (h : elements t options fields = .ok es) :
    List.Forall₂ (fun field e => element t options field = .ok e) fields es := by
  induction fields generalizing es with
  | nil =>
      cases h
      exact .nil
  | cons field fields ih =>
      rw [elements] at h
      cases he : element t options field with
      | error err =>
          rw [he] at h
          cases h
      | ok e =>
          rw [he] at h
          cases hrest : elements t options fields with
          | error err =>
              rw [hrest] at h
              cases h
          | ok rest =>
              rw [hrest] at h
              cases h
              exact .cons he (ih hrest)

theorem exists_elements_iff {fields : List String} :
    (∃ es, elements t options fields = .ok es) ↔ ∀ field ∈ fields, HasField t.table field := by
  constructor
  · rintro ⟨es, h⟩
    have hboth := (forall₂_of_elements h).imp fun _ _ he => And.intro (hasField_of_element he) he
    exact ((List.forall₂_and_left _ _).mp hboth).1
  · intro h
    induction fields with
    | nil => exact ⟨[], rfl⟩
    | cons field fields ih =>
        rw [List.forall_mem_cons] at h
        obtain ⟨c, hc, hjson⟩ := h.1
        obtain ⟨es, hes⟩ := ih h.2
        rw [elements, element_eq hc hjson, hes]
        exact ⟨_, rfl⟩

end element

end TableIndex

end ShapedQuery
