import ShapedQuery.Proofs.DocumentOrder
import ShapedQuery.Proofs.FieldNames
import ShapedQuery.Proofs.IndexElements
import ShapedQuery.Proofs.Readability

/-! # The places that a condition reads

A condition names columns, and places inside them.  `Expr.places` lists them from left to right, and
`Target.places_selector` says which ones a selector reads, without the compiler: those of the fields
that stand in it, in the order of the document, one for each operator.  An operator with an empty
list reads nothing, and a negation reads what the operators inside it read (`entriesFields`).

Since a text can be read in one way only, selectors that become the same text read the same places,
and so do elements of indexes.  `FieldPath.split_names` puts this together with what becomes of a
name when it is split. -/

namespace ShapedQuery

/-- A column, and the way to a place inside it. -/
abbrev Place := ColumnRef × List PathStep

namespace Expr

variable {π ρ : Type}

mutual

/-- The places that an expression reads, from left to right. -/
def places : Expr π → List Place
  | .all es => placesAll es
  | .any es => placesAll es
  | .not e => places e
  | .binary l _ r => places l ++ places r
  | .isIn l es => places l ++ placesAll es
  | .test e _ => places e
  | .call _ es => placesAll es
  | .array es => placesAll es
  | .column c => [(c, [])]
  | .path e steps _ => (places e).map fun p => (p.1, p.2 ++ steps)
  | .cases c y n => places c ++ (places y ++ places n)
  | .object _ fields => placesFields fields
  | .cast e _ => places e
  | .constant _ => []
  | .bound _ => []

def placesAll : List (Expr π) → List Place
  | [] => []
  | e :: es => places e ++ placesAll es

def placesFields : List (String × Expr π) → List Place
  | [] => []
  | (_, e) :: es => places e ++ placesFields es

end

theorem placesAll_eq (es : List (Expr π)) : placesAll es = es.flatMap places := by
  induction es with
  | nil => rfl
  | cons e es ih => simp [placesAll, ih]

theorem placesFields_eq (fields : List (String × Expr π)) :
    placesFields fields = fields.flatMap fun f => f.2.places := by
  induction fields with
  | nil => rfl
  | cons f fields ih => simp [placesFields, ih]

theorem placesAll_append (es fs : List (Expr π)) :
    placesAll (es ++ fs) = placesAll es ++ placesAll fs := by
  simp [placesAll_eq]

@[simp] theorem places_allOf (es : List (Expr π)) : (allOf es).places = placesAll es := by
  rcases es with _ | ⟨e, _ | ⟨e', es⟩⟩
  · rfl
  · simp [allOf, placesAll]
  · rfl

@[simp] theorem places_anyOf (es : List (Expr π)) : (anyOf es).places = placesAll es := by
  rcases es with _ | ⟨e, _ | ⟨e', es⟩⟩
  · rfl
  · simp [anyOf, placesAll]
  · rfl

theorem placesAll_map {f : π → ρ} {es : List (Expr π)} (h : ∀ e ∈ es, (e.map f).places = e.places) :
    placesAll (mapAll f es) = placesAll es := by
  rw [mapAll_eq, placesAll_eq, placesAll_eq, List.flatMap_map]
  exact List.flatMap_congr h

/-- What stands at the placeholders makes no difference. -/
theorem places_map (f : π → ρ) (e : Expr π) : (e.map f).places = e.places := by
  induction e using induct with
  | all es ih => exact placesAll_map ih
  | any es ih => exact placesAll_map ih
  | not e ih => exact ih
  | binary l op r ihl ihr => rw [map, places, ihl, ihr, places]
  | isIn l es ihl ih => rw [map, places, ihl, placesAll_map ih, places]
  | test e t ih => exact ih
  | call g es ih => exact placesAll_map ih
  | array es ih => exact placesAll_map ih
  | column c => rfl
  | path e steps asText ih => rw [map, places, ih, places]
  | cases c y n ihc ihy ihn => rw [map, places, ihc, ihy, ihn, places]
  | object row fields ih =>
      rw [map, places, mapFields_eq, placesFields_eq, List.flatMap_map, places, placesFields_eq]
      exact List.flatMap_congr ih
  | cast e type ih => exact ih
  | constant c => rfl
  | bound p => rfl

/-- Expressions with the same text read the same places. -/
theorem places_eq_of_sql_eq {e d : Expr Placeholder} (he : e.WellFormed) (hd : d.WellFormed)
    (h : e.sql = d.sql) : e.places = d.places := by
  have hmap : e.map Placeholder.index = d.map Placeholder.index :=
    eq_of_chars_eq ((wellFormed_map _ e).mpr he) ((wellFormed_map _ d).mpr hd)
      (String.ofList_injective h)
  rw [← places_map Placeholder.index e, hmap, places_map]

end Expr

/-! ### The fields of a selector -/

/-- How often the condition of a list reads its field: nothing is compared with an empty list. -/
def listReads : Json → Nat
  | .arr [] => 0
  | _ => 1

mutual

/-- How often the condition of an operator reads its field. -/
def operatorReads (name : String) (v : Json) : Nat :=
  if name = "$not" then
    match v with
    | .obj entries => operatorsReads entries
    | _ => 0
  else if name = "$in" ∨ name = "$nin" ∨ name = "$all" then listReads v
  else 1

def operatorsReads : List (String × Json) → Nat
  | [] => 0
  | (name, v) :: rest => operatorReads name v + operatorsReads rest

end

/-- How often the condition behind a field reads it. -/
def fieldReads : Json → Nat
  | .obj entries => if isOperatorObject entries then operatorsReads entries else 1
  | _ => 1

mutual

/-- The fields that the condition of an entry reads, in order. -/
def entryFields (key : String) (v : Json) : List String :=
  if key = "$and" ∨ key = "$or" then
    match v with
    | .arr items => filtersFields items
    | .obj es => entriesFields es
    | _ => []
  else if key = "$comment" then []
  else List.replicate (fieldReads v) key

/-- The fields that a filter reads, entry by entry. -/
def entriesFields : List (String × Json) → List String
  | [] => []
  | (key, v) :: rest => entryFields key v ++ entriesFields rest

def filtersFields : List Json → List String
  | [] => []
  | v :: rest =>
    (match v with
      | .obj es => entriesFields es
      | _ => []) ++ filtersFields rest

end

/-- The place of a field. -/
def Target.place (t : Target) (field : String) : Place :=
  (t.ref (FieldPath.split field).column, (FieldPath.split field).steps)

/-! ### Operators -/

namespace Inline

section operand

variable (o : Operand)

theorem places_right (v : Json) : (right o v).places = [] := by
  unfold right
  split
  · rfl
  · split <;> rfl

theorem places_item (v : Json) : (item o v).places = [] := by
  unfold item
  split <;> rfl

theorem placesAll_of_forall {f : Json → Expr Param} (hf : ∀ v, (f v).places = []) (vs : List Json) :
    Expr.placesAll (vs.map f) = [] := by
  rw [Expr.placesAll_eq, List.flatMap_eq_nil_iff, List.forall_mem_map]
  exact fun v _ => hf v

variable {o} {c : ColumnRef} (ho : o.expr = .column c)
include ho

theorem places_left (v : Json) : (left o v).places = [(c, o.steps)] := by
  rw [left, Expr.places_map]
  have hplace : (if o.isPlain then o.expr else o.extracted v).places = [(c, o.steps)] := by
    split
    · rename_i hplain
      rw [ho, List.isEmpty_iff.mp hplain, Expr.places]
    · unfold Operand.extracted
      rw [ho]
      cases v <;> rfl
  unfold Operand.left
  dsimp only
  split
  · rw [Operand.lower, Expr.places, Expr.placesAll, hplace]
    rfl
  · exact hplace

theorem places_binary (v : Json) (op : BinaryOp) {r : Expr Param} (hr : r.places = []) :
    (Expr.binary (left o v) op r).places = [(c, o.steps)] := by
  rw [Expr.places, places_left ho, hr]
  rfl

theorem places_equals (v : Json) : (equals o v).places = [(c, o.steps)] := by
  have other : (if o.isArray && !v.isArray then
      Expr.binary (left o v) .contains (.array [item o v])
      else .binary (left o v) .eq (right o v)).places = [(c, o.steps)] := by
    split
    · exact places_binary ho v _ (placesAll_of_forall (places_item o) [v])
    · exact places_binary ho v _ (places_right o v)
  cases v with
  | null => exact places_left ho _
  | bool b => cases b <;> exact places_left ho _
  | int n => exact other
  | float x => exact other
  | str s => exact other
  | arr items => exact other
  | obj entries => exact other

theorem places_notEquals (v : Json) : (notEquals o v).places = [(c, o.steps)] := by
  have other : (if o.isArray && !v.isArray then Expr.not (equals o v)
      else .binary (left o v) (if o.isNullable then .distinctFrom else .ne)
        (right o v)).places = [(c, o.steps)] := by
    split
    · exact places_equals ho v
    · exact places_binary ho v _ (places_right o v)
  cases v with
  | null => exact places_left ho _
  | bool b => cases b <;> exact places_left ho _
  | int n => exact other
  | float x => exact other
  | str s => exact other
  | arr items => exact other
  | obj entries => exact other

theorem places_isOneOf (first : Json) (rest : List Json) :
    (isOneOf o first rest).places = [(c, o.steps)] := by
  unfold isOneOf
  split
  · exact places_binary ho first _ (placesAll_of_forall (places_item o) (first :: rest))
  · rw [Expr.places, places_left ho, placesAll_of_forall (places_right o)]
    rfl

theorem compare_yields (name : String) (op : BinaryOp) (v : Json) :
    Yields Expr.places (compare o name op v) [(c, o.steps)] := by
  have single : Yields Expr.places (.ok (.binary (left o v) op (right o v))) [(c, o.steps)] :=
    Yields.ok (places_binary ho v op (places_right o v))
  cases v with
  | bool b => exact single
  | int n => exact single
  | float x => exact single
  | str s => exact single
  | null => exact Yields.error _ _
  | arr items => exact Yields.error _ _
  | obj entries => exact Yields.error _ _

theorem isIn_yields (v : Json) :
    Yields Expr.places (isIn o v) (List.replicate (listReads v) (c, o.steps)) := by
  cases v with
  | arr items =>
      cases items with
      | nil => exact Yields.ok rfl
      | cons first rest => exact Yields.ok (places_isOneOf ho first rest)
  | null => exact Yields.error _ _
  | bool b => exact Yields.error _ _
  | int n => exact Yields.error _ _
  | float x => exact Yields.error _ _
  | str s => exact Yields.error _ _
  | obj entries => exact Yields.error _ _

theorem isNotIn_yields (v : Json) :
    Yields Expr.places (isNotIn o v) (List.replicate (listReads v) (c, o.steps)) := by
  cases v with
  | arr items =>
      cases items with
      | nil => exact Yields.ok rfl
      | cons first rest => exact Yields.ok (places_isOneOf ho first rest)
  | null => exact Yields.error _ _
  | bool b => exact Yields.error _ _
  | int n => exact Yields.error _ _
  | float x => exact Yields.error _ _
  | str s => exact Yields.error _ _
  | obj entries => exact Yields.error _ _

theorem containsAll_yields (v : Json) :
    Yields Expr.places (containsAll o v) (List.replicate (listReads v) (c, o.steps)) := by
  cases v with
  | arr values =>
      simp only [containsAll]
      split
      · exact Yields.error _ _
      · cases values with
        | nil => exact Yields.ok rfl
        | cons v vs =>
            rw [List.isEmpty_cons, if_neg Bool.false_ne_true]
            split
            · exact Yields.ok (places_binary ho _ _ (placesAll_of_forall (places_item o) _))
            · exact Yields.ok (places_binary ho _ _ (places_right o _))
  | null => exact Yields.error _ _
  | bool b => exact Yields.error _ _
  | int n => exact Yields.error _ _
  | float x => exact Yields.error _ _
  | str s => exact Yields.error _ _
  | obj entries => exact Yields.error _ _

theorem exists?_yields (v : Json) : Yields Expr.places (exists? o v) [(c, o.steps)] := by
  cases v with
  | bool b => exact Yields.ok (places_left ho .null)
  | null => exact Yields.error _ _
  | int n => exact Yields.error _ _
  | float x => exact Yields.error _ _
  | str s => exact Yields.error _ _
  | arr items => exact Yields.error _ _
  | obj entries => exact Yields.error _ _

theorem hasSize_yields (v : Json) : Yields Expr.places (hasSize o v) [(c, o.steps)] := by
  unfold hasSize
  split
  · exact Yields.error _ _
  · rename_i harray
    have hsteps : o.steps = [] := by
      rw [Bool.not_eq_true', Bool.not_eq_false, Operand.isArray, Bool.and_eq_true] at harray
      exact List.isEmpty_iff.mp harray.1
    cases v with
    | int n =>
        dsimp only
        split
        · apply Yields.ok
          simp [Expr.places, Expr.placesAll, Expr.map, ho, hsteps, places_right]
        · exact Yields.error _ _
    | null => exact Yields.error _ _
    | bool b => exact Yields.error _ _
    | float x => exact Yields.error _ _
    | str s => exact Yields.error _ _
    | arr items => exact Yields.error _ _
    | obj entries => exact Yields.error _ _

omit ho in
theorem operators_yields_of {p : Place} {entries : List (String × Json)}
    (h : ∀ k ∈ entries, ∀ name,
      Yields Expr.places (operator o name k.2) (List.replicate (operatorReads name k.2) p)) :
    Yields Expr.placesAll (operators o entries) (List.replicate (operatorsReads entries) p) := by
  induction entries with
  | nil =>
      unfold operators operatorsReads
      exact Yields.ok rfl
  | cons k entries ih =>
      rw [List.forall_mem_cons] at h
      unfold operators operatorsReads
      rw [← List.replicate_append_replicate]
      exact Yields.both (h.1 k.1) (ih h.2) List.cons fun e es => rfl

/-- An operator, given what the operators inside a negation read. -/
theorem operator_yields_of (v : Json) (hn : ∀ entries, v = .obj entries →
      Yields Expr.placesAll (operators o entries)
        (List.replicate (operatorsReads entries) (c, o.steps)))
    (name : String) : Yields Expr.places (operator o name v)
      (List.replicate (operatorReads name v) (c, o.steps)) := by
  refine operator_cases o (P := fun name y => Yields Expr.places y
      (List.replicate (operatorReads name v) (c, o.steps)))
    ?eq ?ne ?lt ?lte ?gt ?gte ?isIn ?isNotIn ?containsAll ?exists? ?negation ?hasSize
    (fun name => Yields.error _ _) name
  all_goals unfold operatorReads
  case eq => exact Yields.ok (places_equals ho v)
  case ne => exact Yields.ok (places_notEquals ho v)
  case lt => exact compare_yields ho "$lt" .lt v
  case lte => exact compare_yields ho "$lte" .le v
  case gt => exact compare_yields ho "$gt" .gt v
  case gte => exact compare_yields ho "$gte" .ge v
  case isIn => exact isIn_yields ho v
  case isNotIn => exact isNotIn_yields ho v
  case containsAll => exact containsAll_yields ho v
  case exists? => exact exists?_yields ho v
  case negation =>
    refine negation_yields o Expr.places_allOf ?_
    rintro entries rfl
    exact hn entries rfl
  case hasSize => exact hasSize_yields ho v

/-- What an operator reads, by induction over its operand: a negation goes on with the operators
inside. -/
theorem operator_yields (v : Json) (name : String) : Yields Expr.places (operator o name v)
    (List.replicate (operatorReads name v) (c, o.steps)) := by
  induction v using Json.operand_induct generalizing name with
  | other v hv => exact operator_yields_of ho v (fun entries h => absurd h (hv entries)) name
  | obj entries ih =>
      refine operator_yields_of ho _ ?_ name
      rintro entries' ⟨⟩
      exact operators_yields_of ih

end operand

/-! ### Filters -/

section filter

variable {t : Target}

theorem steps_ofField {key : String} {o : Operand} (h : Operand.ofField t key = .ok o) :
    o.steps = (FieldPath.split key).steps := by
  unfold Operand.ofField at h
  dsimp only at h
  split at h
  · cases h
  · split at h
    · cases h
    · cases h
      rfl

theorem field_yields (key : String) (v : Json) :
    Yields Expr.places (field t key v) (List.replicate (fieldReads v) (t.place key)) := by
  unfold field
  cases hoperand : Operand.ofField t key with
  | error e => exact Yields.error e _
  | ok o =>
      have ho := Operand.expr_ofField hoperand
      have hplace : t.place key = (t.ref (firstSegment key), o.steps) := by
        rw [Target.place, FieldPath.column_split, steps_ofField hoperand]
      have hequals : Yields Expr.places (.ok (equals o v)) [t.place key] := by
        rw [hplace]
        exact Yields.ok (places_equals ho v)
      cases v with
      | obj entries =>
          show Yields Expr.places (if isOperatorObject entries then _ else _)
            (List.replicate (if isOperatorObject entries then _ else _) _)
          split
          · rw [hplace]
            exact Yields.map (operators_yields_of fun k _ => operator_yields ho k.2) Expr.allOf
              Expr.places_allOf
          · exact hequals
      | null => exact hequals
      | bool b => exact hequals
      | int n => exact hequals
      | float x => exact hequals
      | str s => exact hequals
      | arr items => exact hequals

/-- The places of the condition of an entry, if it has one. -/
def entryPlaces (e : Option (Expr Param)) : List Place := Expr.placesAll e.toList

/-- The condition of an entry, or none, reads the fields of the entry. -/
def EntryYields (t : Target) (v : Json) : Prop :=
  ∀ key, Yields entryPlaces (entry t key v) ((entryFields key v).map t.place)

theorem entries_yields_of {es : List (String × Json)} (h : ∀ k ∈ es, EntryYields t k.2) :
    Yields Expr.placesAll (entries t es) ((entriesFields es).map t.place) := by
  induction es with
  | nil =>
      unfold entries entriesFields
      exact Yields.ok rfl
  | cons k es ih =>
      rw [List.forall_mem_cons] at h
      unfold entries entriesFields
      rw [List.map_append]
      exact Yields.both (h.1 k.1) (ih h.2) (fun e es => e.toList ++ es) fun e es =>
        Expr.placesAll_append e.toList es

theorem singles_yields_of {es : List (String × Json)} (h : ∀ k ∈ es, EntryYields t k.2) :
    Yields Expr.placesAll (singles t es) ((entriesFields es).map t.place) := by
  induction es with
  | nil =>
      unfold singles entriesFields
      exact Yields.ok rfl
  | cons k es ih =>
      rw [List.forall_mem_cons] at h
      unfold singles entriesFields
      rw [List.map_append]
      refine Yields.both (h.1 k.1) (ih h.2) (fun e es => Expr.allOf e.toList :: es) fun e es => ?_
      rw [Expr.placesAll, Expr.places_allOf, entryPlaces]

theorem filters_yields_of (connective : String) {items : List Json}
    (h : ∀ j ∈ items, ∀ es, j = .obj es → ∀ k ∈ es, EntryYields t k.2) :
    Yields Expr.placesAll (filters t connective items) ((filtersFields items).map t.place) := by
  induction items with
  | nil =>
      unfold filters filtersFields
      exact Yields.ok rfl
  | cons j items ih =>
      rw [List.forall_mem_cons] at h
      unfold filters filtersFields
      cases j with
      | obj es =>
          rw [List.map_append]
          refine Yields.both (entries_yields_of (h.1 es rfl)) (ih h.2)
            (fun cs fs => Expr.allOf cs :: fs) fun cs fs => ?_
          rw [Expr.placesAll, Expr.places_allOf]
      | null => exact Yields.error _ _
      | bool b => exact Yields.error _ _
      | int n => exact Yields.error _ _
      | float x => exact Yields.error _ _
      | str s => exact Yields.error _ _
      | arr items => exact Yields.error _ _

/-- The fields of what a connective combines. -/
def operandsFields : Json → List String
  | .arr items => filtersFields items
  | .obj es => entriesFields es
  | _ => []

theorem entryFields_eq (key : String) (v : Json) : entryFields key v =
    if key = "$and" ∨ key = "$or" then operandsFields v
    else if key = "$comment" then []
    else List.replicate (fieldReads v) key := by
  cases v <;> (unfold entryFields; rfl)

/-- An entry, given what the filters of a connective read. -/
theorem entry_yields_of {key : String} {v : Json}
    (h : Yields Expr.placesAll (t.inlineOperands key v) ((operandsFields v).map t.place)) :
    Yields entryPlaces (entry t key v) ((entryFields key v).map t.place) := by
  rw [Target.inline_entry_eq, entryFields_eq]
  split
  · refine Yields.map h
      (fun fs => some (if key = "$and" then Expr.allOf fs else Expr.anyOf fs)) fun fs => ?_
    split <;> simp [entryPlaces, Expr.placesAll]
  · split
    · exact Yields.ok rfl
    · split
      · exact Yields.error _ _
      · rw [List.map_replicate]
        refine Yields.map (field_yields key v) some fun e => ?_
        simp [entryPlaces, Expr.placesAll]

/-- What an entry reads, by induction over its value: a connective takes an array of objects, or an
object, whose entries are entries again. -/
theorem entry_yields (v : Json) : EntryYields t v := by
  induction v using Json.filter_induct with
  | scalar v hv =>
      intro key
      apply entry_yields_of
      rw [Target.inlineOperands_of_scalar hv]
      exact Yields.error _ _
  | arr items ih => exact fun key => entry_yields_of (filters_yields_of key ih)
  | obj es ih => exact fun key => entry_yields_of (singles_yields_of ih)

end filter

end Inline

namespace Target

/-- The places that a selector reads are those of the fields in it, in the order of the document. -/
theorem places_selector {t : Target} {s : Selector} {args args' : Arguments} {e : Expr Placeholder}
    (h : t.selector s args = .ok e args') : e.places = (entriesFields s.entries).map t.place := by
  have hentries : Yields Expr.placesAll (Inline.entries t s.entries)
      ((entriesFields s.entries).map t.place) :=
    Inline.entries_yields_of fun k _ => Inline.entry_yields k.2
  have hfilter : Yields Expr.places (Inline.filter t s.entries)
      ((entriesFields s.entries).map t.place) :=
    Yields.map hentries Expr.allOf Expr.places_allOf
  rw [← Expr.places_map Placeholder.value]
  exact hfilter _ (inline_of_filter h).1

theorem eq_of_ref_eq {t t' : Target} {a b : String} (h : t.ref a = t'.ref b) : a = b := by
  unfold ref at h
  cases hlabel : t.label with
  | none =>
      cases hlabel' : t'.label with
      | none =>
          rw [hlabel, hlabel'] at h
          exact ColumnRef.bare.inj h
      | some label' =>
          rw [hlabel, hlabel'] at h
          cases h
  | some label =>
      cases hlabel' : t'.label with
      | none =>
          rw [hlabel, hlabel'] at h
          cases h
      | some label' =>
          rw [hlabel, hlabel'] at h
          exact (ColumnRef.qualified.inj h).2

/-- Fields with the same place have the same path. -/
theorem split_eq_of_place_eq {t t' : Target} {f g : String} (h : t.place f = t'.place g) :
    FieldPath.split f = FieldPath.split g := by
  obtain ⟨href, hsteps⟩ := Prod.mk.inj h
  rw [FieldPath.mk.injEq]
  exact ⟨eq_of_ref_eq href, hsteps⟩

/-- Selectors that become the same text read fields with the same paths. -/
theorem map_split_eq_of_sql_eq {t t' : Target} {s s' : Selector} {args args' w w' : Arguments}
    {e d : Expr Placeholder} (he : t.selector s args = .ok e w)
    (hd : t'.selector s' args' = .ok d w') (h : e.sql = d.sql) :
    (entriesFields s.entries).map FieldPath.split =
      (entriesFields s'.entries).map FieldPath.split := by
  have hplaces := Expr.places_eq_of_sql_eq (selector_wellFormed he) (selector_wellFormed hd) h
  rw [places_selector he, places_selector hd] at hplaces
  refine List.ext_getElem? fun n => ?_
  have hn := congrArg (·[n]?) hplaces
  simp only [List.getElem?_map] at hn ⊢
  cases hf : (entriesFields s.entries)[n]? with
  | none =>
      rw [hf, Option.map_none] at hn
      rw [Option.map_none, Option.map_eq_none_iff.mp hn.symm, Option.map_none]
  | some f =>
      rw [hf, Option.map_some] at hn
      obtain ⟨g, hg, hplace⟩ := Option.map_eq_some_iff.mp hn.symm
      rw [hg, Option.map_some, Option.map_some, split_eq_of_place_eq hplace]

end Target

theorem entriesFields_single {f : String} (h : isOperatorName f = false) (v : Json) :
    entriesFields [(f, v)] = List.replicate (fieldReads v) f := by
  have hf (key : String) (hkey : isOperatorName key = true) : f ≠ key := by
    rintro rfl
    rw [h] at hkey
    cases hkey
  have hand := hf "$and" (by decide)
  have hor := hf "$or" (by decide)
  have hcomment := hf "$comment" (by decide)
  rw [entriesFields, entriesFields, Inline.entryFields_eq, List.append_nil]
  simp [hand, hor, hcomment]

/-! ### Elements of indexes -/

theorem Around.places_eq {place e : Expr Placeholder} (h : Around place e) :
    e.places = place.places := by
  induction h with
  | place => rfl
  | text _ ih => exact ih
  | coalesce _ ih =>
      rw [Expr.places, Expr.placesAll, ih]
      exact List.append_nil _
  | lower _ ih =>
      rw [Expr.places, Expr.placesAll, ih]
      exact List.append_nil _

namespace TableIndex

theorem places_element {t : NamedTable} {options : IndexOptions} {field : String}
    {e : Expr Placeholder} (h : element t options field = .ok e) :
    e.places = [Target.place ⟨t, none, false⟩ field] := by
  obtain ⟨c, hc, hjson⟩ := hasField_of_element h
  rw [element_eq hc hjson] at h
  injection h with h
  rw [← h, (around_lowered (around_guarded .place _ _) _ _).places_eq]
  unfold place Target.place
  dsimp only
  split
  · rename_i hsteps
    rw [List.isEmpty_iff.mp hsteps]
    rfl
  · rfl

end TableIndex

/-! ### Names and what they lead to -/

/-- **Names of fields and their paths.**  A name is written back from its column and its steps
exactly if every position in it is written in the shortest way, and what is written back always has
the same path.  So names that differ when they are written back have different paths.  Selectors
with the same text read, in order, fields with the same paths: if one reads a single field, the
other one does not read a field with another path.  Neither do elements of indexes. -/
theorem FieldPath.split_names :
    (∀ f, (FieldPath.split f).text = f ↔ Canonical f) ∧
    (∀ f, FieldPath.split (FieldPath.split f).text = FieldPath.split f) ∧
    (∀ f g, FieldPath.split f = FieldPath.split g ↔
      (FieldPath.split f).text = (FieldPath.split g).text) ∧
    (∀ f g, Canonical f → Canonical g → f ≠ g → FieldPath.split f ≠ FieldPath.split g) ∧
    (∀ (t t' : Target) s s' args args' e d w w', t.selector s args = .ok e w →
      t'.selector s' args' = .ok d w' → e.sql = d.sql →
        (entriesFields s.entries).map FieldPath.split =
          (entriesFields s'.entries).map FieldPath.split) ∧
    (∀ (t t' : Target) f g v v' args args' e d w w', isOperatorName f = false →
      isOperatorName g = false → t.selector (.filter [(f, v)]) args = .ok e w →
      t'.selector (.filter [(g, v')]) args' = .ok d w' → e.sql = d.sql →
        FieldPath.split f = FieldPath.split g ∨ e.places = []) ∧
    (∀ t t' options options' f g e d, TableIndex.element t options f = .ok e →
      TableIndex.element t' options' g = .ok d → e.sql = d.sql →
        FieldPath.split f = FieldPath.split g) := by
  refine ⟨text_split_eq_iff, split_text_split, split_eq_split_iff, fun f g hf hg hne h => ?_,
    fun t t' s s' args args' e d w w' => Target.map_split_eq_of_sql_eq, ?_, ?_⟩
  · rw [split_eq_split_iff, (text_split_eq_iff f).mpr hf, (text_split_eq_iff g).mpr hg] at h
    exact hne h
  · intro t t' f g v v' args args' e d w w' hf hg he hd h
    have hfields : (entriesFields [(f, v)]).map FieldPath.split =
        (entriesFields [(g, v')]).map FieldPath.split := Target.map_split_eq_of_sql_eq he hd h
    rw [entriesFields_single hf, entriesFields_single hg, List.map_replicate, List.map_replicate,
      List.replicate_inj] at hfields
    refine hfields.2.symm.imp_right fun hzero => ?_
    rw [Target.places_selector he, Selector.entries, entriesFields_single hf, hzero]
    rfl
  · intro t t' options options' f g e d he hd h
    have hplaces := Expr.places_eq_of_sql_eq (TableIndex.element_wellFormed he)
      (TableIndex.element_wellFormed hd) h
    rw [TableIndex.places_element he, TableIndex.places_element hd] at hplaces
    exact Target.split_eq_of_place_eq (List.cons.inj hplaces).1

/-- A position behind a plus sign is the same position: the name is not written back, and selectors
on the two names become the same.  With an empty list, so do selectors on any two fields. -/
theorem FieldPath.split_names_padded :
    "data.+1" ≠ "data.1" ∧ FieldPath.split "data.+1" = FieldPath.split "data.1" ∧
    (FieldPath.split "data.+1").text ≠ "data.+1" ∧
    Sample.catalogue.selector (.filter [("data.+1", .int 3)]) .empty =
      Sample.catalogue.selector (.filter [("data.1", .int 3)]) .empty ∧
    Sample.catalogue.selector (.filter [("title", .obj [("$in", .arr [])])]) .empty =
      Sample.catalogue.selector (.filter [("score", .obj [("$in", .arr [])])]) .empty := by
  have hsplit : FieldPath.split "data.+1" = FieldPath.split "data.1" := by decide
  refine ⟨by decide, hsplit, ?_, rfl, rfl⟩
  rw [hsplit]
  decide

/-- A number that is too large for a position is a key, so that it keeps its zeros. -/
theorem FieldPath.split_names_sample :
    (FieldPath.split "data.07777777777.0").text = "data.07777777777.0" ∧
    FieldPath.split "data.k" ≠ FieldPath.split "data.0" ∧
    (∃ e d w w', Sample.catalogue.selector (.filter [("data.k", .int 3)]) .empty = .ok e w ∧
      Sample.catalogue.selector (.filter [("data.0", .int 3)]) .empty = .ok d w' ∧
      e.sql ≠ d.sql) ∧
    ∃ e d, TableIndex.element Sample.catalogue.table .default "data.k" = .ok e ∧
      TableIndex.element Sample.catalogue.table .default "data.0" = .ok d ∧
      e.sql ≠ d.sql := by
  obtain ⟨hback, -, -, hother, -, hselector, helement⟩ := FieldPath.split_names
  have hne : FieldPath.split "data.k" ≠ FieldPath.split "data.0" :=
    hother _ _ (by decide) (by decide) (by decide)
  refine ⟨(hback _).mpr (by decide), hne, ⟨_, _, _, _, rfl, rfl, fun h => ?_⟩,
    ⟨_, _, rfl, rfl, fun h => ?_⟩⟩
  · rcases hselector Sample.catalogue Sample.catalogue "data.k" "data.0" (.int 3) (.int 3) .empty
      .empty _ _ _ _ (by decide) (by decide) rfl rfl h with hsplit | hnone
    · exact hne hsplit
    · cases hnone
  · exact hne (helement Sample.catalogue.table Sample.catalogue.table .default
      .default _ _ _ _ rfl rfl h)

end ShapedQuery
