import ShapedQuery.Proofs.Assembly

/-! # Where readers find what they give

A reader that succeeds took what it gives from the parts of the document (`Doc.parts`).  This module
says so once for lists, maps and records (`Doc.mem_of_list`, `Doc.mem_of_entries`,
`Doc.mem_of_sorted`, `Doc.record_from`).  A record may be written as an object or an array; either
way each of its slots that is filled was read from one of the parts (`Fields.From`). -/

namespace ShapedQuery

/-! ### Successful readings -/

section read

variable {α β : Type}

theorem Read.bind_eq_ok {x : Read α} {f : α → Read β} {b : β} :
    (x >>= f) = .ok b ↔ ∃ a, x = .ok a ∧ f a = .ok b := by
  cases x <;> simp [bind, Except.bind]

theorem Read.of_ite_eq_ok {p : Prop} [Decidable p] {x y : Read α} {a : α}
    (h : (if p then x else y) = .ok a) : x = .ok a ∨ y = .ok a := by
  by_cases hp : p
  · rw [if_pos hp] at h
    exact .inl h
  · rw [if_neg hp] at h
    exact .inr h

theorem Read.map_eq_ok {x : Read α} {f : α → β} {b : β} :
    x.map f = .ok b ↔ ∃ a, x = .ok a ∧ f a = b := by
  cases x <;> simp [Except.map]

theorem Read.placed_eq_ok {x : Read α} {line : Nat} {a : α} :
    Read.placed line x = .ok a ↔ x = .ok a := by
  cases x <;> simp [Read.placed, Except.mapError]

theorem required_eq_ok {line : Nat} {o : Option α} {a : α} :
    required line o = .ok a ↔ o = some a := by
  cases o <;> simp [required]

theorem Doc.optional_eq_ok {read : Doc → Read α} {d : Doc} {o : Option α}
    (h : d.optional read = .ok o) : ∀ a, o = some a → read d = .ok a := by
  rintro a rfl
  unfold Doc.optional at h
  split at h
  · cases h
  · obtain ⟨a', ha, heq⟩ := Read.map_eq_ok.mp h
    cases heq
    exact ha

theorem Doc.parse_eq_ok {read : Doc → Read α} {text : String} {a : α} :
    Doc.parse read text = .ok a ↔
      read (Reading.ofText text).doc = .ok a ∧ (Reading.ofText text).trailing = none := by
  cases hread : read (Reading.ofText text).doc with
  | error f => simp [Doc.parse, hread]
  | ok a' =>
      cases htrailing : (Reading.ofText text).trailing with
      | none => simp [Doc.parse, hread, htrailing]
      | some line => simp [Doc.parse, hread, htrailing]

end read

/-! ### Parts of a document -/

/-- The values of the items. -/
def Items.docs : Items → List Doc
  | .cons value _ rest => value :: rest.docs
  | _ => []

/-- The values of the members. -/
def Members.docs : Members → List Doc
  | .cons _ _ value _ rest => value :: rest.docs
  | _ => []

namespace Doc

/-- The values right inside a container. -/
def parts : Doc → List Doc
  | .arr _ items => items.docs
  | .obj _ members => members.docs
  | _ => []

end Doc

theorem Items.bounds_of_mem {e : Doc} : ∀ {items : Items}, e ∈ items.docs →
    e.depth ≤ items.depth ∧ (items.Whole → e.Whole)
  | .closed _, h => by cases h
  | .broken _, h => by cases h
  | .cons value after rest, h => by
      rcases List.mem_cons.mp h with rfl | h
      · exact ⟨Nat.le_max_left _ _, fun hwhole => hwhole.1⟩
      · obtain ⟨hdepth, hwhole⟩ := Items.bounds_of_mem h
        exact ⟨Nat.le_trans hdepth (Nat.le_max_right _ _), fun h => hwhole h.2⟩

theorem Members.bounds_of_mem {e : Doc} : ∀ {ms : Members}, e ∈ ms.docs →
    e.depth ≤ ms.depth ∧ (ms.Whole → e.Whole)
  | .closed _, h => by cases h
  | .broken _ _, h => by cases h
  | .cons key colon value after rest, h => by
      rcases List.mem_cons.mp h with rfl | h
      · exact ⟨Nat.le_max_left _ _, fun hwhole => hwhole.1⟩
      · obtain ⟨hdepth, hwhole⟩ := Members.bounds_of_mem h
        exact ⟨Nat.le_trans hdepth (Nat.le_max_right _ _), fun h => hwhole h.2⟩

theorem Doc.bounds_of_mem {d e : Doc} (h : e ∈ d.parts) :
    e.depth < d.depth ∧ (d.Whole → e.Whole) := by
  cases d with
  | arr line items =>
      obtain ⟨hdepth, hwhole⟩ := Items.bounds_of_mem h
      exact ⟨Nat.lt_succ_of_le hdepth, hwhole⟩
  | obj line members =>
      obtain ⟨hdepth, hwhole⟩ := Members.bounds_of_mem h
      exact ⟨Nat.lt_succ_of_le hdepth, hwhole⟩
  | _ => cases h

/-! ### Lists, maps and records -/

section containers

variable {α : Type} {read : Doc → Read α}

theorem Items.mem_of_list : ∀ {items : Items} {as : List α}, items.list read = .ok as →
    ∀ a ∈ as, ∃ e ∈ items.docs, read e = .ok a
  | .closed _, _, h => by
      cases h
      exact List.forall_mem_nil _
  | .broken _, _, h => by cases h
  | .cons value after rest, _, h => by
      rw [Items.list] at h
      cases hvalue : Read.placed after (read value) with
      | error f =>
          rw [hvalue] at h
          cases h
      | ok a =>
          rw [hvalue] at h
          cases hrest : rest.list read with
          | error f =>
              simp only [hrest] at h
              cases h
          | ok as =>
              simp only [hrest] at h
              cases h
              refine List.forall_mem_cons.mpr ⟨?_, fun a' ha' => ?_⟩
              · exact ⟨value, List.mem_cons_self, Read.placed_eq_ok.mp hvalue⟩
              · obtain ⟨e, he, hread⟩ := Items.mem_of_list hrest a' ha'
                exact ⟨e, List.mem_cons_of_mem _ he, hread⟩

/-- The items of a list are read from the parts. -/
theorem Doc.mem_of_list {d : Doc} {as : List α} (h : d.list read = .ok as) :
    0 < d.depth ∧ ∀ a ∈ as, ∃ e ∈ d.parts, read e = .ok a := by
  cases d with
  | arr line items => exact ⟨Nat.succ_pos _, Items.mem_of_list h⟩
  | _ => cases h

/-- The entries of a map are those before and some read from the values, whichever way they are
added. -/
theorem Members.mem_of_fold {add : Entries α → String → α → Read (Entries α)}
    (hadd : ∀ {done done' : Entries α} {key a}, add done key a = .ok done' →
      ∀ x ∈ done', x ∈ done ∨ x = (key, a)) :
    ∀ {ms : Members} {done es : Entries α}, ms.fold read add done = .ok es →
      ∀ x ∈ es, x ∈ done ∨ ∃ e ∈ ms.docs, read e = .ok x.2
  | .closed _, _, _, h => by
      cases h
      exact fun x hx => .inl hx
  | .broken _ _, _, _, h => by cases h
  | .cons (.error _) _ _ _ _, _, _, h => by cases h
  | .cons (.ok key) colon value after rest, done, es, h => by
      rw [Members.fold] at h
      cases hvalue : Read.placed after ((read value).bind (add done key)) with
      | error f =>
          simp only [hvalue] at h
          cases h
      | ok done' =>
          simp only [hvalue] at h
          obtain ⟨a, ha, hdone'⟩ := Read.bind_eq_ok.mp (Read.placed_eq_ok.mp hvalue)
          intro x hx
          rcases Members.mem_of_fold hadd h x hx with hx | ⟨e, he, hread⟩
          · rcases hadd hdone' x hx with hx | rfl
            · exact .inl hx
            · exact .inr ⟨value, List.mem_cons_self, ha⟩
          · exact .inr ⟨e, List.mem_cons_of_mem _ he, hread⟩

/-- The entries of a map have names of their own and are read from the parts. -/
theorem Doc.mem_of_entries {d : Doc} {es : Entries α} (h : d.entries read = .ok es) :
    0 < d.depth ∧ es.keys.Nodup ∧ ∀ x ∈ es, ∃ e ∈ d.parts, read e = .ok x.2 := by
  have hkeys := Doc.nodup_keys_entries h
  have hadd : ∀ {done done' : Entries α} {key : String} {a : α},
      (.ok (done.insert key a) : Read (Entries α)) = .ok done' →
        ∀ x ∈ done', x ∈ done ∨ x = (key, a) := by
    intro done done' key a hdone x hx
    cases hdone
    exact Entries.mem_of_mem_insert hx
  cases d with
  | obj line members =>
      refine ⟨Nat.succ_pos _, hkeys, fun x hx => ?_⟩
      exact (Members.mem_of_fold hadd h x hx).resolve_left List.not_mem_nil
  | _ => cases h

/-- The same for a map by increasing name. -/
theorem Doc.mem_of_sorted {d : Doc} {es : Entries α} (h : d.sorted read = .ok es) :
    0 < d.depth ∧ es.Increasing ∧ ∀ x ∈ es, ∃ e ∈ d.parts, read e = .ok x.2 := by
  have hadd : ∀ {done done' : Entries α} {key : String} {a : α},
      (.ok (done.insertSorted key a) : Read (Entries α)) = .ok done' →
        ∀ x ∈ done', x ∈ done ∨ x = (key, a) := by
    intro done done' key a hdone x hx
    cases hdone
    exact Entries.mem_of_mem_insertSorted hx
  cases d with
  | obj line members =>
      refine ⟨Nat.succ_pos _, ?_, fun x hx => ?_⟩
      · have hnil : Entries.Increasing ([] : Entries α) := List.Pairwise.nil
        refine Members.fold_keeps (P := Entries.Increasing) ?_ _ hnil h
        intro done key a done' hdone hadd
        cases hadd
        exact hdone.insertSorted key a
      · exact (Members.mem_of_fold hadd h x hx).resolve_left List.not_mem_nil
  | _ => cases h

theorem Doc.mem_of_single {d e : Doc} {key : String} (h : d.single = .ok (key, e)) :
    0 < d.depth ∧ e ∈ d.parts := by
  unfold Doc.single at h
  split at h
  · split at h
    · cases h
      exact ⟨Nat.succ_pos _, List.mem_cons_self⟩
    · cases h
  · cases h

end containers

/-- Every slot that is filled was read from one of the documents. -/
def Fields.From (docs : List Doc) : {αs : List Type} → Fields αs → Slots αs → Prop
  | _, .done, _ => True
  | _, .field _ read rest, slots =>
    (∀ a, slots.1 = some a → ∃ e ∈ docs, read e = .ok a) ∧ rest.From docs slots.2

theorem Fields.from_empty (docs : List Doc) : {αs : List Type} → (fields : Fields αs) →
    fields.From docs fields.empty
  | _, .done => trivial
  | _, .field _ _ rest => ⟨fun _ ha => (Option.some_ne_none _ ha.symm).elim, rest.from_empty docs⟩

/-- A member with the name of the first field is read into its slot, which was empty. -/
theorem Fields.put_own_eq_ok {α : Type} {αs : List Type} {name : String} {read : Doc → Read α}
    {rest : Fields αs} {colon : Nat} {value : Doc} {slot : Option α} {slots : Slots αs}
    {new : Slots (α :: αs)}
    (h : (Fields.field name read rest).put name colon value (slot, slots) = .ok new) :
    ∃ a, read value = .ok a ∧ new = (some a, slots) := by
  cases slot with
  | some a =>
      have herror : (Fields.field name read rest).put name colon value (some a, slots) =
          .error (.on colon) := if_pos rfl
      rw [herror] at h
      cases h
  | none =>
      rw [Fields.put_own] at h
      obtain ⟨a, ha, rfl⟩ := Read.map_eq_ok.mp h
      exact ⟨a, ha, rfl⟩

theorem Fields.From.put {docs : List Doc} {key : String} {colon : Nat} {value : Doc}
    (hvalue : value ∈ docs) : {αs : List Type} → {fields : Fields αs} → {old new : Slots αs} →
      fields.From docs old → fields.put key colon value old = .ok new → fields.From docs new
  | _, .done, _, _, _, _ => trivial
  | _, .field name read rest, (slot, slots), new, h, hput => by
      by_cases hkey : key = name
      · subst hkey
        obtain ⟨a, ha, rfl⟩ := Fields.put_own_eq_ok hput
        refine ⟨fun a' ha' => ?_, h.2⟩
        cases ha'
        exact ⟨value, hvalue, ha⟩
      · rw [Fields.put_other hkey] at hput
        obtain ⟨mid, hmid, rfl⟩ := Read.map_eq_ok.mp hput
        exact ⟨h.1, Fields.From.put hvalue h.2 hmid⟩

theorem Members.record_from {docs : List Doc} {αs : List Type} {fields : Fields αs} :
    ∀ {ms : Members} {old new : Slots αs} {line : Nat}, (∀ e ∈ ms.docs, e ∈ docs) →
      fields.From docs old → ms.record fields old = .ok (line, new) → fields.From docs new
  | .closed _, _, _, _, _, h, hrecord => by
      cases hrecord
      exact h
  | .broken _ _, _, _, _, _, _, hrecord => by cases hrecord
  | .cons (.error _) _ _ _ _, _, _, _, _, _, hrecord => by cases hrecord
  | .cons (.ok key) colon value after rest, old, _, _, hdocs, h, hrecord => by
      rw [Members.docs, List.forall_mem_cons] at hdocs
      rw [Members.record] at hrecord
      cases hput : Read.placed after (fields.put key colon value old) with
      | error f =>
          simp only [hput] at hrecord
          cases hrecord
      | ok mid =>
          simp only [hput] at hrecord
          have hmid := h.put hdocs.1 (Read.placed_eq_ok.mp hput)
          exact Members.record_from hdocs.2 hmid hrecord

theorem Items.record_from {docs : List Doc} : ∀ {αs : List Type} {fields : Fields αs}
    {items : Items} {slots : Slots αs} {line : Nat}, (∀ e ∈ items.docs, e ∈ docs) →
      Items.record fields items = .ok (line, slots) → fields.From docs slots
  | _, .done, _, _, _, _, _ => trivial
  | _, .field _ _ rest, .closed _, _, _, _, h => by
      cases h
      exact Fields.from_empty docs _
  | _, .field _ _ _, .broken _, _, _, _, h => by cases h
  | _, .field _ read rest, .cons value after items, _, _, hdocs, h => by
      rw [Items.docs, List.forall_mem_cons] at hdocs
      rw [Items.record] at h
      cases hvalue : Read.placed after (read value) with
      | error f =>
          simp only [hvalue] at h
          cases h
      | ok a =>
          simp only [hvalue] at h
          obtain ⟨⟨line', slots⟩, hrest, heq⟩ := Read.map_eq_ok.mp h
          cases heq
          refine ⟨fun a' ha' => ?_, Items.record_from hdocs.2 hrest⟩
          cases ha'
          exact ⟨value, hdocs.1, Read.placed_eq_ok.mp hvalue⟩

namespace Doc

variable {αs : List Type} {fields : Fields αs} {d : Doc} {line : Nat} {slots : Slots αs}

theorem object_from (h : d.object fields = .ok (line, slots)) :
    0 < d.depth ∧ fields.From d.parts slots := by
  cases d with
  | obj first members =>
      exact ⟨Nat.succ_pos _, Members.record_from (fun e he => he) (fields.from_empty _) h⟩
  | _ => cases h

/-- The fields of a record are read from the parts. -/
theorem record_from (h : d.record fields = .ok (line, slots)) :
    0 < d.depth ∧ fields.From d.parts slots := by
  cases d with
  | arr first items => exact ⟨Nat.succ_pos _, Items.record_from (fun e he => he) h⟩
  | obj first members => exact object_from h
  | _ => cases h

theorem recordIn_from {listed : Bool} (h : d.recordIn listed fields = .ok (line, slots)) :
    0 < d.depth ∧ fields.From d.parts slots := by
  cases listed with
  | false => exact object_from h
  | true => exact record_from h

end Doc

end ShapedQuery
