import ShapedQuery.Proofs.Assembly
import ShapedQuery.Proofs.Coverage

/-! # Reading from a document with losses

Of a value that is nested too deep the document shows only a part.  A reader needs all of a value
(`Needs`) if it refuses such a document: when it accepts a document that shows the value down to some
depth, the value is nested no deeper.

A reader of records passes over the keys that it does not know, so it needs a value only if every key
is one of its fields.  What is written for a typed value is of this kind, and so the text of a
configuration that is nested too deep is refused as a whole (`Configuration.needs`). -/

namespace ShapedQuery

section laws

variable {α β : Type} {read : Doc → Read α}

/-- If the reader accepts a document that shows the value down to some depth, then nothing was
lost. -/
def Needs (read : Doc → Read α) (j : Json) : Prop :=
  ∀ (k : Nat) (d : Doc) (a : α), d.ShowsTo k j → read d = .ok a → j.depth ≤ k

/-! ### Plain values and results -/

theorem needs_leaf {j : Json} (h : j.depth = 0) : Needs read j :=
  fun _ _ _ _ _ => h ▸ Nat.zero_le _

/-- A reader needs what it hands to a reader that needs it. -/
theorem Needs.of_reads {j : Json} {inner : Doc → Read β} (h : Needs inner j)
    (hread : ∀ d a, read d = .ok a → ∃ b, inner d = .ok b) : Needs read j := by
  intro k d a hd ha
  obtain ⟨b, hb⟩ := hread d a ha
  exact h k d b hd hb

theorem Needs.bind {j : Json} (h : Needs read j) (f : α → Read β) :
    Needs (fun d => read d >>= f) j := by
  refine h.of_reads fun d b hb => ?_
  obtain ⟨a, ha, -⟩ := Read.bind_eq_ok.mp hb
  exact ⟨a, ha⟩

theorem Needs.optional {j : Json} (h : Needs read j) : Needs (Doc.optional read) j := by
  intro k d o hd ho
  unfold Doc.optional at ho
  split at ho
  · cases hd with
    | leaf _ hdepth => exact hdepth ▸ Nat.zero_le _
  · obtain ⟨a, ha, -⟩ := Read.map_eq_ok.mp ho
    exact h _ _ _ hd ha

/-! ### Lists and maps -/

theorem Items.ShowsTo.needs_list {k : Nat} {items : Items} {js : List Json}
    (h : items.ShowsTo k js) (hneeds : ∀ j ∈ js, Needs read j) {as : List α}
    (hlist : items.list read = .ok as) : Json.depthItems js ≤ k := by
  induction js generalizing items as with
  | nil => exact Nat.zero_le _
  | cons j js ih =>
      cases h with
      | @cons _ value after rest _ _ hvalue hrest =>
          rw [List.forall_mem_cons] at hneeds
          rw [Items.list] at hlist
          split at hlist
          · cases hlist
          · rename_i a ha
            split at hlist
            · rename_i as' has'
              exact Nat.max_le.mpr
                ⟨hneeds.1 _ _ _ hvalue (Read.placed_eq_ok.mp ha), ih hrest hneeds.2 has'⟩
            · cases hlist

theorem Members.ShowsTo.needs_fold {k : Nat} {ms : Members} {es : List (String × Json)}
    (h : ms.ShowsTo k es) (hneeds : ∀ e ∈ es, Needs read e.2) {add : β → String → α → Read β}
    {done new : β} (hfold : ms.fold read add done = .ok new) : Json.depthEntries es ≤ k := by
  induction es generalizing ms done with
  | nil => exact Nat.zero_le _
  | cons e es ih =>
      cases h with
      | @cons _ key colon value after rest _ _ hvalue hrest =>
          rw [List.forall_mem_cons] at hneeds
          rw [Members.fold] at hfold
          split at hfold
          · rename_i done' hdone'
            obtain ⟨a, ha, -⟩ := Read.bind_eq_ok.mp (Read.placed_eq_ok.mp hdone')
            exact Nat.max_le.mpr ⟨hneeds.1 _ _ _ hvalue ha, ih hrest hneeds.2 hfold⟩
          · cases hfold

theorem needs_list {js : List Json} (h : ∀ j ∈ js, Needs read j) :
    Needs (Doc.list read) (.arr js) := by
  intro k d as hd hlist
  cases hd with
  | leaf _ hdepth => cases hdepth
  | arr hitems => exact Nat.succ_le_succ (hitems.needs_list h hlist)
  | lost => cases hlist

theorem needs_entries {es : List (String × Json)} (h : ∀ e ∈ es, Needs read e.2) :
    Needs (Doc.entries read) (.obj es) := by
  intro k d as hd hentries
  cases hd with
  | leaf _ hdepth => cases hdepth
  | obj hmembers => exact Nat.succ_le_succ (hmembers.needs_fold h hentries)
  | lost => cases hentries

theorem needs_sorted {es : List (String × Json)} (h : ∀ e ∈ es, Needs read e.2) :
    Needs (Doc.sorted read) (.obj es) := by
  intro k d as hd hsorted
  cases hd with
  | leaf _ hdepth => cases hdepth
  | obj hmembers => exact Nat.succ_le_succ (hmembers.needs_fold h hsorted)
  | lost => cases hsorted

/-- Any JSON value, by induction over it. -/
theorem needs_json (j : Json) : Needs Doc.json j := by
  induction j using Json.induct with
  | arr items ih =>
      intro k d j' hd hj'
      cases hd with
      | leaf _ hdepth => cases hdepth
      | arr hitems =>
          rw [Doc.json] at hj'
          split at hj'
          · rename_i js hjs
            exact Nat.succ_le_succ (hitems.needs_list ih (Items.list_of_jsons hjs))
          · cases hj'
      | lost => cases hj'
  | obj es ih =>
      intro k d j' hd hj'
      cases hd with
      | leaf _ hdepth => cases hdepth
      | obj hmembers =>
          rw [Doc.json] at hj'
          split at hj'
          · rename_i es' hes'
            exact Nat.succ_le_succ (hmembers.needs_fold ih (Members.fold_of_jsons hes'))
          · cases hj'
      | lost => cases hj'
  | _ => exact needs_leaf rfl

/-! ### Records -/

/-- The entry is read into one of the fields, and its reader needs the value. -/
def Fields.Needs (key : String) (j : Json) : {αs : List Type} → Fields αs → Prop
  | _, .done => False
  | _, .field name read rest =>
    if key = name then ShapedQuery.Needs read j else rest.Needs key j

theorem Fields.Needs.depth_le {key : String} {colon k : Nat} {value : Doc} {j : Json}
    (hvalue : value.ShowsTo k j) : {αs : List Type} → {fields : Fields αs} → {old new : Slots αs} →
      fields.Needs key j → fields.put key colon value old = .ok new → j.depth ≤ k
  | _, .done, _, _, h, _ => h.elim
  | _, .field name read rest, (slot, slots), _, h, hput => by
      rw [Fields.Needs] at h
      split at h
      · rename_i hkey
        subst hkey
        obtain ⟨a, ha, -⟩ := Fields.put_own_eq_ok hput
        exact h _ _ _ hvalue ha
      · rename_i hkey
        rw [Fields.put_other hkey] at hput
        obtain ⟨mid, hmid, -⟩ := Read.map_eq_ok.mp hput
        exact Fields.Needs.depth_le hvalue h hmid

theorem Members.ShowsTo.needs_record {αs : List Type} {fields : Fields αs} {k : Nat} {ms : Members}
    {es : List (String × Json)} (h : ms.ShowsTo k es) (hneeds : ∀ e ∈ es, fields.Needs e.1 e.2)
    {old : Slots αs} {new : Nat × Slots αs} (hrecord : ms.record fields old = .ok new) :
    Json.depthEntries es ≤ k := by
  induction es generalizing ms old with
  | nil => exact Nat.zero_le _
  | cons e es ih =>
      cases h with
      | @cons _ key colon value after rest _ _ hvalue hrest =>
          rw [List.forall_mem_cons] at hneeds
          rw [Members.record] at hrecord
          split at hrecord
          · rename_i slots hslots
            have hdepth := hneeds.1.depth_le hvalue (Read.placed_eq_ok.mp hslots)
            exact Nat.max_le.mpr ⟨hdepth, ih hrest hneeds.2 hrecord⟩
          · cases hrecord

theorem needs_record {αs : List Type} {fields : Fields αs} {es : List (String × Json)}
    (h : ∀ e ∈ es, fields.Needs e.1 e.2) : Needs (Doc.record fields) (.obj es) := by
  intro k d new hd hrecord
  cases hd with
  | leaf _ hdepth => cases hdepth
  | obj hmembers => exact Nat.succ_le_succ (hmembers.needs_record h hrecord)
  | lost => cases hrecord

end laws

/-! ### Indexes -/

theorem Collation.needs (c : Collation) : Needs read c.json := by
  refine Needs.bind (needs_record ?_) _
  simp only [List.forall_mem_cons]
  exact ⟨needs_leaf rfl, needs_leaf rfl, List.forall_mem_nil _⟩

theorem IndexOptions.needs (o : IndexOptions) : Needs read o.json := by
  refine Needs.bind (needs_record ?_) _
  simp only [List.forall_mem_append, List.forall_mem_singleton]
  refine ⟨⟨⟨needs_leaf rfl, ?_⟩, ?_⟩, needs_leaf rfl⟩
  · cases o.partialFilter with
    | none => exact List.forall_mem_nil _
    | some es =>
        rw [List.forall_mem_singleton]
        exact (needs_entries fun e _ => needs_json e.2).optional
  · cases o.collation with
    | none => exact List.forall_mem_nil _
    | some c =>
        rw [List.forall_mem_singleton]
        exact c.needs.optional

theorem IndexInfo.needs (i : IndexInfo) : Needs read i.json := by
  refine Needs.bind (needs_record ?_) _
  simp only [List.forall_mem_cons]
  refine ⟨needs_entries fun e he => ?_, i.options.needs, List.forall_mem_nil _⟩
  obtain ⟨x, -, rfl⟩ := List.mem_map.mp he
  exact needs_leaf rfl

/-! ### Fields -/

/-- Rules are read as JSON first. -/
theorem Permission.needs (j : Json) : Needs read j := by
  refine (needs_json j).of_reads fun d p h => ?_
  unfold read at h
  split at h
  · cases h
  · rename_i j' hj'
    exact ⟨j', hj'⟩

theorem Permission.needs_list (j : Json) : Needs (Doc.list read) j := by
  cases j with
  | arr js => exact ShapedQuery.needs_list fun j _ => Permission.needs j
  | obj es =>
      intro k d rules hd hlist
      cases hd with
      | leaf _ hdepth => cases hdepth
      | obj => cases hlist
      | lost => cases hlist
  | _ => exact needs_leaf rfl

/-- Members that are gathered have been read, as rules or as JSON. -/
theorem Field.needs_gather {k : Nat} {ms : Members} {es : List (String × Json)}
    (h : ms.ShowsTo k es) {done : Gathered} {new : Nat × Gathered}
    (hgather : gather ms done = .ok new) : Json.depthEntries es ≤ k := by
  induction es generalizing ms done with
  | nil => exact Nat.zero_le _
  | cons e es ih =>
      cases h with
      | @cons _ key colon value after rest j _ hvalue hrest =>
          rw [gather] at hgather
          refine Nat.max_le.mpr ?_
          split at hgather
          · split at hgather
            · cases hgather
            · split at hgather
              · rename_i rules hrules
                have hread := Read.placed_eq_ok.mp hrules
                exact ⟨Permission.needs_list j _ _ _ hvalue hread, ih hrest hgather⟩
              · cases hgather
          · split at hgather
            · rename_i j' hj'
              exact ⟨needs_json j _ _ _ hvalue hj', ih hrest hgather⟩
            · cases hgather

theorem Field.needs (f : Field) : Needs read f.json := by
  intro k d f' hd hread
  cases hd with
  | leaf _ hdepth => cases hdepth
  | obj hmembers =>
      rw [read] at hread
      split at hread
      · cases hread
      · rename_i hgather
        exact Nat.succ_le_succ (needs_gather hmembers hgather)
  | lost => cases hread

/-! ### Tables, fragments and the metadata -/

theorem Table.needs (t : Table) : Needs read t.json := by
  refine Needs.bind (needs_record ?_) _
  rw [List.forall_mem_cons]
  constructor
  · refine needs_entries fun e he => ?_
    obtain ⟨x, -, rfl⟩ := List.mem_map.mp he
    exact x.2.needs
  · cases t.indexes with
    | nil => exact List.forall_mem_nil _
    | cons i is =>
        rw [List.forall_mem_singleton]
        refine needs_list fun j hj => ?_
        obtain ⟨i', -, rfl⟩ := List.mem_map.mp hj
        exact i'.needs

theorem Selection.needs (j : Json) : Needs read j := by
  refine (needs_json j).of_reads fun d s h => ?_
  unfold read at h
  split at h
  · cases h
  · rename_i j' hj'
    exact ⟨j', hj'⟩

theorem Fragment.needs (f : Fragment) : Needs read f.json := by
  refine Needs.bind (needs_record ?_) _
  simp only [List.forall_mem_cons]
  exact ⟨needs_leaf rfl, needs_list fun j _ => Selection.needs j, List.forall_mem_nil _⟩

theorem Metadata.needs (m : Metadata) : Needs read m.json := by
  refine Needs.bind (needs_record ?_) _
  simp only [List.forall_mem_cons]
  refine ⟨needs_sorted fun e he => ?_, needs_sorted fun e he => ?_, List.forall_mem_nil _⟩
  · obtain ⟨x, -, rfl⟩ := List.mem_map.mp he
    exact x.2.needs
  · obtain ⟨x, -, rfl⟩ := List.mem_map.mp he
    exact x.2.needs

theorem Settings.needs (s : Settings) : Needs read s.json := by
  refine Needs.bind (needs_record ?_) _
  simp only [List.forall_mem_cons]
  exact ⟨needs_leaf rfl, needs_leaf rfl, List.forall_mem_nil _⟩

/-- A configuration that is nested too deep is refused. -/
theorem Configuration.needs (c : Configuration) : Needs read c.json := by
  refine Needs.bind (needs_record ?_) _
  simp only [List.forall_mem_cons]
  exact ⟨needs_leaf rfl, c.settings.needs, c.metadata.needs, List.forall_mem_nil _⟩

end ShapedQuery
