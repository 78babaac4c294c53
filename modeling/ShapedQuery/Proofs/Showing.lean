import ShapedQuery.Proofs.JsonShape
import ShapedQuery.Proofs.Keyed

/-! # Documents that show a value

A document shows a JSON value (`Doc.Shows`) if it is the value with lines added: the document that
is made from a value shows it, and so does the document of a text that spells it.

What a reader makes of such a document does not depend on the lines.  It accepts a JSON value as a
typed value (`Accepts`) if it reads this value from every document that shows the JSON value.  There
is one law for each way to put readers together; the law for records (`accepts_record`) says
slot by slot what must be found under the name of a field (`Fields.Fill`). -/

namespace ShapedQuery

/-! ### How deep a value is nested -/

namespace Json

mutual

/-- How deep arrays and objects are nested. -/
def depth : Json → Nat
  | .arr items => depthItems items + 1
  | .obj entries => depthEntries entries + 1
  | _ => 0

def depthItems : List Json → Nat
  | [] => 0
  | j :: js => max j.depth (depthItems js)

def depthEntries : List (String × Json) → Nat
  | [] => 0
  | (_, j) :: es => max j.depth (depthEntries es)

end

theorem depth_le_depthItems {items : List Json} {j : Json} (h : j ∈ items) :
    j.depth ≤ depthItems items := by
  induction items with
  | nil => cases h
  | cons j' items ih =>
      rw [depthItems]
      rcases List.mem_cons.mp h with rfl | h
      · exact Nat.le_max_left _ _
      · exact Nat.le_trans (ih h) (Nat.le_max_right _ _)

end Json

/-! ### Documents and values -/

mutual

/-- The document is the value, with lines. -/
inductive Doc.Shows : Doc → Json → Prop
  | null {line : Nat} : Doc.Shows (.null line) .null
  | bool {line : Nat} {b : Bool} : Doc.Shows (.bool line b) (.bool b)
  | int {line : Nat} {n : Int} : Doc.Shows (.int line n) (.int n)
  | float {line : Nat} {x : Double} : Doc.Shows (.float line x) (.float x)
  | str {line : Nat} {s : String} : Doc.Shows (.str line s) (.str s)
  | arr {line : Nat} {items : Items} {js : List Json} (h : Items.Shows items js) :
      Doc.Shows (.arr line items) (.arr js)
  | obj {line : Nat} {members : Members} {es : List (String × Json)} (h : Members.Shows members es) :
      Doc.Shows (.obj line members) (.obj es)

inductive Items.Shows : Items → List Json → Prop
  | closed {line : Nat} : Items.Shows (.closed line) []
  | cons {value : Doc} {after : Nat} {rest : Items} {j : Json} {js : List Json}
      (hvalue : Doc.Shows value j) (hrest : Items.Shows rest js) :
      Items.Shows (.cons value after rest) (j :: js)

inductive Members.Shows : Members → List (String × Json) → Prop
  | closed {line : Nat} : Members.Shows (.closed line) []
  | cons {key : String} {colon : Nat} {value : Doc} {after : Nat} {rest : Members} {j : Json}
      {es : List (String × Json)} (hvalue : Doc.Shows value j) (hrest : Members.Shows rest es) :
      Members.Shows (.cons (.ok key) colon value after rest) ((key, j) :: es)

end

theorem Items.shows_ofJson {items : List Json} (h : ∀ j ∈ items, (Doc.ofJson j).Shows j) :
    (Items.ofJson items).Shows items := by
  induction items with
  | nil => exact .closed
  | cons j items ih =>
      rw [List.forall_mem_cons] at h
      exact .cons h.1 (ih h.2)

theorem Members.shows_ofJson {es : List (String × Json)}
    (h : ∀ e ∈ es, (Doc.ofJson e.2).Shows e.2) : (Members.ofJson es).Shows es := by
  induction es with
  | nil => exact .closed
  | cons e es ih =>
      rw [List.forall_mem_cons] at h
      exact .cons h.1 (ih h.2)

/-- The document of a value shows it. -/
theorem Doc.shows_ofJson (j : Json) : (Doc.ofJson j).Shows j := by
  induction j using Json.induct with
  | null => exact .null
  | bool b => exact .bool
  | int n => exact .int
  | float x => exact .float
  | str s => exact .str
  | arr items ih => exact .arr (Items.shows_ofJson ih)
  | obj es ih => exact .obj (Members.shows_ofJson ih)

theorem Items.Shows.depth_eq {items : Items} {js : List Json} (h : items.Shows js)
    (ih : ∀ j ∈ js, ∀ d : Doc, d.Shows j → d.depth = j.depth) :
    items.depth = Json.depthItems js := by
  induction js generalizing items with
  | nil =>
      cases h
      rfl
  | cons j js ihjs =>
      cases h with
      | cons hvalue hrest =>
          rw [List.forall_mem_cons] at ih
          rw [Items.depth, Json.depthItems, ih.1 _ hvalue, ihjs hrest ih.2]

theorem Members.Shows.depth_eq {ms : Members} {es : List (String × Json)} (h : ms.Shows es)
    (ih : ∀ e ∈ es, ∀ d : Doc, d.Shows e.2 → d.depth = e.2.depth) :
    ms.depth = Json.depthEntries es := by
  induction es generalizing ms with
  | nil =>
      cases h
      rfl
  | cons e es ihes =>
      cases h with
      | cons hvalue hrest =>
          rw [List.forall_mem_cons] at ih
          rw [Members.depth, Json.depthEntries, ih.1 _ hvalue, ihes hrest ih.2]

/-- A document is nested as deep as the value it shows. -/
theorem Doc.Shows.depth_eq {d : Doc} {j : Json} (h : d.Shows j) : d.depth = j.depth := by
  induction j using Json.induct generalizing d with
  | arr items ih =>
      cases h with
      | arr h => rw [Doc.depth, Json.depth, h.depth_eq fun j hj d hd => ih j hj hd]
  | obj es ih =>
      cases h with
      | obj h => rw [Doc.depth, Json.depth, h.depth_eq fun e he d hd => ih e he hd]
  | null => cases h; rfl
  | bool b => cases h; rfl
  | int n => cases h; rfl
  | float x => cases h; rfl
  | str s => cases h; rfl

/-! ### Plain JSON values -/

theorem Items.Shows.jsons {items : Items} {js : List Json} (h : items.Shows js)
    (ih : ∀ j ∈ js, ∀ d : Doc, d.Shows j → ∃ j', d.json = .ok j' ∧ (j.Keyed → j' = j)) :
    ∃ js', items.jsons = .ok js' ∧ ((∀ j ∈ js, j.Keyed) → js' = js) := by
  induction js generalizing items with
  | nil =>
      cases h
      exact ⟨[], rfl, fun _ => rfl⟩
  | cons j js ihjs =>
      cases h with
      | cons hvalue hrest =>
          rw [List.forall_mem_cons] at ih
          obtain ⟨j', hj, heq⟩ := ih.1 _ hvalue
          obtain ⟨js', hjs, heqs⟩ := ihjs hrest ih.2
          refine ⟨j' :: js', by rw [Items.jsons, hj, hjs], fun hkeyed => ?_⟩
          rw [List.forall_mem_cons] at hkeyed
          rw [heq hkeyed.1, heqs hkeyed.2]

theorem Members.Shows.jsons {ms : Members} {es : List (String × Json)} (h : ms.Shows es)
    (ih : ∀ e ∈ es, ∀ d : Doc, d.Shows e.2 → ∃ j', d.json = .ok j' ∧ (e.2.Keyed → j' = e.2))
    (done : Entries Json) :
    ∃ es', ms.jsons done = .ok es' ∧
      ((Entries.keys (done ++ es)).Nodup → (∀ e ∈ es, e.2.Keyed) → es' = done ++ es) := by
  induction es generalizing ms done with
  | nil =>
      cases h
      exact ⟨done, rfl, fun _ _ => (List.append_nil done).symm⟩
  | cons e es ihes =>
      cases h with
      | @cons key colon value after rest j es hvalue hrest =>
          rw [List.forall_mem_cons] at ih
          obtain ⟨j', hj, heq⟩ := ih.1 _ hvalue
          obtain ⟨es', hes, heqs⟩ := ihes hrest ih.2 (done.insert key j')
          refine ⟨es', by rw [Members.jsons, hj]; exact hes, fun hnodup hkeyed => ?_⟩
          rw [List.forall_mem_cons] at hkeyed
          -- the key is new, so its value goes to the end of what was read before
          have hnew : key ∉ done.keys := by
            rw [Entries.keys_append, List.nodup_append] at hnodup
            exact fun hmem => hnodup.2.2 _ hmem _ List.mem_cons_self rfl
          have hinsert : done.insert key j' = done ++ [(key, j)] := by
            rw [heq hkeyed.1, Entries.insert_of_not_mem _ hnew]
          rw [hinsert, List.append_assoc, List.singleton_append] at heqs
          exact heqs hnodup hkeyed.2

/-- A document that shows a value can be read as a JSON value, and as the same one unless an object
in it repeats a key. -/
theorem Doc.Shows.json {d : Doc} {j : Json} (h : d.Shows j) :
    ∃ j', d.json = .ok j' ∧ (j.Keyed → j' = j) := by
  induction j using Json.induct generalizing d with
  | arr items ih =>
      cases h with
      | arr h =>
          obtain ⟨js', hjs, heq⟩ := h.jsons fun j hj d hd => ih j hj hd
          refine ⟨.arr js', by rw [Doc.json, hjs], fun hkeyed => ?_⟩
          rw [heq (Json.keyedItems_iff.mp hkeyed)]
  | obj es ih =>
      cases h with
      | obj h =>
          obtain ⟨es', hes, heq⟩ := h.jsons (fun e he d hd => ih e he hd) []
          refine ⟨.obj es', by rw [Doc.json, hes], fun hkeyed => ?_⟩
          rw [heq hkeyed.1 (Json.keyedEntries_iff.mp hkeyed.2), List.nil_append]
  | null => cases h; exact ⟨_, rfl, fun _ => rfl⟩
  | bool b => cases h; exact ⟨_, rfl, fun _ => rfl⟩
  | int n => cases h; exact ⟨_, rfl, fun _ => rfl⟩
  | float x => cases h; exact ⟨_, rfl, fun _ => rfl⟩
  | str s => cases h; exact ⟨_, rfl, fun _ => rfl⟩

theorem Items.Shows.skim {items : Items} {js : List Json} (h : items.Shows js)
    (ih : ∀ j ∈ js, ∀ d : Doc, d.Shows j → d.skim = .ok ()) : items.skim = .ok () := by
  induction js generalizing items with
  | nil =>
      cases h
      rfl
  | cons j js ihjs =>
      cases h with
      | cons hvalue hrest =>
          rw [List.forall_mem_cons] at ih
          rw [Items.skim, ih.1 _ hvalue]
          exact ihjs hrest ih.2

theorem Members.Shows.skim {ms : Members} {es : List (String × Json)} (h : ms.Shows es)
    (ih : ∀ e ∈ es, ∀ d : Doc, d.Shows e.2 → d.skim = .ok ()) : ms.skim = .ok () := by
  induction es generalizing ms with
  | nil =>
      cases h
      rfl
  | cons e es ihes =>
      cases h with
      | cons hvalue hrest =>
          rw [List.forall_mem_cons] at ih
          rw [Members.skim, ih.1 _ hvalue]
          exact ihes hrest ih.2

/-- A document that shows a value can be passed over. -/
theorem Doc.Shows.skim {d : Doc} {j : Json} (h : d.Shows j) : d.skim = .ok () := by
  induction j using Json.induct generalizing d with
  | arr items ih =>
      cases h with
      | arr h => exact h.skim fun j hj d hd => ih j hj hd
  | obj es ih =>
      cases h with
      | obj h => exact h.skim fun e he d hd => ih e he hd
  | null => cases h; rfl
  | bool b => cases h; rfl
  | int n => cases h; rfl
  | float x => cases h; rfl
  | str s => cases h; rfl

/-! ### What a reader accepts -/

/-- The reader takes every document that shows the JSON value to the typed value. -/
def Accepts {α : Type} (read : Doc → Read α) (j : Json) (a : α) : Prop :=
  ∀ d : Doc, d.Shows j → read d = .ok a

theorem Accepts.decode {α : Type} {read : Doc → Read α} {j : Json} {a : α}
    (h : Accepts read j a) : Doc.decode read j = .ok a :=
  h _ (Doc.shows_ofJson j)

section plain

variable {α : Type}

theorem accepts_string (s : String) : Accepts Doc.string (.str s) s := by
  intro d h
  cases h
  rfl

theorem accepts_flag (b : Bool) : Accepts Doc.flag (.bool b) b := by
  intro d h
  cases h
  rfl

theorem accepts_json {j : Json} (h : j.Keyed) : Accepts Doc.json j j := by
  intro d hd
  obtain ⟨j', hj, heq⟩ := hd.json
  rw [hj, heq h]

theorem accepts_nat {bound n : Nat} (h : n ≤ bound) : Accepts (Doc.nat bound) (.int n) n := by
  intro d hd
  cases hd
  have hrange : (0 : Int) ≤ n ∧ (n : Int) ≤ bound := by omega
  rw [Doc.nat, if_pos hrange, Int.toNat_natCast]

theorem accepts_word32 (n : UInt32) : Accepts Doc.word32 (.int n.toNat) n := by
  intro d hd
  have hbound : n.toNat ≤ 4294967295 := Nat.le_of_lt_succ n.toNat_lt
  rw [Doc.word32, accepts_nat hbound d hd]
  exact congrArg Except.ok (UInt32.ofNat_toNat)

theorem accepts_byte (n : UInt8) : Accepts Doc.byte (.int n.toNat) n := by
  intro d hd
  have hbound : n.toNat ≤ 255 := Nat.le_of_lt_succ n.toNat_lt
  rw [Doc.byte, accepts_nat hbound d hd]
  exact congrArg Except.ok (UInt8.ofNat_toNat)

theorem accepts_null (read : Doc → Read α) : Accepts (Doc.optional read) .null none := by
  intro d hd
  cases hd
  rfl

/-- A value that is there, if it is not written as `null`. -/
theorem Accepts.optional {read : Doc → Read α} {j : Json} {a : α} (h : Accepts read j a)
    (hj : j ≠ .null) : Accepts (Doc.optional read) j (some a) := by
  intro d hd
  have hread := h d hd
  cases hd with
  | null => exact absurd rfl hj
  | bool => exact congrArg (Except.map some) hread
  | int => exact congrArg (Except.map some) hread
  | float => exact congrArg (Except.map some) hread
  | str => exact congrArg (Except.map some) hread
  | arr h => exact congrArg (Except.map some) hread
  | obj h => exact congrArg (Except.map some) hread

/-- The name of an alternative. -/
theorem accepts_oneOf {names : List (String × α)} {s : String} {a : α}
    (h : Entries.get? names s = some a) : Accepts (Doc.oneOf names) (.str s) a := by
  intro d hd
  cases hd
  simp only [Doc.oneOf, Doc.name, Except.bind, h]

/-- The only member of an object. -/
theorem Doc.Shows.single {d : Doc} {key : String} {j : Json} (h : d.Shows (.obj [(key, j)])) :
    ∃ e : Doc, d.single = .ok (key, e) ∧ e.Shows j := by
  cases h with
  | obj h =>
      cases h with
      | @cons _ _ value _ _ _ _ hvalue hrest =>
          cases hrest
          exact ⟨value, rfl, hvalue⟩

end plain

/-! ### Lists and maps -/

section containers

variable {α : Type} {read : Doc → Read α} {json : α → Json}

theorem Items.Shows.list {items : Items} {as : List α} (h : items.Shows (as.map json))
    (haccepts : ∀ a ∈ as, Accepts read (json a) a) : items.list read = .ok as := by
  induction as generalizing items with
  | nil =>
      cases h
      rfl
  | cons a as ih =>
      cases h with
      | @cons value after rest _ _ hvalue hrest =>
          rw [List.forall_mem_cons] at haccepts
          rw [Items.list, haccepts.1 value hvalue, ih hrest haccepts.2]
          rfl

theorem accepts_list {as : List α} (h : ∀ a ∈ as, Accepts read (json a) a) :
    Accepts (Doc.list read) (.arr (as.map json)) as := by
  intro d hd
  cases hd with
  | arr hd => exact hd.list h

/-- Members are read one after the other.  If what is added goes to the end each time, then all
entries are read in their order. -/
theorem Members.Shows.fold {add : Entries α → String → α → Read (Entries α)} {whole : Entries α}
    (hadd : ∀ done e rest, whole = done ++ e :: rest → add done e.1 e.2 = .ok (done ++ [e]))
    (haccepts : ∀ e ∈ whole, Accepts read (json e.2) e.2) {es : Entries α} :
    ∀ {done : Entries α} {ms : Members}, whole = done ++ es →
      ms.Shows (es.map fun e => (e.1, json e.2)) → ms.fold read add done = .ok whole := by
  induction es with
  | nil =>
      intro done ms hwhole h
      cases h
      rw [hwhole, List.append_nil]
      rfl
  | cons e es ih =>
      intro done ms hwhole h
      cases h with
      | @cons _ _ value _ rest _ _ hvalue hrest =>
          have hmem : e ∈ whole := by
            rw [hwhole]
            exact List.mem_append_right _ List.mem_cons_self
          have hread : (read value).bind (add done e.1) = .ok (done ++ [e]) := by
            rw [haccepts e hmem value hvalue]
            exact hadd done e es hwhole
          rw [Members.fold, hread]
          refine ih ?_ hrest
          rw [hwhole, List.append_assoc, List.singleton_append]

theorem accepts_entries {es : Entries α} (hkeys : es.keys.Nodup)
    (h : ∀ e ∈ es, Accepts read (json e.2) e.2) :
    Accepts (Doc.entries read) (.obj (es.map fun e => (e.1, json e.2))) es := by
  intro d hd
  cases hd with
  | obj hd =>
      refine hd.fold (fun done e rest hes => ?_) h (List.nil_append es).symm
      rw [hes, Entries.keys_append, List.nodup_append] at hkeys
      have hnew : e.1 ∉ done.keys := fun hmem => hkeys.2.2 _ hmem _ List.mem_cons_self rfl
      rw [Entries.insert_of_not_mem _ hnew]

theorem accepts_sorted {es : Entries α} (hkeys : es.Increasing)
    (h : ∀ e ∈ es, Accepts read (json e.2) e.2) :
    Accepts (Doc.sorted read) (.obj (es.map fun e => (e.1, json e.2))) es := by
  intro d hd
  cases hd with
  | obj hd =>
      refine hd.fold (fun done e rest hes => ?_) h (List.nil_append es).symm
      rw [Entries.Increasing, hes, Entries.keys_append, List.pairwise_append] at hkeys
      have hlast : ∀ k ∈ done.keys, k < e.1 := fun k hk => hkeys.2.2 k hk _ List.mem_cons_self
      rw [Entries.insertSorted_of_lt _ hlast]

theorem accepts_distinct (repeated : String → Cause) {es : Entries α} (hkeys : es.keys.Nodup)
    (h : ∀ e ∈ es, Accepts read (json e.2) e.2) :
    Accepts (Doc.distinct repeated read) (.obj (es.map fun e => (e.1, json e.2))) es := by
  intro d hd
  cases hd with
  | obj hd =>
      refine hd.fold (fun done e rest hes => ?_) h (List.nil_append es).symm
      rw [hes, Entries.keys_append, List.nodup_append] at hkeys
      have hnew : e.1 ∉ done.keys := fun hmem => hkeys.2.2 _ hmem _ List.mem_cons_self rfl
      have hhas : done.has e.1 = false := by
        rw [Entries.has, Entries.get?_eq_none hnew]
        rfl
      rw [hhas, Entries.insert_of_not_mem _ hnew]
      rfl

end containers

/-! ### Records -/

/-- What reading some entries does to the slot of a field: without an entry under its name it stays
as it is, otherwise it was empty and holds the value afterwards. -/
def Slot.Fill {α : Type} (read : Doc → Read α) (old new : Option α) : Option Json → Prop
  | none => new = old
  | some j => old = none ∧ ∃ a, new = some a ∧ Accepts read j a

@[simp] theorem Slot.fill_none {α : Type} {read : Doc → Read α} {old new : Option α} :
    Slot.Fill read old new none ↔ new = old :=
  Iff.rfl

@[simp] theorem Slot.fill_some {α : Type} {read : Doc → Read α} {a : α} {j : Json} :
    Slot.Fill read none (some a) (some j) ↔ Accepts read j a := by
  simp [Slot.Fill]

namespace Fields

/-- The names of the fields. -/
def names : {αs : List Type} → Fields αs → List String
  | _, .done => []
  | _, .field name _ rest => name :: rest.names

/-- What reading some entries does to the slots. -/
@[simp] def Fill (es : Entries Json) : {αs : List Type} → Fields αs → Slots αs → Slots αs → Prop
  | _, .done, _, _ => True
  | _, .field name read rest, old, new =>
    Slot.Fill read old.1 new.1 (es.get? name) ∧ rest.Fill es old.2 new.2

theorem eq_of_fill_nil : {αs : List Type} → (fields : Fields αs) → {old new : Slots αs} →
    fields.Fill [] old new → new = old
  | _, .done, _, _, _ => rfl
  | _, .field _ _ rest, _, _, h => Prod.ext h.1 (rest.eq_of_fill_nil h.2)

/-- An entry that none of the fields is named for changes nothing. -/
theorem Fill.of_not_mem {key : String} {j : Json} {es : Entries Json} :
    {αs : List Type} → (fields : Fields αs) → key ∉ fields.names → {old new : Slots αs} →
      fields.Fill ((key, j) :: es) old new → fields.Fill es old new
  | _, .done, _, _, _, _ => trivial
  | _, .field name _ rest, hkey, _, _, h => by
      rw [names, List.mem_cons, not_or] at hkey
      refine ⟨?_, Fill.of_not_mem rest hkey.2 h.2⟩
      have hslot := h.1
      rw [Entries.get?, if_neg hkey.1] at hslot
      exact hslot

theorem put_own {α : Type} {αs : List Type} {name : String} {read : Doc → Read α}
    {rest : Fields αs} {colon : Nat} {value : Doc} {slots : Slots αs} :
    (field name read rest).put name colon value (none, slots) =
      (read value).map fun a => (some a, slots) :=
  if_pos rfl

theorem put_other {α : Type} {αs : List Type} {key name : String} {read : Doc → Read α}
    {rest : Fields αs} {colon : Nat} {value : Doc} {slots : Slots (α :: αs)} (h : key ≠ name) :
    (field name read rest).put key colon value slots =
      (rest.put key colon value slots.2).map fun s => (slots.1, s) :=
  if_neg h

/-- Reading the first of some entries, by induction over the fields: only the slot of its own field
changes. -/
theorem put_of_fill {key : String} {j : Json} {es : Entries Json} (hkey : key ∉ es.keys)
    {value : Doc} (hvalue : value.Shows j) (colon : Nat) :
    {αs : List Type} → (fields : Fields αs) → fields.names.Nodup → {old new : Slots αs} →
      fields.Fill ((key, j) :: es) old new →
      ∃ mid, fields.put key colon value old = .ok mid ∧ fields.Fill es mid new
  | _, .done, _, old, _, _ => by
      refine ⟨old, ?_, trivial⟩
      rw [put, hvalue.skim]
      rfl
  | _, .field name read rest, hnames, (slot, slots), (slot', slots'), h => by
      rw [names, List.nodup_cons] at hnames
      obtain ⟨hslot, hslots⟩ := h
      rw [Entries.get?] at hslot
      by_cases heq : key = name
      · subst heq
        rw [if_pos rfl] at hslot
        obtain ⟨hold, a, hnew, haccepts⟩ := hslot
        cases hold
        refine ⟨(some a, slots), ?_, ?_, Fill.of_not_mem rest hnames.1 hslots⟩
        · rw [put_own, haccepts value hvalue]
          rfl
        · rw [Entries.get?_eq_none hkey]
          exact hnew
      · rw [if_neg heq] at hslot
        obtain ⟨mid, hput, hfill⟩ := put_of_fill hkey hvalue colon rest hnames.2 hslots
        refine ⟨(slot, mid), ?_, hslot, hfill⟩
        rw [put_other heq, hput]
        rfl

end Fields

/-- All members, by induction over the entries they show. -/
theorem Members.Shows.record {αs : List Type} {fields : Fields αs} (hnames : fields.names.Nodup)
    {es : Entries Json} (hkeys : es.keys.Nodup) {ms : Members} (h : ms.Shows es)
    {old new : Slots αs} (hfill : fields.Fill es old new) :
    ∃ line, ms.record fields old = .ok (line, new) := by
  induction es generalizing ms old with
  | nil =>
      cases h with
      | @closed line =>
          rw [fields.eq_of_fill_nil hfill]
          exact ⟨line, rfl⟩
  | cons e es ih =>
      cases h with
      | @cons key colon value after rest j es hvalue hrest =>
          rw [Entries.keys, List.map_cons, List.nodup_cons] at hkeys
          obtain ⟨mid, hput, hfill⟩ := fields.put_of_fill hkeys.1 hvalue colon hnames hfill
          obtain ⟨line, hrecord⟩ := ih hkeys.2 hrest hfill
          refine ⟨line, ?_⟩
          rw [Members.record, hput]
          exact hrecord

/-- A record written as an object. -/
theorem Doc.Shows.object {αs : List Type} {fields : Fields αs} (hnames : fields.names.Nodup)
    {es : Entries Json} (hkeys : es.keys.Nodup) {d : Doc} (h : d.Shows (.obj es))
    {slots : Slots αs} (hfill : fields.Fill es fields.empty slots) :
    ∃ line, d.object fields = .ok (line, slots) := by
  cases h with
  | obj h => exact h.record hnames hkeys hfill

theorem Doc.Shows.record {αs : List Type} {fields : Fields αs} (hnames : fields.names.Nodup)
    {es : Entries Json} (hkeys : es.keys.Nodup) {d : Doc} (h : d.Shows (.obj es))
    {slots : Slots αs} (hfill : fields.Fill es fields.empty slots) :
    ∃ line, d.record fields = .ok (line, slots) := by
  obtain ⟨line, hobject⟩ := h.object hnames hkeys hfill
  cases h with
  | obj h => exact ⟨line, hobject⟩

/-- A record is accepted if its slots can be filled and make the value. -/
theorem accepts_record {α : Type} {αs : List Type} {fields : Fields αs}
    {finish : Nat × Slots αs → Read α} {es : Entries Json} {a : α} (slots : Slots αs)
    (hnames : fields.names.Nodup) (hkeys : es.keys.Nodup)
    (hfill : fields.Fill es fields.empty slots) (hfinish : ∀ line, finish (line, slots) = .ok a) :
    Accepts (fun d => d.record fields >>= finish) (.obj es) a := by
  intro d hd
  obtain ⟨line, hrecord⟩ := hd.record hnames hkeys hfill
  simp only [hrecord]
  exact hfinish line

theorem Doc.Shows.recordIn (listed : Bool) {αs : List Type} {fields : Fields αs}
    (hnames : fields.names.Nodup) {es : Entries Json} (hkeys : es.keys.Nodup) {d : Doc}
    (h : d.Shows (.obj es)) {slots : Slots αs} (hfill : fields.Fill es fields.empty slots) :
    ∃ line, d.recordIn listed fields = .ok (line, slots) := by
  cases listed with
  | false => exact h.object hnames hkeys hfill
  | true => exact h.record hnames hkeys hfill

end ShapedQuery
