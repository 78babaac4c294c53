import ShapedQuery.Proofs.Decoding
import ShapedQuery.Proofs.Parts

/-! # What is read is covered by its document

A typed value that is read from a document is written as JSON again.  This JSON value is covered by
the document (`Doc.Covers`): its numbers are whole if those of the document are, and it is nested no
deeper than the document.

One thing is written that need not have been there, the list of the arguments of a call.  So what is
said about the nesting holds under the condition that every call has an argument
(`Computed.Supplied`). -/

namespace ShapedQuery

/-! ### Covering -/

/-- The numbers of the JSON value are whole if those of the document are, and under the condition
`full` it is nested no deeper. -/
structure Doc.Covers (d : Doc) (full : Prop) (j : Json) : Prop where
  depth : full → j.depth ≤ d.depth
  whole : d.Whole → j.Whole

/-- The same for a value that stands inside the one that is covered. -/
structure Doc.Holds (d : Doc) (full : Prop) (j : Json) : Prop where
  depth : full → j.depth < d.depth
  whole : d.Whole → j.Whole

namespace Json

theorem depthItems_le {items : List Json} {k : Nat} (h : ∀ j ∈ items, j.depth ≤ k) :
    depthItems items ≤ k := by
  induction items with
  | nil => exact Nat.zero_le _
  | cons j items ih =>
      rw [List.forall_mem_cons] at h
      exact Nat.max_le.mpr ⟨h.1, ih h.2⟩

theorem depthEntries_le {es : List (String × Json)} {k : Nat} (h : ∀ e ∈ es, e.2.depth ≤ k) :
    depthEntries es ≤ k := by
  induction es with
  | nil => exact Nat.zero_le _
  | cons e es ih =>
      rw [List.forall_mem_cons] at h
      exact Nat.max_le.mpr ⟨h.1, ih h.2⟩

end Json

namespace Doc

variable {d e : Doc} {full full' : Prop} {j : Json}

theorem Covers.mono (h : d.Covers full j) (hfull : full' → full) : d.Covers full' j :=
  ⟨fun hf => h.depth (hfull hf), h.whole⟩

theorem Holds.mono (h : d.Holds full j) (hfull : full' → full) : d.Holds full' j :=
  ⟨fun hf => h.depth (hfull hf), h.whole⟩

theorem Covers.holds (h : e.Covers full j) (he : e ∈ d.parts) : d.Holds full j := by
  obtain ⟨hdepth, hwhole⟩ := bounds_of_mem he
  exact ⟨fun hf => Nat.lt_of_le_of_lt (h.depth hf) hdepth, fun hd => h.whole (hwhole hd)⟩

theorem holds_str (hd : 0 < d.depth) (s : String) : d.Holds full (.str s) :=
  ⟨fun _ => hd, fun _ => trivial⟩

theorem holds_bool (hd : 0 < d.depth) (b : Bool) : d.Holds full (.bool b) :=
  ⟨fun _ => hd, fun _ => trivial⟩

theorem holds_int (hd : 0 < d.depth) {n : Int} (hn : Json.IntRange n) : d.Holds full (.int n) :=
  ⟨fun _ => hd, fun _ => hn⟩

theorem covers_arr (hd : 0 < d.depth) {js : List Json} (h : ∀ j ∈ js, d.Holds full j) :
    d.Covers full (.arr js) := by
  constructor
  · intro hf
    have hitems : Json.depthItems js ≤ d.depth - 1 :=
      Json.depthItems_le fun j hj => Nat.le_sub_one_of_lt ((h j hj).depth hf)
    rw [Json.depth]
    omega
  · intro hwhole
    exact Json.wholeItems_iff.mpr fun j hj => (h j hj).whole hwhole

theorem covers_obj (hd : 0 < d.depth) {es : List (String × Json)}
    (h : ∀ x ∈ es, d.Holds full x.2) : d.Covers full (.obj es) := by
  constructor
  · intro hf
    have hentries : Json.depthEntries es ≤ d.depth - 1 :=
      Json.depthEntries_le fun x hx => Nat.le_sub_one_of_lt ((h x hx).depth hf)
    rw [Json.depth]
    omega
  · intro hwhole
    exact Json.wholeEntries_iff.mpr fun x hx => (h x hx).whole hwhole

/-- An object with one key. -/
theorem covers_single (hd : 0 < d.depth) {key : String} (h : d.Holds full j) :
    d.Covers full (.obj [(key, j)]) :=
  covers_obj hd fun x hx => by
    cases List.mem_singleton.mp hx
    exact h

variable {α : Type} {json : α → Json}

theorem covers_list (hd : 0 < d.depth) {as : List α}
    (h : ∀ a ∈ as, ∃ e ∈ d.parts, e.Covers full (json a)) : d.Covers full (.arr (as.map json)) := by
  refine covers_arr hd fun j hj => ?_
  obtain ⟨a, ha, rfl⟩ := List.mem_map.mp hj
  obtain ⟨e, he, hcovers⟩ := h a ha
  exact hcovers.holds he

theorem covers_map (hd : 0 < d.depth) {es : Entries α}
    (h : ∀ x ∈ es, ∃ e ∈ d.parts, e.Covers full (json x.2)) :
    d.Covers full (.obj (es.map fun x => (x.1, json x.2))) := by
  refine covers_obj hd fun y hy => ?_
  obtain ⟨x, hx, rfl⟩ := List.mem_map.mp hy
  obtain ⟨e, he, hcovers⟩ := h x hx
  exact hcovers.holds he

end Doc

/-! ### JSON values -/

theorem Items.list_of_jsons : ∀ {items : Items} {js : List Json}, items.jsons = .ok js →
    items.list Doc.json = .ok js
  | .closed _, _, h => h
  | .broken _, _, h => by cases h
  | .cons value after rest, _, h => by
      rw [Items.jsons] at h
      cases hvalue : value.json with
      | error f =>
          simp only [hvalue] at h
          cases h
      | ok j =>
          cases hrest : rest.jsons with
          | error f =>
              simp only [hvalue, hrest] at h
              cases h
          | ok js =>
              simp only [hvalue, hrest] at h
              rw [Items.list, hvalue, Items.list_of_jsons hrest]
              exact h

theorem Members.fold_of_jsons : ∀ {ms : Members} {done es : Entries Json},
    ms.jsons done = .ok es →
      ms.fold Doc.json (fun done key j => .ok (done.insert key j)) done = .ok es
  | .closed _, _, _, h => h
  | .broken _ _, _, _, h => by cases h
  | .cons (.error _) _ _ _ _, _, _, h => by cases h
  | .cons (.ok key) colon value after rest, done, _, h => by
      rw [Members.jsons] at h
      cases hvalue : value.json with
      | error f =>
          simp only [hvalue] at h
          cases h
      | ok j =>
          simp only [hvalue] at h
          rw [Members.fold, hvalue]
          exact Members.fold_of_jsons h

/-- A JSON value as it is read, by induction over how deep the document is nested. -/
theorem Doc.json_covers {d : Doc} {j : Json} (h : d.json = .ok j) :
    j.Keyed ∧ d.Covers True j := by
  induction hn : d.depth using Nat.strongRecOn generalizing d j with
  | _ n ih =>
      subst hn
      cases d with
      | null line =>
          cases h
          exact ⟨trivial, fun _ => Nat.zero_le _, fun _ => trivial⟩
      | bool line b =>
          cases h
          exact ⟨trivial, fun _ => Nat.zero_le _, fun _ => trivial⟩
      | int line n =>
          cases h
          exact ⟨trivial, fun _ => Nat.zero_le _, fun hwhole => hwhole⟩
      | float line x =>
          cases h
          exact ⟨trivial, fun _ => Nat.zero_le _, fun hwhole => hwhole⟩
      | str line s =>
          cases h
          exact ⟨trivial, fun _ => Nat.zero_le _, fun _ => trivial⟩
      | fault line skipped => cases h
      | arr line items =>
          rw [Doc.json] at h
          cases hjs : items.jsons with
          | error f =>
              simp only [hjs] at h
              cases h
          | ok js =>
              simp only [hjs] at h
              cases h
              have hlist : (Doc.arr line items).list Doc.json = .ok js := Items.list_of_jsons hjs
              obtain ⟨hpos, hparts⟩ := mem_of_list hlist
              constructor
              · refine Json.keyedItems_iff.mpr fun j hj => ?_
                obtain ⟨e, he, hread⟩ := hparts j hj
                exact (ih _ (bounds_of_mem he).1 hread rfl).1
              · refine covers_arr hpos fun j hj => ?_
                obtain ⟨e, he, hread⟩ := hparts j hj
                exact (ih _ (bounds_of_mem he).1 hread rfl).2.holds he
      | obj line members =>
          rw [Doc.json] at h
          cases hes : members.jsons [] with
          | error f =>
              simp only [hes] at h
              cases h
          | ok es =>
              simp only [hes] at h
              cases h
              have hentries : (Doc.obj line members).entries Doc.json = .ok es :=
                Members.fold_of_jsons hes
              obtain ⟨hpos, hkeys, hparts⟩ := mem_of_entries hentries
              constructor
              · refine ⟨hkeys, Json.keyedEntries_iff.mpr fun x hx => ?_⟩
                obtain ⟨e, he, hread⟩ := hparts x hx
                exact (ih _ (bounds_of_mem he).1 hread rfl).1
              · refine covers_obj hpos fun x hx => ?_
                obtain ⟨e, he, hread⟩ := hparts x hx
                exact (ih _ (bounds_of_mem he).1 hread rfl).2.holds he

/-! ### Columns and joins -/

theorem ColumnType.covers_within {depth : Nat} {d : Doc} {t : ColumnType}
    (h : readWithin depth d = .ok t) : d.Covers True t.json := by
  induction depth generalizing d t with
  | zero => cases h
  | succ depth ih =>
      rw [readWithin] at h
      split at h
      · cases h
      · rename_i key value hsingle
        obtain ⟨hpos, hvalue⟩ := Doc.mem_of_single hsingle
        rcases Read.of_ite_eq_ok h with h | h
        · obtain ⟨type, -, rfl⟩ := Read.map_eq_ok.mp h
          exact Doc.covers_single hpos (Doc.holds_str hpos _)
        rcases Read.of_ite_eq_ok h with h | h
        · obtain ⟨items, hitems, rfl⟩ := Read.map_eq_ok.mp h
          exact Doc.covers_single hpos ((ih hitems).holds hvalue)
        cases h

theorem JoinOperand.covers {d : Doc} {o : JoinOperand} (h : read d = .ok o) :
    o.Keyed ∧ d.Covers True o.json := by
  rw [read] at h
  split at h
  · cases h
  · rename_i key body hsingle
    obtain ⟨hpos, hbody⟩ := Doc.mem_of_single hsingle
    rcases Read.of_ite_eq_ok h with h | h
    · obtain ⟨name, -, rfl⟩ := Read.map_eq_ok.mp h
      exact ⟨trivial, Doc.covers_single hpos (Doc.holds_str hpos _)⟩
    rcases Read.of_ite_eq_ok h with h | h
    · obtain ⟨name, -, rfl⟩ := Read.map_eq_ok.mp h
      exact ⟨trivial, Doc.covers_single hpos (Doc.holds_str hpos _)⟩
    rcases Read.of_ite_eq_ok h with h | h
    · obtain ⟨name, -, rfl⟩ := Read.map_eq_ok.mp h
      exact ⟨trivial, Doc.covers_single hpos (Doc.holds_str hpos _)⟩
    rcases Read.of_ite_eq_ok h with h | h
    · obtain ⟨j, hj, rfl⟩ := Read.map_eq_ok.mp h
      obtain ⟨hkeyed, hcovers⟩ := Doc.json_covers hj
      exact ⟨hkeyed, Doc.covers_single hpos (hcovers.holds hbody)⟩
    cases h

theorem JoinSpec.covers {d : Doc} {s : JoinSpec} (h : read d = .ok s) :
    s.Keyed ∧ d.Covers True s.json := by
  obtain ⟨⟨line, table, kind, on, _⟩, hrecord, h⟩ := Read.bind_eq_ok.mp h
  obtain ⟨hpos, -, -, hon, -⟩ := Doc.record_from hrecord
  obtain ⟨table', -, h⟩ := Read.bind_eq_ok.mp h
  obtain ⟨on', hon', h⟩ := Read.bind_eq_ok.mp h
  cases h
  obtain ⟨e, he, hentries⟩ := hon on' (required_eq_ok.mp hon')
  obtain ⟨hpos', hkeys, hparts⟩ := Doc.mem_of_entries hentries
  constructor
  · refine ⟨hkeys, fun x hx => ?_⟩
    obtain ⟨e', -, hread⟩ := hparts x hx
    exact (JoinOperand.covers hread).1
  · have hmap : e.Covers True (.obj (on'.map fun x => (x.1, x.2.json))) := by
      refine Doc.covers_map hpos' fun x hx => ?_
      obtain ⟨e', he', hread⟩ := hparts x hx
      exact ⟨e', he', (JoinOperand.covers hread).2⟩
    refine Doc.covers_obj hpos ?_
    simp only [List.forall_mem_cons]
    exact ⟨Doc.holds_str hpos _, Doc.holds_str hpos _, hmap.holds he, List.forall_mem_nil _⟩

/-! ### Computed fields -/

namespace Computed

mutual

/-- Every call in the expression has an argument. -/
def Supplied : Computed → Prop
  | .call _ arguments => arguments ≠ [] ∧ SuppliedAll arguments
  | .binary left _ right => left.Supplied ∧ right.Supplied
  | .isNull e => e.Supplied
  | _ => True

def SuppliedAll : List Computed → Prop
  | [] => True
  | e :: es => e.Supplied ∧ SuppliedAll es

end

theorem suppliedAll_iff {es : List Computed} : SuppliedAll es ↔ ∀ e ∈ es, e.Supplied := by
  induction es with
  | nil => simp [SuppliedAll]
  | cons e es ih => simp [SuppliedAll, ih]

/-- The arguments of a call; if they are not there, an empty list is written nevertheless. -/
theorem covers_arguments {read : Doc → Read Computed} {body : Doc}
    (ih : ∀ {d e}, read d = .ok e → e.Distinct ∧ d.Covers e.Supplied e.json)
    {arguments : Option (List Computed)}
    (h : ∀ es, arguments = some es → ∃ d ∈ body.parts, Doc.list read d = .ok es)
    (function : String) :
    DistinctAll (arguments.getD []) ∧
      body.Holds (call function (arguments.getD [])).Supplied
        (.arr ((arguments.getD []).map json)) := by
  cases arguments with
  | none => exact ⟨trivial, fun hsupplied => absurd rfl hsupplied.1, fun _ => trivial⟩
  | some es =>
      obtain ⟨d, hd, hlist⟩ := h es rfl
      obtain ⟨hposd, hparts⟩ := Doc.mem_of_list hlist
      constructor
      · refine distinctAll_iff.mpr fun e he => ?_
        obtain ⟨d', -, hread⟩ := hparts e he
        exact (ih hread).1
      · have hcovers : d.Covers (call function es).Supplied (.arr (es.map json)) := by
          refine Doc.covers_list hposd fun e he => ?_
          obtain ⟨d', hd', hread⟩ := hparts e he
          exact ⟨d', hd', (ih hread).2.mono fun hsupplied => suppliedAll_iff.mp hsupplied.2 e he⟩
        exact hcovers.holds hd

/-- The record of a call. -/
theorem covers_call {read : Doc → Read Computed} {body : Doc}
    (ih : ∀ {d e}, read d = .ok e → e.Distinct ∧ d.Covers e.Supplied e.json) {listed : Bool}
    {line : Nat} {function : String} {arguments : Option (List Computed)}
    (h : body.recordIn listed (callFields read) = .ok (line, some function, arguments, ())) :
    DistinctAll (arguments.getD []) ∧
      body.Covers (call function (arguments.getD [])).Supplied
        (.obj [("function", .str function), ("arguments", .arr (jsons (arguments.getD [])))]) := by
  obtain ⟨hpos, -, harguments, -⟩ := Doc.recordIn_from h
  obtain ⟨hdistinct, hholds⟩ := covers_arguments ih harguments function
  refine ⟨hdistinct, Doc.covers_obj hpos ?_⟩
  simp only [List.forall_mem_cons, jsons_eq]
  exact ⟨Doc.holds_str hpos _, hholds, List.forall_mem_nil _⟩

/-- The record of an operation. -/
theorem covers_binary {read : Doc → Read Computed} {body : Doc}
    (ih : ∀ {d e}, read d = .ok e → e.Distinct ∧ d.Covers e.Supplied e.json) {listed : Bool}
    {line : Nat} {left right : Computed} {operator : Operator}
    (h : body.recordIn listed (binaryFields read) =
      .ok (line, some left, some operator, some right, ())) :
    (binary left operator right).Distinct ∧
      body.Covers (binary left operator right).Supplied
        (.obj [("left", left.json), ("operator", .str operator.name), ("right", right.json)]) := by
  obtain ⟨hpos, hleft, -, hright, -⟩ := Doc.recordIn_from h
  obtain ⟨dl, hdl, hreadl⟩ := hleft left rfl
  obtain ⟨dr, hdr, hreadr⟩ := hright right rfl
  obtain ⟨hdistinctl, hcoversl⟩ := ih hreadl
  obtain ⟨hdistinctr, hcoversr⟩ := ih hreadr
  refine ⟨⟨hdistinctl, hdistinctr⟩, Doc.covers_obj hpos ?_⟩
  simp only [List.forall_mem_cons]
  exact ⟨(hcoversl.mono And.left).holds hdl, Doc.holds_str hpos _,
    (hcoversr.mono And.right).holds hdr, List.forall_mem_nil _⟩

/-- The record of a column of another table. -/
theorem covers_joinedColumn {listed : Bool} {body : Doc} {line : Nat} {join : JoinSpec}
    {name : String}
    (h : body.recordIn listed joinedColumnFields = .ok (line, some join, some name, ())) :
    join.Keyed ∧ body.Covers True (.obj [("join", join.json), ("column", .str name)]) := by
  obtain ⟨hpos, hjoin, -⟩ := Doc.recordIn_from h
  obtain ⟨d, hd, hread⟩ := hjoin join rfl
  obtain ⟨hkeyed, hcovers⟩ := JoinSpec.covers hread
  refine ⟨hkeyed, Doc.covers_obj hpos ?_⟩
  simp only [List.forall_mem_cons]
  exact ⟨hcovers.holds hd, Doc.holds_str hpos _, List.forall_mem_nil _⟩

/-- The record of a row of another table. -/
theorem covers_joinedRow {listed : Bool} {body : Doc} {line : Nat} {join : JoinSpec}
    (h : body.recordIn listed joinedRowFields = .ok (line, some join, ())) :
    join.Keyed ∧ body.Covers True (.obj [("join", join.json)]) := by
  obtain ⟨hpos, hjoin, -⟩ := Doc.recordIn_from h
  obtain ⟨d, hd, hread⟩ := hjoin join rfl
  obtain ⟨hkeyed, hcovers⟩ := JoinSpec.covers hread
  exact ⟨hkeyed, Doc.covers_single hpos (hcovers.holds hd)⟩

/-- An expression as it is read, by induction over how deep the reader goes; the cases are the keys
in the order in which they are tried. -/
theorem covers_within {listed : Bool} {depth : Nat} {d : Doc} {e : Computed}
    (h : readWithin listed depth d = .ok e) : e.Distinct ∧ d.Covers e.Supplied e.json := by
  induction depth generalizing d e with
  | zero => cases h
  | succ depth ih =>
      rw [readWithin] at h
      obtain ⟨⟨key, body⟩, hsingle, h⟩ := Read.bind_eq_ok.mp h
      obtain ⟨hpos, hbody⟩ := Doc.mem_of_single hsingle
      dsimp only at h
      rcases Read.of_ite_eq_ok h with h | h
      · obtain ⟨name, -, h⟩ := Read.bind_eq_ok.mp h
        cases h
        exact ⟨trivial, Doc.covers_single hpos (Doc.holds_str hpos _)⟩
      rcases Read.of_ite_eq_ok h with h | h
      · obtain ⟨name, -, h⟩ := Read.bind_eq_ok.mp h
        cases h
        exact ⟨trivial, Doc.covers_single hpos (Doc.holds_str hpos _)⟩
      rcases Read.of_ite_eq_ok h with h | h
      · obtain ⟨name, -, h⟩ := Read.bind_eq_ok.mp h
        cases h
        exact ⟨trivial, Doc.covers_single hpos (Doc.holds_str hpos _)⟩
      rcases Read.of_ite_eq_ok h with h | h
      · obtain ⟨j, hj, h⟩ := Read.bind_eq_ok.mp h
        cases h
        obtain ⟨hkeyed, hcovers⟩ := Doc.json_covers hj
        exact ⟨hkeyed, Doc.covers_single hpos (hcovers.holds hbody)⟩
      rcases Read.of_ite_eq_ok h with h | h
      · obtain ⟨⟨line, join, name, _⟩, hrecord, h⟩ := Read.bind_eq_ok.mp h
        obtain ⟨join', hjoin, h⟩ := Read.bind_eq_ok.mp h
        obtain ⟨name', hname, h⟩ := Read.bind_eq_ok.mp h
        cases h
        cases required_eq_ok.mp hjoin
        cases required_eq_ok.mp hname
        obtain ⟨hkeyed, hcovers⟩ := covers_joinedColumn hrecord
        exact ⟨hkeyed, Doc.covers_single hpos (hcovers.holds hbody)⟩
      rcases Read.of_ite_eq_ok h with h | h
      · obtain ⟨⟨line, join, _⟩, hrecord, h⟩ := Read.bind_eq_ok.mp h
        obtain ⟨join', hjoin, h⟩ := Read.bind_eq_ok.mp h
        cases h
        cases required_eq_ok.mp hjoin
        obtain ⟨hkeyed, hcovers⟩ := covers_joinedRow hrecord
        exact ⟨hkeyed, Doc.covers_single hpos (hcovers.holds hbody)⟩
      rcases Read.of_ite_eq_ok h with h | h
      · obtain ⟨⟨line, function, arguments, _⟩, hrecord, h⟩ := Read.bind_eq_ok.mp h
        obtain ⟨function', hfunction, h⟩ := Read.bind_eq_ok.mp h
        cases h
        cases required_eq_ok.mp hfunction
        obtain ⟨hdistinct, hcovers⟩ := covers_call ih hrecord
        exact ⟨hdistinct, Doc.covers_single hpos (hcovers.holds hbody)⟩
      rcases Read.of_ite_eq_ok h with h | h
      · obtain ⟨⟨line, left, operator, right, _⟩, hrecord, h⟩ := Read.bind_eq_ok.mp h
        obtain ⟨left', hleft, h⟩ := Read.bind_eq_ok.mp h
        obtain ⟨operator', hoperator, h⟩ := Read.bind_eq_ok.mp h
        obtain ⟨right', hright, h⟩ := Read.bind_eq_ok.mp h
        cases h
        cases required_eq_ok.mp hleft
        cases required_eq_ok.mp hoperator
        cases required_eq_ok.mp hright
        obtain ⟨hdistinct, hcovers⟩ := covers_binary ih hrecord
        exact ⟨hdistinct, Doc.covers_single hpos (hcovers.holds hbody)⟩
      rcases Read.of_ite_eq_ok h with h | h
      · obtain ⟨e', he', h⟩ := Read.bind_eq_ok.mp h
        cases h
        obtain ⟨hdistinct, hcovers⟩ := ih he'
        exact ⟨hdistinct, Doc.covers_single hpos (hcovers.holds hbody)⟩
      cases h

end Computed

/-! ### Permissions and indexes -/

theorem Permission.covers {d : Doc} {p : Permission} (h : read d = .ok p) :
    d.Covers True p.json := by
  unfold read at h
  split at h
  · cases h
  · split at h
    · cases h
      exact ⟨fun _ => Nat.zero_le _, fun _ => trivial⟩
    · split at h
      · rename_i hobject
        cases h
        obtain ⟨hpos, -⟩ := Doc.object_from hobject
        exact Doc.covers_single hpos (Doc.holds_str hpos _)
      · cases h

theorem Direction.covers (direction : Direction) (d : Doc) : d.Covers True direction.json := by
  have hrange : Json.IntRange direction.number := by
    cases direction <;> decide
  exact ⟨fun _ => Nat.zero_le _, fun _ => hrange⟩

theorem intRange_byte (n : UInt8) : Json.IntRange n.toNat := by
  have hlt := n.toNat_lt
  constructor <;> omega

theorem intRange_word (n : UInt32) : Json.IntRange n.toNat := by
  have hlt := n.toNat_lt
  constructor <;> omega

theorem Collation.covers {d : Doc} {c : Collation} (h : read d = .ok c) :
    d.Covers True c.json := by
  obtain ⟨⟨line, locale, strength, _⟩, hrecord, h⟩ := Read.bind_eq_ok.mp h
  obtain ⟨hpos, -⟩ := Doc.record_from hrecord
  refine Doc.covers_obj hpos ?_
  simp only [List.forall_mem_cons]
  exact ⟨Doc.holds_str hpos _, Doc.holds_int hpos (intRange_byte c.strength), List.forall_mem_nil _⟩

theorem IndexOptions.covers {d : Doc} {o : IndexOptions} (h : read d = .ok o) :
    (∀ es, o.partialFilter = some es → (Json.obj es).Keyed) ∧ d.Covers True o.json := by
  obtain ⟨⟨line, unique, filter, collation, concurrently, _⟩, hrecord, h⟩ := Read.bind_eq_ok.mp h
  obtain ⟨hpos, -, hfilter, hcollation, -⟩ := Doc.record_from hrecord
  cases h
  have hfilter' : ∀ es, filter.getD none = some es →
      (Json.obj es).Keyed ∧ d.Holds True (.obj es) := by
    intro es hes
    obtain ⟨o, rfl⟩ : ∃ o, filter = some o := by
      cases filter with
      | none => cases hes
      | some o => exact ⟨o, rfl⟩
    obtain ⟨e, he, hread⟩ := hfilter o rfl
    obtain ⟨hpose, hkeys, hparts⟩ := Doc.mem_of_entries (Doc.optional_eq_ok hread es hes)
    constructor
    · refine ⟨hkeys, Json.keyedEntries_iff.mpr fun x hx => ?_⟩
      obtain ⟨e', -, hjson⟩ := hparts x hx
      exact (Doc.json_covers hjson).1
    · have hcovers : e.Covers True (.obj es) := by
        refine Doc.covers_obj hpose fun x hx => ?_
        obtain ⟨e', he', hjson⟩ := hparts x hx
        exact (Doc.json_covers hjson).2.holds he'
      exact hcovers.holds he
  have hcollation' : ∀ c, collation.getD none = some c → d.Holds True c.json := by
    intro c hc
    obtain ⟨o, rfl⟩ : ∃ o, collation = some o := by
      cases collation with
      | none => cases hc
      | some o => exact ⟨o, rfl⟩
    obtain ⟨e, he, hread⟩ := hcollation o rfl
    exact (Collation.covers (Doc.optional_eq_ok hread c hc)).holds he
  refine ⟨fun es hes => (hfilter' es hes).1, Doc.covers_obj hpos ?_⟩
  dsimp only
  cases hf : filter.getD none <;> cases hc : collation.getD none <;>
    simp only [List.forall_mem_append, List.forall_mem_singleton] <;>
    simp [Doc.holds_bool hpos, hfilter', hcollation', hf, hc]

theorem IndexInfo.covers {d : Doc} {i : IndexInfo} (h : read d = .ok i) :
    i.Distinct ∧ d.Covers True i.json := by
  obtain ⟨⟨line, fields, options, _⟩, hrecord, h⟩ := Read.bind_eq_ok.mp h
  obtain ⟨hpos, hfields, hoptions, -⟩ := Doc.record_from hrecord
  obtain ⟨fields', hfields', h⟩ := Read.bind_eq_ok.mp h
  cases h
  obtain ⟨e, he, hentries⟩ := hfields fields' (required_eq_ok.mp hfields')
  obtain ⟨hpose, hkeys, hparts⟩ := Doc.mem_of_entries hentries
  have hmap : e.Covers True (fieldsJson fields') := by
    refine Doc.covers_map hpose fun x hx => ?_
    obtain ⟨e', he', -⟩ := hparts x hx
    exact ⟨e', he', x.2.covers e'⟩
  -- options that are not there are written as an object, which is nested no deeper than the fields
  have hrest : (∀ es, (options.getD .default).partialFilter = some es → (Json.obj es).Keyed) ∧
      d.Holds True (options.getD .default).json := by
    cases options with
    | none =>
        constructor
        · intro es hes
          cases hes
        · refine ⟨fun _ => ?_, fun _ => ⟨trivial, trivial, trivial⟩⟩
          exact Nat.lt_of_le_of_lt hpose (Doc.bounds_of_mem he).1
    | some o =>
        obtain ⟨eo, heo, hread⟩ := hoptions o rfl
        obtain ⟨hkeyed, hcovers⟩ := IndexOptions.covers hread
        exact ⟨hkeyed, hcovers.holds heo⟩
  refine ⟨⟨hkeys, hrest.1⟩, Doc.covers_obj hpos ?_⟩
  simp only [List.forall_mem_cons]
  exact ⟨hmap.holds he, hrest.2, List.forall_mem_nil _⟩

/-! ### Fields -/

/-- Every call in the field has an argument. -/
def FieldKind.Supplied : FieldKind → Prop
  | .computed e => e.Supplied
  | _ => True

namespace Field

/-- What has been gathered comes from the documents. -/
structure Gathered.From (docs : List Doc) (g : Gathered) : Prop where
  others : ∀ x ∈ g.others, x.2 ∈ docs
  rules : ∀ rules, g.rules = some rules → ∃ e ∈ docs, e.list Permission.read = .ok rules

theorem gather_from {docs : List Doc} : ∀ {ms : Members} {done g : Gathered} {line : Nat},
    (∀ e ∈ ms.docs, e ∈ docs) → done.From docs → gather ms done = .ok (line, g) → g.From docs
  | .closed _, _, _, _, _, hdone, h => by
      cases h
      exact hdone
  | .broken _ _, _, _, _, _, _, h => by cases h
  | .cons (.error _) _ _ _ _, _, _, _, _, _, h => by cases h
  | .cons (.ok key) colon value after rest, done, _, _, hdocs, hdone, h => by
      rw [Members.docs, List.forall_mem_cons] at hdocs
      rw [gather] at h
      split at h
      · split at h
        · cases h
        · split at h
          · rename_i hrules
            refine gather_from hdocs.2 ?_ h
            refine ⟨hdone.others, fun rules heq => ?_⟩
            cases heq
            exact ⟨value, hdocs.1, Read.placed_eq_ok.mp hrules⟩
          · cases h
      · split at h
        · refine gather_from hdocs.2 ?_ h
          refine ⟨?_, hdone.rules⟩
          simp only [List.forall_mem_append, List.forall_mem_singleton]
          exact ⟨hdone.others, hdocs.1⟩
        · cases h

theorem docs_members (line : Nat) (others : List (String × Doc)) :
    (members line others).docs = others.map Prod.snd := by
  induction others with
  | nil => rfl
  | cons x others ih => exact congrArg (x.2 :: ·) ih

theorem readKind_covers {ms : Members} {d : Doc} (hpos : 0 < d.depth)
    (hdocs : ∀ e ∈ ms.docs, e ∈ d.parts) {kind : FieldKind} (h : readKind ms = .ok kind) :
    kind.Distinct ∧ ∀ x ∈ kindEntries kind, d.Holds kind.Supplied x.2 := by
  obtain ⟨⟨line, k, _⟩, -, h⟩ := Read.bind_eq_ok.mp h
  obtain ⟨k', -, h⟩ := Read.bind_eq_ok.mp h
  cases k' with
  | column =>
      obtain ⟨⟨line', type, nullable, _⟩, hrecord, h⟩ := Read.bind_eq_ok.mp h
      obtain ⟨htype, -⟩ := Members.record_from hdocs (Column.fields.from_empty _) hrecord
      obtain ⟨c, hc, h⟩ := Read.bind_eq_ok.mp h
      cases h
      obtain ⟨type', htype', rfl⟩ := Read.map_eq_ok.mp hc
      obtain ⟨e, he, hread⟩ := htype type' (required_eq_ok.mp htype')
      refine ⟨trivial, ?_⟩
      simp only [kindEntries, Column.entries, List.forall_mem_cons]
      exact ⟨Doc.holds_str hpos _, ((ColumnType.covers_within hread).holds he).mono fun _ => trivial,
        Doc.holds_str hpos _, List.forall_mem_nil _⟩
  | computed =>
      obtain ⟨⟨line', expression, _⟩, hrecord, h⟩ := Read.bind_eq_ok.mp h
      obtain ⟨hexpression, -⟩ := Members.record_from hdocs (computedFields.from_empty _) hrecord
      obtain ⟨c, hc, h⟩ := Read.bind_eq_ok.mp h
      cases h
      obtain ⟨e, he, hread⟩ := hexpression c (required_eq_ok.mp hc)
      obtain ⟨hdistinct, hcovers⟩ := Computed.covers_within hread
      refine ⟨hdistinct, ?_⟩
      simp only [kindEntries, List.forall_mem_cons]
      exact ⟨Doc.holds_str hpos _, hcovers.holds he, List.forall_mem_nil _⟩
  | relation =>
      obtain ⟨⟨line', join, _⟩, hrecord, h⟩ := Read.bind_eq_ok.mp h
      obtain ⟨hjoin, -⟩ := Members.record_from hdocs (relationFields.from_empty _) hrecord
      obtain ⟨join', hjoin', h⟩ := Read.bind_eq_ok.mp h
      cases h
      obtain ⟨e, he, hread⟩ := hjoin join' (required_eq_ok.mp hjoin')
      obtain ⟨hkeyed, hcovers⟩ := JoinSpec.covers hread
      refine ⟨hkeyed, ?_⟩
      simp only [kindEntries, List.forall_mem_cons]
      exact ⟨Doc.holds_str hpos _, hcovers.holds he, List.forall_mem_nil _⟩

theorem covers {d : Doc} {f : Field} (h : read d = .ok f) :
    f.kind.Distinct ∧ d.Covers f.kind.Supplied f.json := by
  cases d with
  | obj line ms =>
      rw [read] at h
      split at h
      · cases h
      · rename_i close g hgather
        have hpos : 0 < (Doc.obj line ms).depth := Nat.succ_pos _
        have hfrom : g.From ms.docs :=
          gather_from (fun e he => he) ⟨List.forall_mem_nil _, fun rules heq => by cases heq⟩ hgather
        split at h
        · rename_i kind hkind
          cases h
          have hdocs : ∀ e ∈ (members close g.others).docs, e ∈ (Doc.obj line ms).parts := by
            rw [docs_members]
            intro e he
            obtain ⟨x, hx, rfl⟩ := List.mem_map.mp he
            exact hfrom.others x hx
          obtain ⟨hdistinct, hentries⟩ := readKind_covers hpos hdocs hkind
          refine ⟨hdistinct, Doc.covers_obj hpos ?_⟩
          rw [List.forall_mem_append]
          refine ⟨hentries, ?_⟩
          cases hrules : g.rules.getD [] with
          | nil => exact List.forall_mem_nil _
          | cons rule rules =>
              have hsome : g.rules = some (rule :: rules) := by
                cases hg : g.rules with
                | none =>
                    rw [hg] at hrules
                    cases hrules
                | some rules' =>
                    rw [hg] at hrules
                    exact congrArg some hrules
              obtain ⟨e, he, hlist⟩ := hfrom.rules _ hsome
              obtain ⟨hpose, hparts⟩ := Doc.mem_of_list hlist
              have hcovers : e.Covers kind.Supplied
                  (.arr ((rule :: rules).map Permission.json)) := by
                refine Doc.covers_list hpose fun p hp => ?_
                obtain ⟨e', he', hread⟩ := hparts p hp
                exact ⟨e', he', (Permission.covers hread).mono fun _ => trivial⟩
              rw [List.forall_mem_singleton]
              exact hcovers.holds he
        · cases h
  | _ => cases h

end Field

/-! ### Tables, fragments and the metadata -/

/-- Every call in the table has an argument. -/
def Table.Supplied (t : Table) : Prop := ∀ f ∈ t.fields, f.2.kind.Supplied

/-- Every call in the metadata has an argument. -/
def Metadata.Supplied (m : Metadata) : Prop := ∀ t ∈ m.tables, t.2.Supplied

theorem Table.covers {d : Doc} {t : Table} (h : read d = .ok t) :
    t.Distinct ∧ d.Covers t.Supplied t.json := by
  obtain ⟨⟨line, fields, indexes, _⟩, hrecord, h⟩ := Read.bind_eq_ok.mp h
  obtain ⟨hpos, hfields, hindexes, -⟩ := Doc.record_from hrecord
  obtain ⟨fields', hfields', h⟩ := Read.bind_eq_ok.mp h
  cases h
  obtain ⟨e, he, hentries⟩ := hfields fields' (required_eq_ok.mp hfields')
  obtain ⟨hpose, hkeys, hparts⟩ := Doc.mem_of_entries hentries
  have hmap : e.Covers (Table.Supplied ⟨fields', indexes.getD []⟩)
      (.obj (fields'.map fun x => (x.1, x.2.json))) := by
    refine Doc.covers_map hpose fun x hx => ?_
    obtain ⟨e', he', hread⟩ := hparts x hx
    exact ⟨e', he', (Field.covers hread).2.mono fun hsupplied => hsupplied x hx⟩
  have hindexes' : ∀ is, indexes = some is → (∀ i ∈ is, i.Distinct) ∧
      d.Holds True (.arr (is.map IndexInfo.json)) := by
    intro is his
    obtain ⟨ei, hei, hlist⟩ := hindexes is his
    obtain ⟨hposi, hpartsi⟩ := Doc.mem_of_list hlist
    constructor
    · intro i hi
      obtain ⟨e', -, hread⟩ := hpartsi i hi
      exact (IndexInfo.covers hread).1
    · have hcovers : ei.Covers True (.arr (is.map IndexInfo.json)) := by
        refine Doc.covers_list hposi fun i hi => ?_
        obtain ⟨e', he', hread⟩ := hpartsi i hi
        exact ⟨e', he', (IndexInfo.covers hread).2⟩
      exact hcovers.holds hei
  constructor
  · refine ⟨hkeys, fun x hx => ?_, ?_⟩
    · obtain ⟨e', -, hread⟩ := hparts x hx
      exact (Field.covers hread).1
    · cases indexes with
      | none => exact List.forall_mem_nil _
      | some is => exact (hindexes' is rfl).1
  · refine Doc.covers_obj hpos ?_
    rw [List.forall_mem_cons]
    refine ⟨hmap.holds he, ?_⟩
    cases indexes with
    | none => exact List.forall_mem_nil _
    | some is =>
        cases is with
        | nil => exact List.forall_mem_nil _
        | cons i is =>
            have hholds := (hindexes' (i :: is) rfl).2
            exact List.forall_mem_singleton.mpr (hholds.mono fun _ => trivial)

theorem Selection.covers {d : Doc} {s : Selection} (h : read d = .ok s) :
    d.Covers True s.json := by
  unfold read at h
  split at h
  · cases h
  · split at h
    · cases h
      exact ⟨fun _ => Nat.zero_le _, fun _ => trivial⟩
    · split at h
      · rename_i hobject
        cases h
        obtain ⟨hpos, -⟩ := Doc.object_from hobject
        refine Doc.covers_obj hpos ?_
        simp only [List.forall_mem_cons]
        exact ⟨Doc.holds_str hpos _, Doc.holds_str hpos _, List.forall_mem_nil _⟩
      · cases h

theorem Fragment.covers {d : Doc} {f : Fragment} (h : read d = .ok f) :
    d.Covers True f.json := by
  obtain ⟨⟨line, table, selections, _⟩, hrecord, h⟩ := Read.bind_eq_ok.mp h
  obtain ⟨hpos, -, hselections, -⟩ := Doc.record_from hrecord
  obtain ⟨table', -, h⟩ := Read.bind_eq_ok.mp h
  obtain ⟨selections', hselections', h⟩ := Read.bind_eq_ok.mp h
  cases h
  obtain ⟨e, he, hlist⟩ := hselections selections' (required_eq_ok.mp hselections')
  obtain ⟨hpose, hparts⟩ := Doc.mem_of_list hlist
  have hcovers : e.Covers True (.arr (selections'.map Selection.json)) := by
    refine Doc.covers_list hpose fun s hs => ?_
    obtain ⟨e', he', hread⟩ := hparts s hs
    exact ⟨e', he', Selection.covers hread⟩
  refine Doc.covers_obj hpos ?_
  simp only [List.forall_mem_cons]
  exact ⟨Doc.holds_str hpos _, hcovers.holds he, List.forall_mem_nil _⟩

theorem Metadata.covers {d : Doc} {m : Metadata} (h : read d = .ok m) :
    m.Distinct ∧ d.Covers m.Supplied m.json := by
  obtain ⟨⟨line, tables, fragments, _⟩, hrecord, h⟩ := Read.bind_eq_ok.mp h
  obtain ⟨hpos, htables, hfragments, -⟩ := Doc.record_from hrecord
  obtain ⟨tables', htables', h⟩ := Read.bind_eq_ok.mp h
  cases h
  obtain ⟨e, he, hsorted⟩ := htables tables' (required_eq_ok.mp htables')
  obtain ⟨hpose, hkeys, hparts⟩ := Doc.mem_of_sorted hsorted
  have hmap : e.Covers (Metadata.Supplied ⟨tables', fragments.getD []⟩)
      (.obj (tables'.map fun x => (x.1, x.2.json))) := by
    refine Doc.covers_map hpose fun x hx => ?_
    obtain ⟨e', he', hread⟩ := hparts x hx
    exact ⟨e', he', (Table.covers hread).2.mono fun hsupplied => hsupplied x hx⟩
  -- no fragments are written as an empty object, which is nested no deeper than the tables
  have hrest : Entries.Increasing (fragments.getD []) ∧
      d.Holds True (.obj ((fragments.getD []).map fun x => (x.1, x.2.json))) := by
    cases fragments with
    | none =>
        refine ⟨List.Pairwise.nil, fun _ => ?_, fun _ => trivial⟩
        exact Nat.lt_of_le_of_lt hpose (Doc.bounds_of_mem he).1
    | some fs =>
        obtain ⟨ef, hef, hsortedf⟩ := hfragments fs rfl
        obtain ⟨hposf, hkeysf, hpartsf⟩ := Doc.mem_of_sorted hsortedf
        have hcovers : ef.Covers True (.obj (fs.map fun x => (x.1, x.2.json))) := by
          refine Doc.covers_map hposf fun x hx => ?_
          obtain ⟨e', he', hread⟩ := hpartsf x hx
          exact ⟨e', he', Fragment.covers hread⟩
        exact ⟨hkeysf, hcovers.holds hef⟩
  constructor
  · refine ⟨hkeys, hrest.1, fun x hx => ?_⟩
    obtain ⟨e', -, hread⟩ := hparts x hx
    exact (Table.covers hread).1
  · refine Doc.covers_obj hpos ?_
    simp only [List.forall_mem_cons]
    exact ⟨hmap.holds he, hrest.2.mono fun _ => trivial, List.forall_mem_nil _⟩

/-! ### Configurations -/

theorem Settings.covers {d : Doc} {s : Settings} (h : read d = .ok s) :
    d.Covers True s.json := by
  obtain ⟨⟨line, depth, table, _⟩, hrecord, -⟩ := Read.bind_eq_ok.mp h
  obtain ⟨hpos, -⟩ := Doc.record_from hrecord
  refine Doc.covers_obj hpos ?_
  simp only [List.forall_mem_cons]
  exact ⟨Doc.holds_int hpos (intRange_word s.maxFragmentDepth), Doc.holds_str hpos _,
    List.forall_mem_nil _⟩

/-- A configuration as it is read.  The settings and the metadata are written even if they are not
there, which takes three levels. -/
theorem Configuration.covers {d : Doc} {c : Configuration} (h : read d = .ok c) :
    c.Distinct ∧ (c.metadata.Supplied → c.json.depth ≤ max d.depth 3) ∧
      (d.Whole → c.json.Whole) := by
  obtain ⟨⟨line, version, settings, metadata, _⟩, hrecord, h⟩ := Read.bind_eq_ok.mp h
  obtain ⟨hpos, -, hsettings, hmetadata, -⟩ := Doc.record_from hrecord
  obtain ⟨version', -, h⟩ := Read.bind_eq_ok.mp h
  cases h
  have hleft : d.depth ≤ max d.depth 3 := Nat.le_max_left ..
  have hright : 3 ≤ max d.depth 3 := Nat.le_max_right ..
  have hs : (settings.getD .default).json.depth < max d.depth 3 ∧
      (d.Whole → (settings.getD .default).json.Whole) := by
    cases settings with
    | none =>
        refine ⟨Nat.lt_of_lt_of_le (by decide) hright, fun _ => ?_⟩
        exact ⟨intRange_word _, trivial, trivial⟩
    | some s =>
        obtain ⟨e, he, hread⟩ := hsettings s rfl
        have hholds := (Settings.covers hread).holds he
        exact ⟨Nat.lt_of_lt_of_le (hholds.depth trivial) hleft, hholds.whole⟩
  have hm : (metadata.getD .empty).Distinct ∧
      ((metadata.getD .empty).Supplied → (metadata.getD .empty).json.depth < max d.depth 3) ∧
      (d.Whole → (metadata.getD .empty).json.Whole) := by
    cases metadata with
    | none =>
        refine ⟨⟨.nil, .nil, List.forall_mem_nil _⟩, fun _ => ?_, fun _ => ⟨trivial, trivial, trivial⟩⟩
        exact Nat.lt_of_lt_of_le (by decide) hright
    | some m =>
        obtain ⟨e, he, hread⟩ := hmetadata m rfl
        obtain ⟨hdistinct, hcovers⟩ := Metadata.covers hread
        have hholds := hcovers.holds he
        exact ⟨hdistinct, fun hf => Nat.lt_of_lt_of_le (hholds.depth hf) hleft, hholds.whole⟩
  refine ⟨hm.1, fun hf => ?_, fun hd => ⟨intRange_word version', hs.2 hd, hm.2.2 hd, trivial⟩⟩
  have hdepth := hm.2.1 hf
  simp only [json, Json.depth, Json.depthEntries]
  omega

end ShapedQuery
