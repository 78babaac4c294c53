import ShapedQuery.Proofs.JsonText
import ShapedQuery.Proofs.Showing

/-! # Documents from tokens

From the tokens of a value the reader builds a document that shows it down to the depth that is
allowed (`Reading.ofText_pretty_to`), and so all of it if the value is not nested too deep
(`Reading.ofText_pretty`).  Which containers are open does not matter, only how many they are, so the
statement is about any stack of them.

Conversely, whatever the text is, its document is nested no deeper than is allowed, and its numbers
are those of the text: if these are whole and in range, they are so all over the document
(`Reading.fits_ofText`). -/

namespace ShapedQuery

open Token (Placed)

/-! ### Documents that show a part of a value -/

mutual

/-- The document shows the value down to `k` levels of containers, and what is nested deeper is
lost. -/
inductive Doc.ShowsTo : Nat → Doc → Json → Prop
  | leaf {k : Nat} {d : Doc} {j : Json} (h : d.Shows j) (hdepth : j.depth = 0) : Doc.ShowsTo k d j
  | arr {k line : Nat} {items : Items} {js : List Json} (h : Items.ShowsTo k items js) :
      Doc.ShowsTo (k + 1) (.arr line items) (.arr js)
  | obj {k line : Nat} {members : Members} {es : List (String × Json)}
      (h : Members.ShowsTo k members es) : Doc.ShowsTo (k + 1) (.obj line members) (.obj es)
  | lost {line : Nat} {skipped : Option Nat} {j : Json} (h : 0 < j.depth) :
      Doc.ShowsTo 0 (.fault line skipped) j

inductive Items.ShowsTo : Nat → Items → List Json → Prop
  | closed {k line : Nat} : Items.ShowsTo k (.closed line) []
  | cons {k : Nat} {value : Doc} {after : Nat} {rest : Items} {j : Json} {js : List Json}
      (hvalue : Doc.ShowsTo k value j) (hrest : Items.ShowsTo k rest js) :
      Items.ShowsTo k (.cons value after rest) (j :: js)

inductive Members.ShowsTo : Nat → Members → List (String × Json) → Prop
  | closed {k line : Nat} : Members.ShowsTo k (.closed line) []
  | cons {k : Nat} {key : String} {colon : Nat} {value : Doc} {after : Nat} {rest : Members}
      {j : Json} {es : List (String × Json)} (hvalue : Doc.ShowsTo k value j)
      (hrest : Members.ShowsTo k rest es) :
      Members.ShowsTo k (.cons (.ok key) colon value after rest) ((key, j) :: es)

end

theorem Items.ShowsTo.shows {k : Nat} {items : Items} {js : List Json} (h : items.ShowsTo k js)
    (hdepth : Json.depthItems js ≤ k)
    (ih : ∀ j ∈ js, ∀ d : Doc, d.ShowsTo k j → j.depth ≤ k → d.Shows j) : items.Shows js := by
  induction js generalizing items with
  | nil =>
      cases h
      exact .closed
  | cons j js ihjs =>
      cases h with
      | cons hvalue hrest =>
          rw [List.forall_mem_cons] at ih
          rw [Json.depthItems, Nat.max_le] at hdepth
          exact .cons (ih.1 _ hvalue hdepth.1) (ihjs hrest hdepth.2 ih.2)

theorem Members.ShowsTo.shows {k : Nat} {ms : Members} {es : List (String × Json)}
    (h : ms.ShowsTo k es) (hdepth : Json.depthEntries es ≤ k)
    (ih : ∀ e ∈ es, ∀ d : Doc, d.ShowsTo k e.2 → e.2.depth ≤ k → d.Shows e.2) : ms.Shows es := by
  induction es generalizing ms with
  | nil =>
      cases h
      exact .closed
  | cons e es ihes =>
      cases h with
      | cons hvalue hrest =>
          rw [List.forall_mem_cons] at ih
          rw [Json.depthEntries, Nat.max_le] at hdepth
          exact .cons (ih.1 _ hvalue hdepth.1) (ihes hrest hdepth.2 ih.2)

/-- Nothing is lost of a value that is not nested deeper. -/
theorem Doc.ShowsTo.shows {k : Nat} {d : Doc} {j : Json} (h : d.ShowsTo k j)
    (hdepth : j.depth ≤ k) : d.Shows j := by
  induction j using Json.induct generalizing k d with
  | arr items ih =>
      cases h with
      | leaf h => exact h
      | arr h => exact .arr (h.shows (Nat.le_of_succ_le_succ hdepth) fun j hj d => ih j hj)
      | lost => exact absurd hdepth (Nat.not_succ_le_zero _)
  | obj es ih =>
      cases h with
      | leaf h => exact h
      | obj h => exact .obj (h.shows (Nat.le_of_succ_le_succ hdepth) fun e he d => ih e he)
      | lost => exact absurd hdepth (Nat.not_succ_le_zero _)
  | _ =>
      cases h with
      | leaf h => exact h
      | lost h => exact absurd h (Nat.lt_irrefl _)

namespace Doc

/-- Read some tokens. -/
def State.run (s : State) (ps : List Placed) : State := ps.foldl (fun state t => state.step t) s

theorem State.run_cons (s : State) (t : Placed) (ps : List Placed) :
    s.run (t :: ps) = (s.step t).run ps := rfl

theorem State.run_append (s : State) (ps qs : List Placed) :
    s.run (ps ++ qs) = (s.run ps).run qs := List.foldl_append

/-! ### Containers under way -/

/-- How deep a value inside some containers may be nested. -/
def room (outer : List Frame) : Nat := maxDepth - outer.length

/-- The items read so far show these values, whatever comes after them. -/
def ItemsShow (k : Nat) (done : List (Doc × Nat)) (js : List Json) : Prop :=
  ∀ tail js', tail.ShowsTo k js' → (itemsBefore tail done).ShowsTo k (js ++ js')

/-- The members read so far show these entries, whatever comes after them. -/
def MembersShow (k : Nat) (done : List Member) (es : List (String × Json)) : Prop :=
  ∀ tail es', tail.ShowsTo k es' → (membersBefore tail done).ShowsTo k (es ++ es')

theorem itemsShow_nil (k : Nat) : ItemsShow k [] [] := fun _ _ h => h

theorem membersShow_nil (k : Nat) : MembersShow k [] [] := fun _ _ h => h

theorem ItemsShow.cons {k : Nat} {done : List (Doc × Nat)} {js : List Json}
    (h : ItemsShow k done js) {d : Doc} {j : Json} (hd : d.ShowsTo k j) (after : Nat) :
    ItemsShow k ((d, after) :: done) (js ++ [j]) := by
  intro tail js' htail
  rw [List.append_assoc, List.singleton_append]
  exact h _ _ (.cons hd htail)

theorem MembersShow.cons {k : Nat} {done : List Member} {es : List (String × Json)}
    (h : MembersShow k done es) {d : Doc} {j : Json} (hd : d.ShowsTo k j) (key : String)
    (colon after : Nat) :
    MembersShow k (⟨.ok key, colon, d, after⟩ :: done) (es ++ [(key, j)]) := by
  intro tail es' htail
  rw [List.append_assoc, List.singleton_append]
  exact h _ _ (.cons hd htail)

/-- A container shows what its contents show, unless it is nested too deep and lost. -/
theorem guarded_showsTo {outer : List Frame} {j : Json} (hj : 0 < j.depth) (line : Nat)
    (skipped : Option Nat) {doc : Doc} (h : doc.ShowsTo (room outer - 1 + 1) j) :
    (guarded outer line skipped doc).ShowsTo (room outer) j := by
  unfold guarded
  split
  · have hroom : room outer - 1 + 1 = room outer := by
      unfold room
      omega
    exact hroom ▸ h
  · have hroom : room outer = 0 := by
      unfold room
      omega
    exact hroom ▸ .lost hj

/-- An array that closes hands a document that shows its items to the container around it. -/
theorem closeArr_shows {outer : List Frame} {done : List (Doc × Nat)} {js : List Json}
    (h : ItemsShow (room outer - 1) done js) (line close : Nat) :
    ∃ d, d.ShowsTo (room outer) (.arr js) ∧ closeArr line done close outer = receive d outer := by
  have hitems := h (.closed close) [] .closed
  rw [List.append_nil] at hitems
  have hdepth : 0 < (Json.arr js).depth := Nat.succ_pos _
  exact ⟨_, guarded_showsTo hdepth _ _ (.arr hitems), rfl⟩

/-- An object that closes hands a document that shows its entries to the container around it. -/
theorem closeObj_shows {outer : List Frame} {done : List Member} {es : List (String × Json)}
    (h : MembersShow (room outer - 1) done es) (line close : Nat) :
    ∃ d, d.ShowsTo (room outer) (.obj es) ∧ closeObj line done close outer = receive d outer := by
  have hmembers := h (.closed close) [] .closed
  rw [List.append_nil] at hmembers
  have hdepth : 0 < (Json.obj es).depth := Nat.succ_pos _
  exact ⟨_, guarded_showsTo hdepth _ _ (.obj hmembers), rfl⟩

/-! ### The document of a value -/

/-- From the tokens of the value, read where a value should start, comes a document that shows it as
far as there is room.  No value starts like the end of an array. -/
def Builds (j : Json) : Prop :=
  ∀ ps : List Placed, ps.map Placed.token = j.tokens →
    ∃ t rest, ps = t :: rest ∧ t.token ≠ .closeArr ∧
      ∀ outer : List Frame,
        ∃ d, d.ShowsTo (room outer) j ∧ (startValue outer t).run rest = receive d outer

/-- A value that is a single token. -/
theorem builds_of_token {j : Json} {token : Token} (htokens : j.tokens = [token])
    (hopen : token ≠ .closeArr) (hdepth : j.depth = 0)
    (hstart : ∀ (t : Placed) outer, t.token = token →
      ∃ d, d.Shows j ∧ startValue outer t = receive d outer) : Builds j := by
  intro ps hps
  rw [htokens, List.map_eq_singleton_iff] at hps
  obtain ⟨t, rfl, ht⟩ := hps
  refine ⟨t, [], rfl, ht ▸ hopen, fun outer => ?_⟩
  obtain ⟨d, hd, hrun⟩ := hstart t outer ht
  exact ⟨d, .leaf hd hdepth, hrun⟩

/-- The further items of an array, by induction over them. -/
theorem run_items {js : List Json} (h : ∀ j ∈ js, Builds j) (line : Nat) (outer : List Frame)
    {done : List (Doc × Nat)} {js₀ : List Json} (hdone : ItemsShow (room outer - 1) done js₀)
    {item : Doc} {j₀ : Json} (hitem : item.ShowsTo (room outer - 1) j₀)
    {ps : List Placed} (hps : ps.map Placed.token = Json.itemTokens js) :
    ∃ close done', ItemsShow (room outer - 1) done' (js₀ ++ j₀ :: js) ∧
      (State.afterItem line done item outer).run ps = closeArr line done' close outer := by
  induction js generalizing done js₀ item j₀ ps with
  | nil =>
      rw [Json.itemTokens, List.map_eq_singleton_iff] at hps
      obtain ⟨t, rfl, ht⟩ := hps
      refine ⟨t.line, _, hdone.cons hitem t.line, ?_⟩
      simp [State.run, State.step, ht]
  | cons j js ih =>
      rw [List.forall_mem_cons] at h
      rw [Json.itemTokens, List.map_eq_cons_iff] at hps
      obtain ⟨comma, ps, rfl, hcomma, hps⟩ := hps
      obtain ⟨ps₁, ps₂, rfl, hps₁, hps₂⟩ := List.map_eq_append_iff.mp hps
      obtain ⟨t, rest, rfl, -, hrun⟩ := h.1 ps₁ hps₁
      obtain ⟨d, hd, hrun⟩ := hrun (.arr line ((item, t.line) :: done) :: outer)
      obtain ⟨close, done', hdone', hclose⟩ := ih h.2 (hdone.cons hitem t.line) hd hps₂
      refine ⟨close, done', by simpa using hdone', ?_⟩
      have hstep : (State.afterItem line done item outer).step comma =
          .nextItem line done item outer := by
        simp [State.step, hcomma]
      rw [State.run_cons, hstep, List.cons_append, State.run_cons, State.run_append]
      exact (congrArg (State.run · ps₂) hrun).trans hclose

/-- A colon and the value of a member. -/
theorem run_member {j : Json} (h : Builds j) (line : Nat) (outer : List Frame)
    (done : List Member) (key : String) {ps : List Placed} {ts : List Token}
    (hps : ps.map Placed.token = .colon :: (j.tokens ++ ts)) :
    ∃ mid d ps', d.ShowsTo (room outer - 1) j ∧ ps'.map Placed.token = ts ∧
      (State.colon line done (.ok key) outer).run ps =
        (State.afterMember line done (.ok key) mid d outer).run ps' := by
  rw [List.map_eq_cons_iff] at hps
  obtain ⟨colon, ps, rfl, hcolon, hps⟩ := hps
  obtain ⟨ps₁, ps₂, rfl, hps₁, hps₂⟩ := List.map_eq_append_iff.mp hps
  obtain ⟨t, rest, rfl, -, hrun⟩ := h ps₁ hps₁
  obtain ⟨d, hd, hrun⟩ := hrun (.obj line done (.ok key) colon.line :: outer)
  refine ⟨colon.line, d, ps₂, hd, hps₂, ?_⟩
  have hstep : (State.colon line done (.ok key) outer).step colon =
      .value (.obj line done (.ok key) colon.line :: outer) := by
    simp [State.step, hcolon]
  rw [State.run_cons, hstep, List.cons_append, State.run_cons, State.run_append]
  exact congrArg (State.run · ps₂) hrun

/-- The further entries of an object, by induction over them. -/
theorem run_entries {es : List (String × Json)} (h : ∀ e ∈ es, Builds e.2) (line : Nat)
    (outer : List Frame) {done : List Member} {es₀ : List (String × Json)}
    (hdone : MembersShow (room outer - 1) done es₀) {key : String} {mid : Nat} {value : Doc}
    {j₀ : Json} (hvalue : value.ShowsTo (room outer - 1) j₀) {ps : List Placed}
    (hps : ps.map Placed.token = Json.entryTokens es) :
    ∃ close done', MembersShow (room outer - 1) done' (es₀ ++ (key, j₀) :: es) ∧
      (State.afterMember line done (.ok key) mid value outer).run ps =
        closeObj line done' close outer := by
  induction es generalizing done es₀ key mid value j₀ ps with
  | nil =>
      rw [Json.entryTokens, List.map_eq_singleton_iff] at hps
      obtain ⟨t, rfl, ht⟩ := hps
      refine ⟨t.line, _, hdone.cons hvalue key mid t.line, ?_⟩
      simp [State.run, State.step, ht]
  | cons e es ih =>
      rw [List.forall_mem_cons] at h
      rw [Json.entryTokens, List.map_eq_cons_iff] at hps
      obtain ⟨comma, ps, rfl, hcomma, hps⟩ := hps
      rw [List.map_eq_cons_iff] at hps
      obtain ⟨name, ps, rfl, hname, hps⟩ := hps
      obtain ⟨mid', d, ps', hd, hps', hrun⟩ := run_member h.1 line outer
        (⟨.ok key, mid, value, comma.line⟩ :: done) e.1 hps
      obtain ⟨close, done', hdone', hclose⟩ :=
        ih h.2 (hdone.cons hvalue key mid comma.line) hd hps'
      refine ⟨close, done', by simpa using hdone', ?_⟩
      have hstep : ((State.afterMember line done (.ok key) mid value outer).step comma).step name =
          .colon line (⟨.ok key, mid, value, comma.line⟩ :: done) (.ok e.1) outer := by
        simp [State.step, startKey, hcomma, hname]
      rw [State.run_cons, State.run_cons, hstep, hrun, hclose]

/-- A document is built for every value, by induction over it. -/
theorem builds (j : Json) (h : j.Whole) : Builds j := by
  induction j using Json.induct with
  | null =>
      refine builds_of_token rfl (by simp) rfl fun t outer ht => ⟨.null t.line, .null, ?_⟩
      simp [startValue, ht]
  | bool b =>
      refine builds_of_token rfl (by simp) rfl fun t outer ht => ⟨.bool t.line b, .bool, ?_⟩
      simp [startValue, ht]
  | int n =>
      refine builds_of_token rfl (by simp) rfl fun t outer ht => ⟨.int t.line n, .int, ?_⟩
      simp [startValue, ht, ofNumeral, Numeral.value?_ofInt h]
  | float x =>
      refine builds_of_token rfl (by simp) rfl fun t outer ht => ⟨.float t.line x, .float, ?_⟩
      cases h
      simp [startValue, ht, ofNumeral, Numeral.value?_negZero]
  | str s =>
      refine builds_of_token rfl (by simp) rfl fun t outer ht => ⟨.str t.line s, .str, ?_⟩
      simp [startValue, ht, ofString]
  | arr items ih =>
      have hitems := Json.wholeItems_iff.mp h
      intro ps hps
      cases items with
      | nil =>
          rw [Json.tokens, List.map_eq_cons_iff] at hps
          obtain ⟨t, ps, rfl, ht, hps⟩ := hps
          obtain ⟨close, rfl, hclose⟩ := List.map_eq_singleton_iff.mp hps
          refine ⟨t, [close], rfl, by simp [ht], fun outer => ?_⟩
          obtain ⟨d, hd, hrun⟩ := closeArr_shows (itemsShow_nil (room outer - 1)) t.line close.line
          refine ⟨d, hd, ?_⟩
          simp [startValue, ht, State.run, State.step, hclose, hrun]
      | cons j js =>
          rw [List.forall_mem_cons] at ih hitems
          rw [Json.tokens, List.map_eq_cons_iff] at hps
          obtain ⟨t, ps, rfl, ht, hps⟩ := hps
          obtain ⟨ps₁, ps₂, rfl, hps₁, hps₂⟩ := List.map_eq_append_iff.mp hps
          obtain ⟨first, rest, rfl, hfirst, hrun⟩ := ih.1 hitems.1 ps₁ hps₁
          refine ⟨t, _, rfl, by simp [ht], fun outer => ?_⟩
          obtain ⟨d, hd, hrun⟩ := hrun (.arr t.line [] :: outer)
          obtain ⟨close, done, hdone, hclose⟩ := run_items
            (fun j hj => ih.2 j hj (hitems.2 j hj)) t.line outer (itemsShow_nil _) hd hps₂
          obtain ⟨d', hd', hreceive⟩ := closeArr_shows hdone t.line close
          refine ⟨d', hd', ?_⟩
          have hopen : startValue outer t = .firstItem t.line outer := by
            simp [startValue, ht]
          have hstep : (State.firstItem t.line outer).step first =
              startValue (.arr t.line [] :: outer) first := by
            rw [State.step]
            split
            · rename_i heq
              exact absurd heq hfirst
            · rfl
          rw [hopen, List.cons_append, State.run_cons, hstep, State.run_append, hrun, receive,
            hclose, hreceive]
  | obj es ih =>
      have hentries := Json.wholeEntries_iff.mp h
      intro ps hps
      cases es with
      | nil =>
          rw [Json.tokens, List.map_eq_cons_iff] at hps
          obtain ⟨t, ps, rfl, ht, hps⟩ := hps
          obtain ⟨close, rfl, hclose⟩ := List.map_eq_singleton_iff.mp hps
          refine ⟨t, [close], rfl, by simp [ht], fun outer => ?_⟩
          obtain ⟨d, hd, hrun⟩ :=
            closeObj_shows (membersShow_nil (room outer - 1)) t.line close.line
          refine ⟨d, hd, ?_⟩
          simp [startValue, ht, State.run, State.step, hclose, hrun]
      | cons e es =>
          rw [List.forall_mem_cons] at ih hentries
          rw [Json.tokens, List.map_eq_cons_iff] at hps
          obtain ⟨t, ps, rfl, ht, hps⟩ := hps
          rw [List.map_eq_cons_iff] at hps
          obtain ⟨name, ps, rfl, hname, hps⟩ := hps
          refine ⟨t, _, rfl, by simp [ht], fun outer => ?_⟩
          obtain ⟨mid, d, ps', hd, hps', hrun⟩ := run_member (ih.1 hentries.1) t.line outer [] e.1 hps
          obtain ⟨close, done, hdone, hclose⟩ := run_entries
            (fun e he => ih.2 e he (hentries.2 e he)) t.line outer (membersShow_nil _) hd hps'
          obtain ⟨d', hd', hreceive⟩ := closeObj_shows hdone t.line close
          refine ⟨d', hd', ?_⟩
          have hopen : startValue outer t = .firstKey t.line outer := by
            simp [startValue, ht]
          have hstep : (State.firstKey t.line outer).step name =
              .colon t.line [] (.ok e.1) outer := by
            simp [State.step, startKey, hname]
          rw [hopen, State.run_cons, hstep, hrun, hclose, hreceive]

end Doc

/-- The text of a value, with a line break behind it, is read as a document that shows it as deep as
values may be nested. -/
theorem Reading.ofText_pretty_to {j : Json} (h : j.Whole) :
    ∃ d, d.ShowsTo Doc.maxDepth j ∧ Reading.ofText (j.pretty ++ "\n") = ⟨d, none⟩ := by
  obtain ⟨ps, line, hscan, hps⟩ := Json.scan_pretty h
  obtain ⟨t, rest, rfl, -, hrun⟩ := Doc.builds j h ps hps
  obtain ⟨d, hd, hrun⟩ := hrun []
  refine ⟨d, hd, ?_⟩
  have hvalue : (Doc.State.value []).run (t :: rest) = .complete d := hrun
  have hread : (Doc.State.value []).run (t :: rest ++ [⟨line, .eof⟩]) = .ended d none := by
    rw [Doc.State.run_append, hvalue]
    rfl
  rw [Reading.ofText, hscan]
  exact congrArg Doc.State.reading hread

/-- The text of a value that is not nested too deep is read as a document that shows it. -/
theorem Reading.ofText_pretty {j : Json} (h : j.Whole) (hdepth : j.depth ≤ Doc.maxDepth) :
    ∃ d, d.Shows j ∧ Reading.ofText (j.pretty ++ "\n") = ⟨d, none⟩ := by
  obtain ⟨d, hd, htext⟩ := Reading.ofText_pretty_to h
  exact ⟨d, hd.shows hdepth, htext⟩

/-! ### What holds of every document -/

mutual

/-- All numbers are whole and in range. -/
def Doc.Whole : Doc → Prop
  | .int _ n => Json.IntRange n
  | .float _ x => x = .negZero
  | .arr _ items => items.Whole
  | .obj _ members => members.Whole
  | _ => True

def Items.Whole : Items → Prop
  | .cons value _ rest => value.Whole ∧ rest.Whole
  | _ => True

def Members.Whole : Members → Prop
  | .cons _ _ value _ rest => value.Whole ∧ rest.Whole
  | _ => True

end

namespace Doc

/-- The numbers are whole, and containers are nested at most `k` deep. -/
def Fits (k : Nat) (d : Doc) : Prop := d.Whole ∧ d.depth ≤ k

/-- The values read so far fit into the innermost container, and so on outwards. -/
def FramesFit : List Frame → Prop
  | [] => True
  | .arr _ done :: outer => (∀ p ∈ done, p.1.Fits (room outer - 1)) ∧ FramesFit outer
  | .obj _ done _ _ :: outer => (∀ m ∈ done, m.value.Fits (room outer - 1)) ∧ FramesFit outer

/-- All values that a state holds fit where they stand. -/
def State.Fit : State → Prop
  | .value outer => FramesFit outer
  | .firstItem _ outer => FramesFit outer
  | .afterItem _ done item outer =>
    (∀ p ∈ done, p.1.Fits (room outer - 1)) ∧ item.Fits (room outer - 1) ∧ FramesFit outer
  | .nextItem _ done item outer =>
    (∀ p ∈ done, p.1.Fits (room outer - 1)) ∧ item.Fits (room outer - 1) ∧ FramesFit outer
  | .firstKey _ outer => FramesFit outer
  | .nextKey _ done outer => (∀ m ∈ done, m.value.Fits (room outer - 1)) ∧ FramesFit outer
  | .colon _ done _ outer => (∀ m ∈ done, m.value.Fits (room outer - 1)) ∧ FramesFit outer
  | .afterMember _ done _ _ v outer =>
    (∀ m ∈ done, m.value.Fits (room outer - 1)) ∧ v.Fits (room outer - 1) ∧ FramesFit outer
  | .complete doc => doc.Fits maxDepth
  | .ended doc _ => doc.Fits maxDepth

/-! ### Containers -/

theorem itemsBefore_fits {k : Nat} {done : List (Doc × Nat)} (h : ∀ p ∈ done, p.1.Fits k)
    {tail : Items} (htail : tail.Whole ∧ tail.depth ≤ k) :
    (itemsBefore tail done).Whole ∧ (itemsBefore tail done).depth ≤ k := by
  induction done generalizing tail with
  | nil => exact htail
  | cons p done ih =>
      rw [List.forall_mem_cons] at h
      refine ih h.2 ⟨⟨h.1.1, htail.1⟩, ?_⟩
      have hvalue := h.1.2
      have hrest := htail.2
      rw [Items.depth]
      omega

theorem membersBefore_fits {k : Nat} {done : List Member} (h : ∀ m ∈ done, m.value.Fits k)
    {tail : Members} (htail : tail.Whole ∧ tail.depth ≤ k) :
    (membersBefore tail done).Whole ∧ (membersBefore tail done).depth ≤ k := by
  induction done generalizing tail with
  | nil => exact htail
  | cons m done ih =>
      rw [List.forall_mem_cons] at h
      refine ih h.2 ⟨⟨h.1.1, htail.1⟩, ?_⟩
      have hvalue := h.1.2
      have hrest := htail.2
      rw [Members.depth]
      omega

/-- An array fits if its items do: it is a fault where it would be nested too deep. -/
theorem guarded_arr_fits {outer : List Frame} {line first : Nat} {skipped : Option Nat}
    {done : List (Doc × Nat)} {tail : Items} (h : ∀ p ∈ done, p.1.Fits (room outer - 1))
    (htail : tail.Whole ∧ tail.depth = 0) :
    (guarded outer line skipped (.arr first (itemsBefore tail done))).Fits (room outer) := by
  obtain ⟨hwhole, hdepth⟩ := itemsBefore_fits h ⟨htail.1, by omega⟩
  unfold guarded room at *
  split
  · refine ⟨hwhole, ?_⟩
    rw [Doc.depth]
    omega
  · exact ⟨trivial, Nat.zero_le _⟩

theorem guarded_obj_fits {outer : List Frame} {line first : Nat} {skipped : Option Nat}
    {done : List Member} {tail : Members} (h : ∀ m ∈ done, m.value.Fits (room outer - 1))
    (htail : tail.Whole ∧ tail.depth = 0) :
    (guarded outer line skipped (.obj first (membersBefore tail done))).Fits (room outer) := by
  obtain ⟨hwhole, hdepth⟩ := membersBefore_fits h ⟨htail.1, by omega⟩
  unfold guarded room at *
  split
  · refine ⟨hwhole, ?_⟩
    rw [Doc.depth]
    omega
  · exact ⟨trivial, Nat.zero_le _⟩

theorem receive_fit {d : Doc} {outer : List Frame} (hd : d.Fits (room outer))
    (h : FramesFit outer) : (receive d outer).Fit := by
  cases outer with
  | nil => exact hd
  | cons frame outer =>
      cases frame with
      | arr line done => exact ⟨h.1, hd, h.2⟩
      | obj line done key colon => exact ⟨h.1, hd, h.2⟩

theorem closeArr_fit {line close : Nat} {done : List (Doc × Nat)} {outer : List Frame}
    (hdone : ∀ p ∈ done, p.1.Fits (room outer - 1)) (h : FramesFit outer) :
    (closeArr line done close outer).Fit :=
  receive_fit (guarded_arr_fits hdone ⟨trivial, rfl⟩) h

theorem closeObj_fit {line close : Nat} {done : List Member} {outer : List Frame}
    (hdone : ∀ m ∈ done, m.value.Fits (room outer - 1)) (h : FramesFit outer) :
    (closeObj line done close outer).Fit :=
  receive_fit (guarded_obj_fits hdone ⟨trivial, rfl⟩) h

/-- A document that breaks off, by induction over the containers around the place. -/
theorem abandon_fits {line skipped : Nat} {outer : List Frame} (h : FramesFit outer) {d : Doc}
    (hd : d.Fits (room outer)) : (abandon line skipped d outer).Fits maxDepth := by
  induction outer generalizing d with
  | nil => exact hd
  | cons frame outer ih =>
      cases frame with
      | arr first done =>
          refine ih h.2 (guarded_arr_fits ?_ ⟨trivial, rfl⟩)
          exact List.forall_mem_cons.mpr ⟨hd, h.1⟩
      | obj first done key colon =>
          refine ih h.2 (guarded_obj_fits ?_ ⟨trivial, rfl⟩)
          exact List.forall_mem_cons.mpr ⟨hd, h.1⟩

theorem fault_fits (line : Nat) (skipped : Option Nat) (k : Nat) : (fault line skipped).Fits k :=
  ⟨trivial, Nat.zero_le _⟩

theorem abort_fit {line skipped : Nat} {outer : List Frame} (h : FramesFit outer) :
    (abort line skipped outer).Fit :=
  abandon_fits h (fault_fits _ _ _)

theorem abortArr_fit {first line : Nat} {done : List (Doc × Nat)} {outer : List Frame}
    (hdone : ∀ p ∈ done, p.1.Fits (room outer - 1)) (h : FramesFit outer) :
    (abortArr first done line outer).Fit := by
  refine abandon_fits h (guarded_arr_fits hdone ?_)
  exact ⟨trivial, rfl⟩

theorem abortObj_fit {first line skipped : Nat} {done : List Member} {outer : List Frame}
    (hdone : ∀ m ∈ done, m.value.Fits (room outer - 1)) (h : FramesFit outer) :
    (abortObj first done line skipped outer).Fit := by
  refine abandon_fits h (guarded_obj_fits hdone ?_)
  exact ⟨trivial, rfl⟩

/-! ### Steps -/

theorem ofNumeral_fits {line : Nat} {n : Numeral} (h : n.IsWhole) (k : Nat) :
    (ofNumeral line n).Fits k := by
  rcases h.value? with hvalue | hvalue
  · rw [ofNumeral, hvalue]
    exact ⟨h.2.2, Nat.zero_le _⟩
  · rw [ofNumeral, hvalue]
    exact ⟨rfl, Nat.zero_le _⟩

theorem startValue_fit {outer : List Frame} (h : FramesFit outer) {t : Placed}
    (ht : t.token.Whole) : (startValue outer t).Fit := by
  obtain ⟨line, token⟩ := t
  cases token with
  | null => exact receive_fit ⟨trivial, Nat.zero_le _⟩ h
  | bool b => exact receive_fit ⟨trivial, Nat.zero_le _⟩ h
  | number n => exact receive_fit (ofNumeral_fits ht _) h
  | str value =>
      cases value with
      | ok s => exact receive_fit ⟨trivial, Nat.zero_le _⟩ h
      | error failed => exact receive_fit ⟨trivial, Nat.zero_le _⟩ h
  | openArr => exact h
  | openObj => exact h
  | broken line => exact abort_fit h
  | brokenStr line skipped => exact abort_fit h
  | closeArr => exact abort_fit h
  | closeObj => exact abort_fit h
  | comma => exact abort_fit h
  | colon => exact abort_fit h
  | stray => exact abort_fit h
  | eof => exact abort_fit h

theorem startKey_fit {line : Nat} {done : List Member} {outer : List Frame}
    (hdone : ∀ m ∈ done, m.value.Fits (room outer - 1)) (h : FramesFit outer) (t : Placed) :
    (startKey line done outer t).Fit := by
  unfold startKey
  split
  · exact ⟨hdone, h⟩
  · exact abortObj_fit hdone h
  · exact abortObj_fit hdone h

/-- One token: what has been read still fits. -/
theorem State.Fit.step {s : State} (h : s.Fit) {t : Placed} (ht : t.token.Whole) :
    (s.step t).Fit := by
  cases s with
  | value outer => exact startValue_fit h ht
  | firstItem line outer =>
      simp only [State.step]
      split
      · exact closeArr_fit (List.forall_mem_nil _) h
      · have hframes : FramesFit (.arr line [] :: outer) := ⟨List.forall_mem_nil _, h⟩
        exact startValue_fit hframes ht
  | afterItem line done item outer =>
      have hdone : ∀ p ∈ (item, t.line) :: done, p.1.Fits (room outer - 1) :=
        List.forall_mem_cons.mpr ⟨h.2.1, h.1⟩
      simp only [State.step]
      split
      · exact closeArr_fit hdone h.2.2
      · exact h
      · exact abortArr_fit hdone h.2.2
  | nextItem line done item outer =>
      have hframes : FramesFit (.arr line ((item, t.line) :: done) :: outer) :=
        ⟨List.forall_mem_cons.mpr ⟨h.2.1, h.1⟩, h.2.2⟩
      exact startValue_fit hframes ht
  | firstKey line outer =>
      simp only [State.step]
      split
      · exact closeObj_fit (List.forall_mem_nil _) h
      · exact startKey_fit (List.forall_mem_nil _) h t
  | nextKey line done outer => exact startKey_fit h.1 h.2 t
  | colon line done key outer =>
      simp only [State.step]
      split
      · exact h
      · exact abort_fit h
  | afterMember line done key mid value outer =>
      have hdone : ∀ m ∈ (⟨key, mid, value, t.line⟩ : Member) :: done,
          m.value.Fits (room outer - 1) :=
        List.forall_mem_cons.mpr ⟨h.2.1, h.1⟩
      simp only [State.step]
      split
      · exact closeObj_fit hdone h.2.2
      · exact ⟨hdone, h.2.2⟩
      · exact abortObj_fit hdone h.2.2
  | complete doc =>
      simp only [State.step]
      split
      · exact h
      · exact h
  | ended doc trailing => exact h

/-- All tokens. -/
theorem State.Fit.run {s : State} (h : s.Fit) {ps : List Placed} (hps : ∀ t ∈ ps, t.token.Whole) :
    (s.run ps).Fit := by
  induction ps generalizing s with
  | nil => exact h
  | cons t ps ih =>
      rw [List.forall_mem_cons] at hps
      exact ih (h.step hps.1) hps.2

end Doc

/-- The document of a text is nested no deeper than is allowed, and its numbers are whole if those
of the text are. -/
theorem Reading.fits_ofText {text : String} (h : ∀ t ∈ Token.scan text, t.token.Whole) :
    (Reading.ofText text).doc.Fits Doc.maxDepth := by
  have hrun : ((Doc.State.value []).run (Token.scan text)).Fit :=
    Doc.State.Fit.run (s := .value []) trivial h
  have hreading : ∀ s : Doc.State, s.Fit → s.reading.doc.Fits Doc.maxDepth := by
    intro s hs
    cases s with
    | complete doc => exact hs
    | ended doc trailing => exact hs
    | _ => exact Doc.fault_fits _ _ _
  exact hreading _ hrun

end ShapedQuery
