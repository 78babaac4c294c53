import ShapedQuery.Config.File
import ShapedQuery.Proofs.Truncation

/-! # Configuration files that are written again

A configuration that was read from a file is written as a text, and this text is read again.  What
comes back is the same configuration, unless the text is nested deeper than is allowed; then it is
refused.

Written texts have an empty list for a call without arguments, and the file that was read need not
have one.  This is the only reason why a text can be nested deeper than the file it comes from.  It
does happen to files that are nested as deep as is allowed, with such a call at the bottom; a family
of files (`Tower.file`) shows both sides of the limit. -/

namespace ShapedQuery

namespace Configuration

/-! ### Reading and writing -/

/-- A text is read as a configuration. -/
theorem parse_eq_ok {text : String} {c : Configuration} :
    parse text = .ok c ↔ read (Reading.ofText text).doc = .ok c ∧
      (Reading.ofText text).trailing = none ∧ c.version = currentVersion := by
  unfold parse
  constructor
  · intro h
    split at h
    · cases h
    · rename_i c' hc'
      split at h
      · rename_i hversion
        cases h
        obtain ⟨hread, htrailing⟩ := Doc.parse_eq_ok.mp hc'
        exact ⟨hread, htrailing, hversion⟩
      · cases h
  · rintro ⟨hread, htrailing, hversion⟩
    rw [Doc.parse_eq_ok.mpr ⟨hread, htrailing⟩]
    exact if_pos hversion

/-- A text that is not nested too deep is read back. -/
theorem parse_text_of_depth_le {c : Configuration} (hdistinct : c.Distinct)
    (hversion : c.version = currentVersion) (hwhole : c.json.Whole)
    (hdepth : c.json.depth ≤ Doc.maxDepth) : parse c.text = .ok c := by
  obtain ⟨d, hd, htext⟩ := Reading.ofText_pretty hwhole hdepth
  rw [parse_eq_ok, text, htext]
  exact ⟨accepts hdistinct d hd, rfl, hversion⟩

/-- A text that is read back, as whatever it may be, is not nested too deep. -/
theorem depth_le_of_parse_text {c c' : Configuration} (hwhole : c.json.Whole)
    (h : parse c.text = .ok c') : c.json.depth ≤ Doc.maxDepth := by
  obtain ⟨d, hd, htext⟩ := Reading.ofText_pretty_to hwhole
  rw [parse_eq_ok, text, htext] at h
  exact c.needs _ _ _ hd h.1

/-- What is read from a text has distinct keys and is not nested too deep, but for calls without
arguments.  Its numbers are whole if those of the text are. -/
theorem covers_of_parse {text : String} {c : Configuration} (h : parse text = .ok c)
    (hwhole : ∀ t ∈ Token.scan text, t.token.Whole) :
    c.Distinct ∧ (c.metadata.Supplied → c.json.depth ≤ Doc.maxDepth) ∧ c.json.Whole := by
  obtain ⟨hread, -⟩ := parse_eq_ok.mp h
  obtain ⟨hdoc, hdocDepth⟩ := Reading.fits_ofText hwhole
  obtain ⟨hdistinct, hdepth, hjson⟩ := covers hread
  have hmax : max (Reading.ofText text).doc.depth 3 ≤ Doc.maxDepth :=
    Nat.max_le.mpr ⟨hdocDepth, by decide⟩
  exact ⟨hdistinct, fun hsupplied => Nat.le_trans (hdepth hsupplied) hmax, hjson hdoc⟩

end Configuration

/-! ### Files that are nested deep -/

namespace Json

theorem whole_entryTokens {es : List (String × Json)} (h : ∀ e ∈ es, ∀ t ∈ e.2.tokens, t.Whole) :
    ∀ t ∈ entryTokens es, t.Whole := by
  induction es with
  | nil => exact List.forall_mem_singleton.mpr trivial
  | cons e es ih =>
      rw [List.forall_mem_cons] at h
      simp only [entryTokens, List.forall_mem_cons, List.forall_mem_append]
      exact ⟨trivial, trivial, trivial, h.1, ih h.2⟩

/-- The numbers in the tokens of an object are those of its values. -/
theorem whole_tokens_obj {es : List (String × Json)} (h : ∀ e ∈ es, ∀ t ∈ e.2.tokens, t.Whole) :
    ∀ t ∈ (Json.obj es).tokens, t.Whole := by
  cases es with
  | nil => exact List.forall_mem_cons.mpr ⟨trivial, List.forall_mem_singleton.mpr trivial⟩
  | cons e es =>
      rw [List.forall_mem_cons] at h
      simp only [tokens, List.forall_mem_cons, List.forall_mem_append]
      exact ⟨trivial, trivial, trivial, h.1, whole_entryTokens h.2⟩

end Json

namespace Tower

/-- A JSON value under `n` keys `is_null`. -/
def json (j : Json) : Nat → Json
  | 0 => j
  | n + 1 => .obj [("is_null", json j n)]

/-- The expression that this is. -/
def expression (e : Computed) : Nat → Computed
  | 0 => e
  | n + 1 => .isNull (expression e n)

/-- A table with a field for the expression. -/
def tableJson (j : Json) (n : Nat) : Json :=
  .obj [("fields", .obj [("f", .obj [("kind", .str "computed"), ("expression", json j n)])])]

def table (e : Computed) (n : Nat) : Table := ⟨[("f", ⟨.computed (expression e n), []⟩)], []⟩

/-- A file with this table, and nothing that can be left out. -/
def file (j : Json) (n : Nat) : Json :=
  .obj [("version", .int 1), ("metadata", .obj [("tables", .obj [("T", tableJson j n)])])]

def text (j : Json) (n : Nat) : String := (file j n).pretty ++ "\n"

def configuration (e : Computed) (n : Nat) : Configuration :=
  ⟨1, .default, ⟨[("T", table e n)], []⟩⟩

variable {j : Json} {e : Computed}

theorem depth_json (j : Json) (n : Nat) : (json j n).depth = j.depth + n := by
  induction n with
  | zero => rfl
  | succ n ih => simp [json, Json.depth, Json.depthEntries, ih, Nat.add_assoc]

theorem depth_file (j : Json) (n : Nat) : (file j n).depth = j.depth + n + 6 := by
  simp [file, tableJson, Json.depth, Json.depthEntries, depth_json]

theorem json_expression (e : Computed) (n : Nat) : (expression e n).json = json e.json n := by
  induction n with
  | zero => rfl
  | succ n ih => rw [expression, Computed.json, json, ih]

theorem depth_configuration (e : Computed) (n : Nat) :
    (configuration e n).json.depth = e.json.depth + n + 6 := by
  simp [configuration, table, Configuration.json, Metadata.json, Table.json, Field.json,
    Field.kindEntries, Settings.json, Json.depth, Json.depthEntries, json_expression, depth_json]

theorem whole_file (h : j.Whole) (n : Nat) : (file j n).Whole := by
  have hjson : (json j n).Whole := by
    induction n with
    | zero => exact h
    | succ n ih => exact ⟨ih, trivial⟩
  simp [file, tableJson, Json.Whole, Json.WholeEntries, hjson, Json.IntRange]

/-- The only other number in the text is the version. -/
theorem whole_scan (h : j.Whole) (htokens : ∀ t ∈ j.tokens, t.Whole) (n : Nat) :
    ∀ t ∈ Token.scan (text j n), t.token.Whole := by
  have hjson : ∀ t ∈ (json j n).tokens, t.Whole := by
    induction n with
    | zero => exact htokens
    | succ n ih => exact Json.whole_tokens_obj (List.forall_mem_singleton.mpr ih)
  have hkind : ∀ t ∈ (Json.str "computed").tokens, t.Whole := List.forall_mem_singleton.mpr trivial
  have hversion : ∀ t ∈ (Json.int 1).tokens, t.Whole :=
    List.forall_mem_singleton.mpr ⟨rfl, rfl, by decide⟩
  have hfield : ∀ t ∈ (Json.obj [("kind", .str "computed"), ("expression", json j n)]).tokens,
      t.Whole :=
    Json.whole_tokens_obj (List.forall_mem_cons.mpr ⟨hkind, List.forall_mem_singleton.mpr hjson⟩)
  have hone : ∀ {key : String} {j' : Json}, (∀ t ∈ j'.tokens, t.Whole) →
      ∀ t ∈ (Json.obj [(key, j')]).tokens, t.Whole :=
    fun hj' => Json.whole_tokens_obj (List.forall_mem_singleton.mpr hj')
  have hfile : ∀ t ∈ (file j n).tokens, t.Whole :=
    Json.whole_tokens_obj (List.forall_mem_cons.mpr
      ⟨hversion, List.forall_mem_singleton.mpr (hone (hone (hone (hone hfield))))⟩)
  obtain ⟨ps, line, hscan, hps⟩ := Json.scan_pretty (whole_file h n)
  rw [text, hscan, List.forall_mem_append, List.forall_mem_singleton]
  refine ⟨fun t ht => hfile t.token ?_, trivial⟩
  rw [← hps]
  exact List.mem_map_of_mem ht

theorem accepts_json {k : Nat} (h : Accepts (Computed.readWithin true k) j e) (n : Nat) :
    Accepts (Computed.readWithin true (k + n)) (json j n) (expression e n) := by
  induction n with
  | zero => exact h
  | succ n ih => exact Computed.accepts_isNull ih

/-- The file is read, from the inside to the outside. -/
theorem accepts_file (h : Accepts (Computed.readWithin true j.depth) j e) (n : Nat) :
    Accepts Configuration.read (file j n) (configuration e n) := by
  have hexpression : Accepts Computed.read (json j n) (expression e n) := by
    intro d hd
    rw [Computed.read, hd.depth_eq, depth_json]
    exact accepts_json h n d hd
  have hfield : Accepts Field.read (.obj [("kind", .str "computed"), ("expression", json j n)])
      ⟨.computed (expression e n), []⟩ :=
    Field.accepts_of_kind (by simp) (fun _ hms => Field.readKind_computed hexpression hms)
      fun _ _ hrest => Field.gather_closed hrest _
  have hfields : Accepts (Doc.entries Field.read)
      (.obj [("f", .obj [("kind", .str "computed"), ("expression", json j n)])])
      (table e n).fields :=
    @accepts_entries _ _ (fun _ => _) (table e n).fields (by simp [table, Entries.keys])
      (List.forall_mem_singleton.mpr hfield)
  have htable : Accepts Table.read (tableJson j n) (table e n) := by
    refine accepts_record (some (table e n).fields, none, ()) (by decide)
      (by simp [Entries.keys]) ?_ fun line => rfl
    simp [Table.slots, Fields.empty, Entries.get?, hfields]
  have htables : Accepts (Doc.sorted Table.read) (.obj [("T", tableJson j n)])
      [("T", table e n)] :=
    @accepts_sorted _ _ (fun _ => _) [("T", table e n)] (List.pairwise_singleton _ _)
      (List.forall_mem_singleton.mpr htable)
  have hmetadata : Accepts Metadata.read (.obj [("tables", .obj [("T", tableJson j n)])])
      ⟨[("T", table e n)], []⟩ := by
    refine accepts_record (some [("T", table e n)], none, ()) (by decide)
      (by simp [Entries.keys]) ?_ fun line => rfl
    simp [Metadata.slots, Fields.empty, Entries.get?, htables]
  have hversion : Accepts Doc.word32 (.int 1) 1 := accepts_word32 1
  refine accepts_record (some 1, none, some ⟨[("T", table e n)], []⟩, ()) (by decide)
    (by simp [Entries.keys]) ?_ fun line => rfl
  simp [Configuration.slots, Fields.empty, Entries.get?, hversion, hmetadata]

/-- A file that is not nested too deep is read as the configuration. -/
theorem parse_file (h : Accepts (Computed.readWithin true j.depth) j e) (hwhole : j.Whole) {n : Nat}
    (hdepth : j.depth + n + 6 ≤ Doc.maxDepth) :
    Configuration.parse (text j n) = .ok (configuration e n) := by
  rw [← depth_file] at hdepth
  obtain ⟨d, hd, htext⟩ := Reading.ofText_pretty (whole_file hwhole n) hdepth
  rw [Configuration.parse_eq_ok, text, htext]
  exact ⟨accepts_file h n d hd, rfl, rfl⟩

theorem supplied_configuration (h : e.Supplied) (n : Nat) :
    (configuration e n).metadata.Supplied := by
  have hexpression : (expression e n).Supplied := by
    induction n with
    | zero => exact h
    | succ n ih => exact ih
  exact List.forall_mem_singleton.mpr (List.forall_mem_singleton.mpr hexpression)

/-- A call without a list of arguments. -/
def call : Json := .obj [("function_call", .obj [("function", .str "now")])]

theorem accepts_call (depth : Nat) :
    Accepts (Computed.readWithin true (depth + 1)) call (.call "now" []) := by
  intro d hd
  obtain ⟨body, hsingle, hbody⟩ := hd.single
  have hrecord : ∃ line, body.recordIn true
      (Computed.callFields (Computed.readWithin true depth)) = .ok (line, some "now", none, ()) :=
    hbody.recordIn true (by simp [Computed.callFields, Fields.names]) (by simp [Entries.keys])
      (by simp [Computed.callFields, Fields.empty, Entries.get?, accepts_string])
  obtain ⟨line, hrecord⟩ := hrecord
  simp [Computed.readWithin, hsingle, hrecord, bind, Except.bind, pure, Except.pure, required]

end Tower

/-! ### Files that are read and written -/

namespace Configuration

/-- **Files are read and written.**  A configuration that is read from a text whose numbers are whole
and in range is written as a text that is read as the same configuration if every call in it has an
argument.  In general this is so exactly if the written text is not nested too deep, and the text is
never read as another configuration. -/
theorem parse_text {text : String} {c : Configuration} (h : parse text = .ok c)
    (hwhole : ∀ t ∈ Token.scan text, t.token.Whole) :
    (c.metadata.Supplied → parse c.text = .ok c) ∧
      (parse c.text = .ok c ↔ c.json.depth ≤ Doc.maxDepth) ∧
      ∀ c', parse c.text = .ok c' → c' = c := by
  obtain ⟨-, -, hversion⟩ := parse_eq_ok.mp h
  obtain ⟨hdistinct, hdepth, hjson⟩ := covers_of_parse h hwhole
  have hback : c.json.depth ≤ Doc.maxDepth → parse c.text = .ok c :=
    parse_text_of_depth_le hdistinct hversion hjson
  have hfits : ∀ c', parse c.text = .ok c' → c.json.depth ≤ Doc.maxDepth :=
    fun c' hc' => depth_le_of_parse_text hjson hc'
  refine ⟨fun hsupplied => hback (hdepth hsupplied), ⟨hfits c, hback⟩, fun c' hc' => ?_⟩
  rw [hback (hfits c' hc')] at hc'
  exact (Except.ok.inj hc').symm

/-- A file with a column under 120 keys is nested as deep as is allowed, and is read back. -/
theorem parse_text_nested :
    parse (Tower.text (.obj [("column", .str "a")]) 120) =
        .ok (Tower.configuration (.column "a") 120) ∧
      (∀ t ∈ Token.scan (Tower.text (.obj [("column", .str "a")]) 120), t.token.Whole) ∧
      (Tower.configuration (.column "a") 120).metadata.Supplied ∧
      parse (Tower.configuration (.column "a") 120).text =
        .ok (Tower.configuration (.column "a") 120) := by
  have hwhole : (Json.obj [("column", .str "a")]).Whole := ⟨trivial, trivial⟩
  have htokens : ∀ t ∈ (Json.obj [("column", .str "a")]).tokens, t.Whole :=
    Json.whole_tokens_obj (List.forall_mem_singleton.mpr (List.forall_mem_singleton.mpr trivial))
  have hdistinct : (Computed.column "a").Distinct := trivial
  have haccepts : Accepts (Computed.readWithin true 1) (.obj [("column", .str "a")])
      (.column "a") :=
    Computed.accepts_within true hdistinct (Nat.le_refl _)
  have hparse := Tower.parse_file haccepts hwhole (n := 120) (by decide)
  have hscan := Tower.whole_scan hwhole htokens 120
  have hcolumn : (Computed.column "a").Supplied := trivial
  have hsupplied := Tower.supplied_configuration hcolumn 120
  exact ⟨hparse, hscan, hsupplied, (parse_text hparse hscan).1 hsupplied⟩

/-- Under 119 keys a call without arguments is as deep as is allowed, but not the empty list that is
written for it. -/
theorem parse_text_refused :
    parse (Tower.text Tower.call 119) = .ok (Tower.configuration (.call "now" []) 119) ∧
      (∀ t ∈ Token.scan (Tower.text Tower.call 119), t.token.Whole) ∧
      ∀ c, parse (Tower.configuration (.call "now" []) 119).text ≠ .ok c := by
  have hwhole : Tower.call.Whole := ⟨⟨trivial, trivial⟩, trivial⟩
  have htokens : ∀ t ∈ Tower.call.tokens, t.Whole :=
    Json.whole_tokens_obj (List.forall_mem_singleton.mpr
      (Json.whole_tokens_obj (List.forall_mem_singleton.mpr (List.forall_mem_singleton.mpr trivial))))
  have hparse := Tower.parse_file (Tower.accepts_call 1) hwhole (n := 119) (by decide)
  have hscan := Tower.whole_scan hwhole htokens 119
  refine ⟨hparse, hscan, fun c hc => ?_⟩
  have hdepth := depth_le_of_parse_text (covers_of_parse hparse hscan).2.2 hc
  rw [Tower.depth_configuration] at hdepth
  exact absurd hdepth (by decide)

end Configuration

end ShapedQuery
