import ShapedQuery.Proofs.IndexElements

/-! # Making an index

Which indexes are accepted, and what is sent for them.  `TableIndex.create_eq` lists the steps of
making a statement, and everything here is read off it: what a table must have for the index
(`TableIndex.Fits`), what the statement holds (`TableIndex.Describes`), and on what of the index it
depends (`TableIndex.create_congr`).

`TableIndex.createStatement_exact` says exactly which indexes are accepted, that the statement of an
accepted index has one element for each field and the values of its filter, that the directions of
the fields make no difference, and where the word for an index that is made concurrently stands in
the text. -/

namespace ShapedQuery

namespace TableIndex

/-! ### Statements -/

section create

variable {i : TableIndex} {m : Metadata}

theorem method_eq_gin_iff : i.method = .gin ↔ ∃ f ∈ i.info.fields.keys, isDotted f = true := by
  rw [← List.any_eq_true, method]
  cases i.info.fields.keys.any isDotted with
  | true => exact iff_of_true rfl rfl
  | false => exact iff_of_false (fun h => by cases h) Bool.false_ne_true

/-- The statement of an index, from its elements and its condition. -/
def statement (i : TableIndex) (elements : List (Expr Placeholder))
    (condition : Expr Placeholder) : CreateIndex Placeholder where
  name := i.name
  table := i.table
  unique := i.info.options.unique
  concurrently := i.info.options.concurrently
  ifNotExists := true
  method := i.method
  elements := elements
  condition := condition

/-- The steps of making a statement, each of which may fail. -/
theorem create_eq (i : TableIndex) (m : Metadata) : i.create m =
    match m.tables.get? i.table with
    | none => .error (.tableNotFound i.table)
    | some t =>
      if i.info.options.unique = true ∧ i.method = .gin then .error (.uniqueJsonIndex i.name)
      else match elements ⟨i.table, t⟩ i.info.options i.info.fields.keys with
        | .error e => .error e
        | .ok es =>
          match i.condition ⟨i.table, t⟩ .empty with
          | .error e _ => .error e
          | .ok condition args => .ok (i.statement es condition, args.values) := by
  unfold create Metadata.lookupTable
  cases m.tables.get? i.table with
  | none => rfl
  | some t =>
      dsimp only [bind, Except.bind]
      split
      · rfl
      · dsimp only [pure, Except.pure]
        cases elements ⟨i.table, t⟩ i.info.options i.info.fields.keys with
        | error e => rfl
        | ok es => cases i.condition ⟨i.table, t⟩ .empty <;> rfl

/-- What goes into a statement that is made. -/
theorem exists_of_create {c : CreateIndex Placeholder} {params : List Param}
    (h : i.create m = .ok (c, params)) : ∃ t es condition args, m.tables.get? i.table = some t ∧
      ¬ (i.info.options.unique = true ∧ i.method = .gin) ∧
      elements ⟨i.table, t⟩ i.info.options i.info.fields.keys = .ok es ∧
      i.condition ⟨i.table, t⟩ .empty = .ok condition args ∧
      c = i.statement es condition ∧ params = args.values := by
  rw [create_eq] at h
  cases ht : m.tables.get? i.table with
  | none =>
      rw [ht] at h
      cases h
  | some t =>
      rw [ht] at h
      dsimp only at h
      split at h
      · cases h
      · rename_i hgin
        cases hes : elements ⟨i.table, t⟩ i.info.options i.info.fields.keys with
        | error e =>
            rw [hes] at h
            cases h
        | ok es =>
            rw [hes] at h
            cases hcondition : i.condition ⟨i.table, t⟩ .empty with
            | error e args =>
                rw [hcondition] at h
                cases h
            | ok condition args =>
                rw [hcondition] at h
                cases h
                exact ⟨t, es, condition, args, rfl, hgin, hes, hcondition, rfl, rfl⟩

/-- An index that a table can have: not unique over places inside columns, over fields of the table,
and with a condition that can be compiled. -/
structure Fits (i : TableIndex) (t : NamedTable) : Prop where
  unique : ¬ (i.info.options.unique = true ∧ ∃ f ∈ i.info.fields.keys, isDotted f = true)
  fields : ∀ f ∈ i.info.fields.keys, HasField t.table f
  filter : ∀ filter, i.info.options.partialFilter = some filter →
    ∃ e args, Target.filter ⟨t, none, false⟩ filter .empty = .ok e args

theorem exists_condition_iff {t : NamedTable} :
    (∃ e args, i.condition t .empty = .ok e args) ↔
      ∀ filter, i.info.options.partialFilter = some filter →
        ∃ e args, Target.filter ⟨t, none, false⟩ filter .empty = .ok e args := by
  unfold condition
  cases i.info.options.partialFilter with
  | none => exact iff_of_true ⟨_, _, rfl⟩ fun filter h => by cases h
  | some filter => simp

/-- An index is accepted exactly if its table is there and can have it. -/
theorem exists_create_iff : (∃ c params, i.create m = .ok (c, params)) ↔
    ∃ t, m.tables.get? i.table = some t ∧ i.Fits ⟨i.table, t⟩ := by
  constructor
  · rintro ⟨c, params, h⟩
    obtain ⟨t, es, condition, args, ht, hgin, hes, hcondition, -, -⟩ := exists_of_create h
    rw [method_eq_gin_iff] at hgin
    exact ⟨t, ht, hgin, exists_elements_iff.mp ⟨es, hes⟩,
      exists_condition_iff.mp ⟨condition, args, hcondition⟩⟩
  · rintro ⟨t, ht, hfits⟩
    obtain ⟨es, hes⟩ := exists_elements_iff.mpr hfits.fields
    obtain ⟨condition, args, hcondition⟩ := exists_condition_iff.mpr hfits.filter
    have hgin := hfits.unique
    rw [← method_eq_gin_iff] at hgin
    rw [create_eq, ht]
    dsimp only
    rw [if_neg hgin, hes, hcondition]
    exact ⟨_, _, rfl⟩

end create

/-! ### Values -/

/-- The values of the filter, if there is one. -/
def filterValues (i : TableIndex) (t : Table) : List Json :=
  (i.info.options.partialFilter.map t.entriesValues).getD []

/-- The condition holds the values of the filter, numbered from one on. -/
theorem condition_binds {i : TableIndex} {t : NamedTable} {e : Expr Placeholder} {args : Arguments}
    (h : i.condition t .empty = .ok e args) :
    e.WellFormed ∧ args.values = (i.filterValues t.table).map Param.ofJson ∧
      e.bounds.map Placeholder.value = args.values ∧ Consecutive 0 e.bounds := by
  unfold condition at h
  unfold filterValues
  cases hfilter : i.info.options.partialFilter with
  | none =>
      rw [hfilter] at h
      cases h
      exact ⟨trivial, rfl, rfl, consecutive_nil 0⟩
  | some filter =>
      rw [hfilter] at h
      obtain ⟨hinline, hargs, hconsecutive⟩ := Target.inline_of_filter h
      have hvalues := Inline.bounds_filter hinline
      rw [Expr.bounds_map] at hvalues
      refine ⟨Target.filter_wellFormed h, ?_, ?_, hconsecutive⟩
      · rw [hargs, hvalues]
        rfl
      · rw [hargs]
        rfl

end TableIndex

/-- The placeholders in the text of a statement whose elements hold no values. -/
theorem CreateIndex.placeholders?_sql {c : CreateIndex Placeholder} (h : c.WellNamed)
    (helements : ∀ e ∈ c.elements, e.bounds = []) :
    Lexer.placeholders? c.sql = some (c.condition.bounds.map Placeholder.index) := by
  have hreads := (CreateIndex.reads (h.map Placeholder.index)).tokens?
  have hmarks : (c.map Placeholder.index).marks.filterMap Lexer.Mark.index? =
      c.condition.bounds.map Placeholder.index := by
    have hnone : ((c.map Placeholder.index).elements.flatMap Expr.marks).filterMap
        Lexer.Mark.index? = [] := by
      rw [List.filterMap_flatMap, List.flatMap_eq_nil_iff]
      rintro e he
      obtain ⟨d, hd, rfl⟩ := List.mem_map.mp he
      rw [Expr.filterMap_marks, Expr.bounds_map, helements d hd, List.map_nil]
    rw [CreateIndex.marks, List.filterMap_cons, List.filterMap_cons, List.filterMap_append, hnone]
    rw [← Expr.bounds_map]
    exact Expr.filterMap_marks _
  rw [← hmarks]
  exact Lexer.placeholders?_eq hreads

/-! ### Directions and the word for concurrency -/

/-- A text with `new` put in behind the first place where it reads `mark`. -/
def insertBehind (mark new : String) (text : String) : String :=
  String.ofList (go text.toList)
where
  go : List Char → List Char
    | [] => []
    | c :: cs =>
      if mark.toList.isPrefixOf (c :: cs) then
        mark.toList ++ new.toList ++ (c :: cs).drop mark.length
      else c :: go cs

theorem CreateIndex.go_head (unique ifNotExists : Bool) (rest : List Char) :
    insertBehind.go "INDEX " "CONCURRENTLY "
        ((head unique false ifNotExists).flatMap Piece.chars ++ rest) =
      (head unique true ifNotExists).flatMap Piece.chars ++ rest := by
  cases unique <;> cases ifNotExists <;> rfl

/-- The word for an index that is made concurrently stands behind the first `INDEX `. -/
theorem CreateIndex.sql_concurrently (c : CreateIndex Placeholder) :
    { c with concurrently := true }.sql =
      insertBehind "INDEX " "CONCURRENTLY " { c with concurrently := false }.sql := by
  unfold CreateIndex.sql Piece.text insertBehind
  rw [CreateIndex.pieces_eq, CreateIndex.pieces_eq, List.flatMap_append, List.flatMap_append,
    String.toList_ofList]
  exact congrArg String.ofList (go_head c.unique c.ifNotExists _).symm

namespace TableIndex

/-- The index over other fields. -/
def withFields (i : TableIndex) (fields : Entries Direction) : TableIndex :=
  { i with info := { i.info with fields := fields } }

/-- The index made concurrently, or not. -/
def withConcurrently (i : TableIndex) (b : Bool) : TableIndex :=
  { i with info := { i.info with options := { i.info.options with concurrently := b } } }

/-- Two indexes that agree on all that goes into a statement, which may still differ by `f`. -/
theorem create_congr (i j : TableIndex) (htable : j.table = i.table) (hname : j.name = i.name)
    (hmethod : j.method = i.method) (hunique : j.info.options.unique = i.info.options.unique)
    (helements : ∀ t, elements t j.info.options j.info.fields.keys =
      elements t i.info.options i.info.fields.keys)
    (hcondition : ∀ t, j.condition t = i.condition t)
    {f : CreateIndex Placeholder → CreateIndex Placeholder}
    (hstatement : ∀ es e, j.statement es e = f (i.statement es e)) (m : Metadata) :
    j.create m = (i.create m).map fun r => (f r.1, r.2) := by
  rw [create_eq, create_eq, htable, hname, hmethod, hunique]
  simp only [helements, hcondition, hstatement]
  cases m.tables.get? i.table with
  | none => rfl
  | some t =>
      dsimp only
      split
      · rfl
      · cases elements ⟨i.table, t⟩ i.info.options i.info.fields.keys with
        | error e => rfl
        | ok es => cases i.condition ⟨i.table, t⟩ .empty <;> rfl

theorem create_withFields {i : TableIndex} {fields : Entries Direction}
    (h : fields.keys = i.info.fields.keys) (m : Metadata) :
    (i.withFields fields).create m = i.create m := by
  have hkeys : (i.withFields fields).info.fields.keys = i.info.fields.keys := h
  have hname : (i.withFields fields).name = i.name := by
    unfold name
    rw [hkeys]
    rfl
  have hmethod : (i.withFields fields).method = i.method := by
    unfold method
    rw [hkeys]
  have helements (t : NamedTable) : elements t (i.withFields fields).info.options
      (i.withFields fields).info.fields.keys = elements t i.info.options i.info.fields.keys := by
    rw [hkeys]
    rfl
  rw [create_congr i (i.withFields fields) rfl hname hmethod rfl helements (fun _ => rfl) (f := id)
    (fun es e => ?_)]
  · cases i.create m <;> rfl
  · unfold statement
    rw [hname, hmethod]
    rfl

theorem elements_concurrently (t : NamedTable) (options : IndexOptions) (b : Bool)
    (fields : List String) :
    elements t { options with concurrently := b } fields = elements t options fields := by
  induction fields with
  | nil => rfl
  | cons field fields ih =>
      rw [elements, elements, ih]
      rfl

theorem create_withConcurrently (i : TableIndex) (b : Bool) (m : Metadata) :
    (i.withConcurrently b).create m =
      (i.create m).map fun r => ({ r.1 with concurrently := b }, r.2) :=
  create_congr i (i.withConcurrently b) rfl rfl rfl rfl
    (fun t => elements_concurrently t i.info.options b _) (fun _ => rfl)
    (f := fun c => { c with concurrently := b }) (fun _ _ => rfl) m

/-! ### The whole statement -/

theorem createStatement_eq_ok_iff {i : TableIndex} {m : Metadata} {s : Statement} :
    i.createStatement m = .ok s ↔ ∃ c, i.create m = .ok (c, s.params) ∧ s.sql = c.sql := by
  obtain ⟨sql, sent⟩ := s
  unfold createStatement
  cases i.create m with
  | error e => simp [Except.map]
  | ok r =>
      obtain ⟨c, params⟩ := r
      show Except.ok (Statement.mk c.sql params) = .ok ⟨sql, sent⟩ ↔ _
      simp only [Except.ok.injEq, Statement.mk.injEq, Prod.mk.injEq]
      constructor
      · rintro ⟨hsql, hparams⟩
        exact ⟨c, ⟨rfl, hparams⟩, hsql.symm⟩
      · rintro ⟨d, ⟨hc, hparams⟩, hsql⟩
        rw [hc, hsql]
        exact ⟨rfl, hparams⟩

/-- A statement for an index on a table, and the values that are sent with it.  There is one element
for each field, in order, and the placeholders count the values of the filter from one on. -/
structure Describes (i : TableIndex) (t : NamedTable) (c : CreateIndex Placeholder)
    (sent : List Param) : Prop where
  unique : c.unique = i.info.options.unique
  gin_iff : c.method = .gin ↔ ∃ f ∈ i.info.fields.keys, isDotted f = true
  elements : List.Forall₂ (IsElement t i.info.options) i.info.fields.keys c.elements
  sent_eq : sent = (i.filterValues t.table).map Param.ofJson
  values : c.condition.bounds.map Placeholder.value = sent
  placeholders : Lexer.placeholders? c.sql = some (List.range' 1 sent.length)

theorem describes_of_create {i : TableIndex} {m : Metadata} {c : CreateIndex Placeholder}
    {sent : List Param} (h : i.create m = .ok (c, sent)) :
    ∃ t, m.tables.get? i.table = some t ∧ i.Describes ⟨i.table, t⟩ c sent := by
  obtain ⟨t, es, condition, args, ht, hgin, hes, hcondition, rfl, rfl⟩ := exists_of_create h
  obtain ⟨hproper, hargs, hvalues, hconsecutive⟩ := condition_binds hcondition
  have hplain : ∀ f ∈ i.info.fields.keys, i.info.options.unique = true → isDotted f = false := by
    intro f hf hunique
    rw [← Bool.not_eq_true]
    intro hdotted
    exact hgin ⟨hunique, method_eq_gin_iff.mpr ⟨f, hf, hdotted⟩⟩
  have hmade := forall₂_of_elements hes
  have helements : List.Forall₂ (IsElement ⟨i.table, t⟩ i.info.options) i.info.fields.keys es :=
    ((List.forall₂_and_left _ _).mpr ⟨hplain, hmade⟩).imp fun f e he =>
      isElement_of_element he.1 he.2
  -- the elements bind nothing, so that all placeholders are those of the condition
  have hnamed : ∀ e ∈ es, e.WellNamed :=
    forall_mem_of_forall₂ hmade fun _ _ he => (element_wellFormed he).wellNamed
  have hbounds : ∀ e ∈ es, e.bounds = [] :=
    forall_mem_of_forall₂ helements fun f _ he => he.around.bounds_eq.trans (bounds_place f)
  refine ⟨t, ht, rfl, method_eq_gin_iff, helements, hargs, hvalues, ?_⟩
  rw [CreateIndex.placeholders?_sql ⟨hnamed, hproper.wellNamed⟩ hbounds, ← hvalues, List.length_map]
  exact congrArg some hconsecutive

/-- **Making an index, from beginning to end.**  An index is accepted exactly if its table exists
and can have it.  The statement that is made for it has one element for each field, in order, and
the values of its filter.  The directions of the fields do not matter, and if the index is to be
made concurrently, only a word is put into the text. -/
theorem createStatement_exact (i : TableIndex) (m : Metadata) :
    ((∃ s, i.createStatement m = .ok s) ↔
      ∃ t, m.tables.get? i.table = some t ∧ i.Fits ⟨i.table, t⟩) ∧
    (∀ s, i.createStatement m = .ok s → ∃ t c, m.tables.get? i.table = some t ∧
      i.create m = .ok (c, s.params) ∧ s.sql = c.sql ∧ i.Describes ⟨i.table, t⟩ c s.params) ∧
    (∀ fields : Entries Direction, fields.keys = i.info.fields.keys →
      (i.withFields fields).createStatement m = i.createStatement m) ∧
    (i.withConcurrently true).createStatement m =
      ((i.withConcurrently false).createStatement m).map fun s =>
        { s with sql := insertBehind "INDEX " "CONCURRENTLY " s.sql } := by
  refine ⟨?_, fun s hs => ?_, fun fields hfields => ?_, ?_⟩
  · rw [← exists_create_iff]
    constructor
    · rintro ⟨s, hs⟩
      obtain ⟨c, hc, -⟩ := createStatement_eq_ok_iff.mp hs
      exact ⟨c, s.params, hc⟩
    · rintro ⟨c, params, hc⟩
      exact ⟨⟨c.sql, params⟩, createStatement_eq_ok_iff.mpr ⟨c, hc, rfl⟩⟩
  · obtain ⟨c, hc, hsql⟩ := createStatement_eq_ok_iff.mp hs
    obtain ⟨t, ht, hdescribes⟩ := describes_of_create hc
    exact ⟨t, c, ht, hc, hsql, hdescribes⟩
  · rw [createStatement, create_withFields hfields, createStatement]
  · unfold createStatement
    rw [create_withConcurrently, create_withConcurrently]
    cases i.create m with
    | error e => rfl
    | ok r =>
        have hsql := CreateIndex.sql_concurrently r.1
        exact congrArg (fun sql => Except.ok (Statement.mk sql r.2)) hsql

end TableIndex

namespace Sample

/-- Posts, as they are in the catalogue. -/
def posted : Metadata := ⟨[("Posts", catalogue.table.table)], []⟩

/-- No two posts with a score above three have the same score and the same title, in any case. -/
def scores : TableIndex where
  table := "Posts"
  info.fields := [("score", .descending), ("title", .ascending)]
  info.options.unique := true
  info.options.partialFilter := some [("score", .obj [("$gt", .int 3)])]
  info.options.collation := some ⟨"en", 2⟩
  info.options.concurrently := false

theorem fits_scores : scores.Fits catalogue.table where
  unique := by
    rintro ⟨-, hdotted⟩
    revert hdotted
    decide
  fields := by
    have hscore : isDotted "score" = false := by decide
    have htitle : isDotted "title" = false := by decide
    refine List.forall_mem_cons.mpr ⟨⟨_, rfl, fun h => absurd h ?_⟩,
      List.forall_mem_singleton.mpr ⟨_, rfl, fun h => absurd h ?_⟩⟩
    · exact Bool.eq_false_iff.mp hscore
    · exact Bool.eq_false_iff.mp htitle
  filter := by
    rintro filter ⟨⟩
    exact ⟨_, _, rfl⟩

/-- Texts, with the first one that is not null. -/
def defaulting : Database (List String) where
  __ := texts
  apply
    | .coalesce, as => as.findSome? id
    | _, _ => none

/-- A post without a title. -/
def untitled : Row (List String) where
  column c := if c = .bare "title" then none else some ["1"]
  other _ := some [""]

theorem nullRules_untitled : defaulting.NullRules untitled where
  coalesce _ := rfl
  text _ := rfl
  empty := rfl

theorem respects_untitled : untitled.Respects ⟨catalogue.table, none, false⟩ := by
  refine respects_of_title rfl fun name hname => ?_
  simp [untitled, Target.ref, hname]

end Sample

/-- The index over scores and titles has a value for a post without a title.  Over a place inside
the data there is no unique index. -/
theorem TableIndex.createStatement_exact_sample :
    Sample.scores.Fits Sample.catalogue.table ∧
    (∃ (s : Statement) (c : CreateIndex Placeholder),
      Sample.scores.createStatement Sample.posted = .ok s ∧ s.sql = c.sql ∧
      s.params = [.int 3] ∧ Lexer.placeholders? s.sql = some [1] ∧
      (∀ e ∈ c.elements, (Sample.defaulting.value Sample.untitled .empty e).isSome = true) ∧
      (Sample.scores.withFields [("score", .ascending), ("title", .descending)]).createStatement
        Sample.posted = .ok s) ∧
    ¬ ∃ s, (Sample.scores.withFields [("data.k", .ascending)]).createStatement Sample.posted =
      .ok s := by
  obtain ⟨haccepted, hmade, hdirections, -⟩ := createStatement_exact Sample.scores Sample.posted
  obtain ⟨s, hs⟩ := haccepted.mpr ⟨_, rfl, Sample.fits_scores⟩
  obtain ⟨t, c, ht, -, hsql, hdescribes⟩ := hmade s hs
  have htable : Sample.catalogue.table.table = t := Option.some.inj ht
  subst htable
  have hparams : s.params = [.int 3] := hdescribes.sent_eq
  refine ⟨Sample.fits_scores, ⟨s, c, hs, hsql, hparams, ?_, ?_, ?_⟩, ?_⟩
  · have hplaceholders := hdescribes.placeholders
    rw [hparams] at hplaceholders
    rw [hsql]
    exact hplaceholders
  · exact forall_mem_of_forall₂ hdescribes.elements fun _ _ he =>
      he.isSome_value rfl Sample.nullRules_untitled Sample.respects_untitled .empty
  · exact (hdirections _ rfl).trans hs
  · rw [(createStatement_exact _ _).1]
    rintro ⟨t, -, hfits⟩
    exact hfits.unique ⟨rfl, "data.k", List.mem_singleton_self _, by decide⟩

end ShapedQuery
