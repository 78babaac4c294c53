import ShapedQuery.Format.Configuration
import ShapedQuery.Format.Request
import ShapedQuery.Proofs.Showing

/-! # Reading back what was written as a JSON value

Every value of the format is accepted in the form in which it is written, from the types of columns
up to whole configurations and requests.  Since a document of any depth is read, this is so for
types and expressions that are nested as deep as one likes. -/

namespace ShapedQuery

/-! ### Columns -/

theorem ScalarType.accepts (t : ScalarType) : Accepts read (.str t.name) t :=
  accepts_oneOf t.get?_names_name

theorem ColumnType.accepts_within (t : ColumnType) {depth : Nat} (h : t.json.depth ≤ depth) :
    Accepts (readWithin depth) t.json t := by
  induction t generalizing depth with
  | scalar type =>
      intro d hd
      obtain ⟨e, hsingle, he⟩ := hd.single
      simp only [json, Json.depth] at h
      obtain ⟨depth, rfl⟩ := Nat.exists_eq_add_of_le' h
      simp [readWithin, hsingle, ScalarType.accepts type e he, Except.map]
  | array items ih =>
      intro d hd
      obtain ⟨e, hsingle, he⟩ := hd.single
      simp only [json, Json.depth, Json.depthEntries] at h
      obtain ⟨depth, rfl⟩ : ∃ k, depth = k + 1 := ⟨depth - 1, by omega⟩
      have hitems : items.json.depth ≤ depth := by omega
      simp [readWithin, hsingle, ih hitems e he, Except.map]

theorem ColumnType.accepts (t : ColumnType) : Accepts read t.json t :=
  fun d hd => t.accepts_within (Nat.le_of_eq hd.depth_eq.symm) d hd

theorem Column.accepts_nullable (c : Column) : Accepts (Doc.oneOf nullableNames)
    (.str (if c.nullable then "Nullable" else "NonNullable")) c.nullable := by
  refine accepts_oneOf ?_
  cases c.nullable <;> rfl

/-! ### Joins -/

theorem JoinKind.accepts (k : JoinKind) : Accepts (Doc.oneOf names) (.str k.name) k := by
  refine accepts_oneOf ?_
  cases k <;> rfl

theorem JoinOperand.accepts {o : JoinOperand} (h : o.Keyed) : Accepts read o.json o := by
  intro d hd
  cases o with
  | column name =>
      obtain ⟨e, hsingle, he⟩ := hd.single
      simp [read, hsingle, accepts_string name e he, Except.map]
  | currentUserColumn name =>
      obtain ⟨e, hsingle, he⟩ := hd.single
      simp [read, hsingle, accepts_string name e he, Except.map]
  | resolverArg name =>
      obtain ⟨e, hsingle, he⟩ := hd.single
      simp [read, hsingle, accepts_string name e he, Except.map]
  | value j =>
      obtain ⟨e, hsingle, he⟩ := hd.single
      simp [read, hsingle, accepts_json h e he, Except.map]

theorem JoinSpec.accepts {s : JoinSpec} (h : s.Keyed) : Accepts read s.json s := by
  have hon := accepts_entries h.columns fun e he => JoinOperand.accepts (h.operands e he)
  refine accepts_record (some s.table, some s.kind, some s.on, ()) (by decide)
    (by simp [Entries.keys]) ?_ fun line => rfl
  simp [fields, Fields.empty, Entries.get?, accepts_string, JoinKind.accepts, hon]

/-! ### Computed fields -/

namespace Computed

/-- Induction over an expression, with the hypothesis for each argument of a call. -/
@[elab_as_elim]
theorem induct {P : Computed → Prop} (column : ∀ name, P (.column name))
    (currentUserColumn : ∀ name, P (.currentUserColumn name))
    (resolverArg : ∀ name, P (.resolverArg name)) (value : ∀ j, P (.value j))
    (joinedColumn : ∀ join name, P (.joinedColumn join name))
    (joinedRow : ∀ join, P (.joinedRow join))
    (call : ∀ function arguments, (∀ e ∈ arguments, P e) → P (.call function arguments))
    (binary : ∀ left operator right, P left → P right → P (.binary left operator right))
    (isNull : ∀ e, P e → P (.isNull e)) (e : Computed) : P e :=
  @Computed.rec P (fun es => ∀ e ∈ es, P e) column currentUserColumn resolverArg value joinedColumn
    joinedRow call binary isNull (List.forall_mem_nil _)
    (fun _ _ he hes => List.forall_mem_cons.mpr ⟨he, hes⟩) e

theorem jsons_eq (es : List Computed) : jsons es = es.map json := by
  induction es with
  | nil => rfl
  | cons e es ih => rw [jsons, ih, List.map_cons]

theorem Operator.accepts (op : Operator) : Accepts (Doc.oneOf names) (.str op.name) op :=
  accepts_oneOf op.get?_names_name

/-- All forms are objects, so reading one uses up a level. -/
theorem exists_depth (e : Computed) {depth : Nat} (h : e.json.depth ≤ depth) :
    ∃ k, depth = k + 1 := by
  have hpos : 0 < e.json.depth := by
    cases e <;> exact Nat.succ_pos _
  exact ⟨depth - 1, by omega⟩

theorem accepts_isNull {listed : Bool} {depth : Nat} {j : Json} {e : Computed}
    (h : Accepts (readWithin listed depth) j e) :
    Accepts (readWithin listed (depth + 1)) (.obj [("is_null", j)]) (.isNull e) := by
  intro d hd
  obtain ⟨body, hsingle, hbody⟩ := hd.single
  simp [readWithin, hsingle, h body hbody, bind, Except.bind, pure, Except.pure]

/-- An expression is accepted if the reader goes as deep as it is nested. -/
theorem accepts_within (listed : Bool) {e : Computed} (h : e.Distinct) {depth : Nat}
    (hdepth : e.json.depth ≤ depth) : Accepts (readWithin listed depth) e.json e := by
  induction e using Computed.induct generalizing depth with
  | column name =>
      intro d hd
      obtain ⟨depth, rfl⟩ := exists_depth _ hdepth
      obtain ⟨body, hsingle, hbody⟩ := hd.single
      simp [readWithin, hsingle, bind, Except.bind, pure, Except.pure,
        accepts_string name body hbody]
  | currentUserColumn name =>
      intro d hd
      obtain ⟨depth, rfl⟩ := exists_depth _ hdepth
      obtain ⟨body, hsingle, hbody⟩ := hd.single
      simp [readWithin, hsingle, bind, Except.bind, pure, Except.pure,
        accepts_string name body hbody]
  | resolverArg name =>
      intro d hd
      obtain ⟨depth, rfl⟩ := exists_depth _ hdepth
      obtain ⟨body, hsingle, hbody⟩ := hd.single
      simp [readWithin, hsingle, bind, Except.bind, pure, Except.pure,
        accepts_string name body hbody]
  | value j =>
      intro d hd
      obtain ⟨depth, rfl⟩ := exists_depth _ hdepth
      obtain ⟨body, hsingle, hbody⟩ := hd.single
      simp [readWithin, hsingle, bind, Except.bind, pure, Except.pure, accepts_json h body hbody]
  | joinedColumn join name =>
      intro d hd
      obtain ⟨depth, rfl⟩ := exists_depth _ hdepth
      obtain ⟨body, hsingle, hbody⟩ := hd.single
      have hrecord : ∃ line, body.recordIn listed joinedColumnFields =
          .ok (line, some join, some name, ()) :=
        hbody.recordIn listed (by decide) (by simp [Entries.keys])
          (by simp [joinedColumnFields, Fields.empty, Entries.get?,
            JoinSpec.accepts h, accepts_string])
      obtain ⟨line, hrecord⟩ := hrecord
      simp [readWithin, hsingle, hrecord, bind, Except.bind, pure, Except.pure, required]
  | joinedRow join =>
      intro d hd
      obtain ⟨depth, rfl⟩ := exists_depth _ hdepth
      obtain ⟨body, hsingle, hbody⟩ := hd.single
      have hrecord : ∃ line, body.recordIn listed joinedRowFields = .ok (line, some join, ()) :=
        hbody.recordIn listed (by decide) (by simp [Entries.keys])
          (by simp [joinedRowFields, Fields.empty, Entries.get?,
            JoinSpec.accepts h])
      obtain ⟨line, hrecord⟩ := hrecord
      simp [readWithin, hsingle, hrecord, bind, Except.bind, pure, Except.pure, required]
  | call function arguments ih =>
      intro d hd
      obtain ⟨depth, rfl⟩ := exists_depth _ hdepth
      have harguments : Accepts (Doc.list (readWithin listed depth)) (.arr (jsons arguments))
          arguments := by
        rw [jsons_eq]
        refine accepts_list fun e he => ih e he (distinctAll_iff.mp h e he) ?_
        have hitem : e.json ∈ arguments.map json := List.mem_map_of_mem he
        have hle := Json.depth_le_depthItems hitem
        simp only [json, jsons_eq, Json.depth, Json.depthEntries] at hdepth
        omega
      obtain ⟨body, hsingle, hbody⟩ := hd.single
      have hrecord : ∃ line, body.recordIn listed (callFields (readWithin listed depth)) =
          .ok (line, some function, some arguments, ()) :=
        hbody.recordIn listed (by simp [callFields, Fields.names]) (by simp [Entries.keys])
          (by simp [callFields, Fields.empty, Entries.get?, accepts_string,
            harguments])
      obtain ⟨line, hrecord⟩ := hrecord
      simp [readWithin, hsingle, hrecord, bind, Except.bind, pure, Except.pure, required]
  | binary left operator right ihl ihr =>
      intro d hd
      obtain ⟨depth, rfl⟩ := exists_depth _ hdepth
      simp only [json, Json.depth, Json.depthEntries] at hdepth
      have hleft : Accepts (readWithin listed depth) left.json left := ihl h.1 (by omega)
      have hright : Accepts (readWithin listed depth) right.json right := ihr h.2 (by omega)
      obtain ⟨body, hsingle, hbody⟩ := hd.single
      have hrecord : ∃ line, body.recordIn listed (binaryFields (readWithin listed depth)) =
          .ok (line, some left, some operator, some right, ()) :=
        hbody.recordIn listed (by simp [binaryFields, Fields.names]) (by simp [Entries.keys])
          (by simp [binaryFields, Fields.empty, Entries.get?, hleft, hright,
            Operator.accepts])
      obtain ⟨line, hrecord⟩ := hrecord
      simp [readWithin, hsingle, hrecord, bind, Except.bind, pure, Except.pure, required]
  | isNull e ih =>
      obtain ⟨depth, rfl⟩ := exists_depth _ hdepth
      simp only [json, Json.depth, Json.depthEntries] at hdepth
      exact accepts_isNull (ih h (by omega))

theorem accepts {e : Computed} (h : e.Distinct) : Accepts read e.json e :=
  fun d hd => accepts_within true h (Nat.le_of_eq hd.depth_eq.symm) d hd

end Computed

/-! ### Permissions and users -/

theorem Predicate.accepts (p : Predicate) : Accepts (Doc.oneOf names) (.str p.name) p := by
  refine accepts_oneOf ?_
  cases p <;> rfl

theorem Permission.accepts (p : Permission) : Accepts read p.json p := by
  intro d hd
  obtain ⟨j, hj, -⟩ := hd.json
  cases p with
  | group name =>
      cases hd with
      | str => simp [read, hj]
  | predicate p =>
      have hobject : ∃ line, d.object predicateFields = .ok (line, some p, ()) :=
        hd.object (by decide) (by simp [Entries.keys])
          (by simp [predicateFields, Fields.empty, Entries.get?, Predicate.accepts])
      obtain ⟨line, hobject⟩ := hobject
      cases hd with
      | obj h => simp [read, hj, hobject]

theorem User.accepts (u : User) : Accepts read u.json u := by
  have hgroups : Accepts (Doc.list Doc.string) (.arr (u.groups.map .str)) u.groups :=
    accepts_list fun g _ => accepts_string g
  refine accepts_record (some u.id, some u.groups, some u.isAdmin, ()) (by decide)
    (by simp [Entries.keys]) ?_ fun line => rfl
  simp [fields, Fields.empty, Entries.get?, accepts_string, accepts_flag, hgroups]

/-! ### Indexes -/

theorem Direction.accepts (d : Direction) : Accepts read d.json d := by
  intro doc hdoc
  cases d <;> cases hdoc <;> rfl

theorem Collation.accepts (c : Collation) : Accepts read c.json c := by
  refine accepts_record (some c.locale, some c.strength, ()) (by decide)
    (by simp [Entries.keys]) ?_ fun line => rfl
  simp [fields, Fields.empty, Entries.get?, accepts_string, accepts_byte]

/-- The entries of an object whose values are read as they are. -/
theorem accepts_jsonEntries {es : Entries Json} (h : (Json.obj es).Keyed) :
    Accepts (Doc.entries Doc.json) (.obj es) es := by
  have haccepts : Accepts (Doc.entries Doc.json) (.obj (es.map fun e => (e.1, id e.2))) es :=
    accepts_entries h.1 fun e he => accepts_json (Json.keyedEntries_iff.mp h.2 e he)
  simpa using haccepts

theorem IndexOptions.accepts {o : IndexOptions}
    (h : ∀ es, o.partialFilter = some es → (Json.obj es).Keyed) : Accepts read o.json o := by
  obtain ⟨unique, filter, collation, concurrently⟩ := o
  have hfilter : ∀ es, filter = some es →
      Accepts (Doc.optional (Doc.entries Doc.json)) (.obj es) (some es) :=
    fun es hes => (accepts_jsonEntries (h es hes)).optional fun hnull => by cases hnull
  have hcollation : ∀ c : Collation, Accepts (Doc.optional Collation.read) c.json (some c) :=
    fun c => c.accepts.optional fun hnull => by cases hnull
  -- an option that is not there is not written
  have hread : Accepts read (json ⟨unique, filter, collation, concurrently⟩)
      ⟨unique, (filter.map some).getD none, (collation.map some).getD none, concurrently⟩ := by
    refine accepts_record (some unique, filter.map some, collation.map some, some concurrently, ())
      (by decide) ?_ ?_ fun line => rfl
    · cases filter <;> cases collation <;> simp [Entries.keys]
    · cases filter <;> cases collation <;>
        simp [fields, Fields.empty, Entries.get?, accepts_flag, hfilter, hcollation]
  cases filter <;> cases collation <;> exact hread

theorem IndexInfo.accepts_fields {fields : Entries Direction} (h : fields.keys.Nodup) :
    Accepts (Doc.entries Direction.read) (fieldsJson fields) fields :=
  accepts_entries h fun e _ => e.2.accepts

theorem IndexInfo.accepts {i : IndexInfo} (h : i.Distinct) : Accepts read i.json i := by
  have hfields : Accepts readFields (fieldsJson i.fields) i.fields := accepts_fields h.fields
  refine accepts_record (some i.fields, some i.options, ()) (by decide) (by simp [Entries.keys])
    ?_ fun line => rfl
  simp [slots, Fields.empty, Entries.get?, hfields, IndexOptions.accepts h.filter]

/-! ### Fields -/

namespace Field

/-- Members other than the rules are gathered as they are, by induction over the entries they show;
what comes after them is left to be gathered. -/
theorem gather_of_shows {es tail : Entries Json} (h : ∀ e ∈ es, e.1 ≠ "can_read") {ms : Members}
    (hms : ms.Shows (es ++ tail)) (done : Gathered) :
    ∃ rest others, rest.Shows tail ∧ (∀ line, (members line others).Shows es) ∧
      gather ms done = gather rest { done with others := done.others ++ others } := by
  induction es generalizing ms done with
  | nil =>
      refine ⟨ms, [], hms, fun line => .closed, ?_⟩
      rw [List.append_nil]
  | cons e es ih =>
      rw [List.forall_mem_cons] at h
      cases hms with
      | @cons key colon value after rest j es' hvalue hrest =>
          obtain ⟨j', hj, -⟩ := hvalue.json
          obtain ⟨rest', others, hrest', hothers, hgather⟩ :=
            ih h.2 hrest { done with others := done.others ++ [(key, value)] }
          refine ⟨rest', (key, value) :: others, hrest', fun line => .cons hvalue (hothers line), ?_⟩
          rw [gather, if_neg h.1, hj]
          simp only [hgather, List.append_assoc, List.singleton_append]

theorem accepts_column : Accepts Kind.read (.str "column") .column := by
  intro d hd
  cases hd
  rfl

theorem accepts_computed : Accepts Kind.read (.str "computed") .computed := by
  intro d hd
  cases hd
  rfl

theorem accepts_relation : Accepts Kind.read (.str "relation") .relation := by
  intro d hd
  cases hd
  rfl

theorem readKind_computed {j : Json} {e : Computed} (h : Accepts Computed.read j e) {ms : Members}
    (hms : ms.Shows [("kind", .str "computed"), ("expression", j)]) :
    readKind ms = .ok (.computed e) := by
  have hkind : ∃ line, ms.record kindFields kindFields.empty =
      .ok (line, some Kind.computed, ()) :=
    hms.record (by decide) (by simp [Entries.keys])
      (by simp [kindFields, Fields.empty, Entries.get?, accepts_computed])
  have hexpression : ∃ line, ms.record computedFields computedFields.empty =
      .ok (line, some e, ()) :=
    hms.record (by decide) (by simp [Entries.keys])
      (by simp [computedFields, Fields.empty, Entries.get?, h])
  obtain ⟨line, hkind⟩ := hkind
  obtain ⟨line', hexpression⟩ := hexpression
  simp [readKind, hkind, hexpression, bind, Except.bind, pure, Except.pure, required]

theorem readKind_of_shows {kind : FieldKind} (h : kind.Distinct) {ms : Members}
    (hms : ms.Shows (kindEntries kind)) : readKind ms = .ok kind := by
  cases kind with
  | column c =>
      have hkind : ∃ line, ms.record kindFields kindFields.empty =
          .ok (line, some Kind.column, ()) :=
        hms.record (by decide) (by simp [Entries.keys, kindEntries, Column.entries])
          (by simp [kindFields, kindEntries, Fields.empty, Entries.get?, accepts_column])
      have hcolumn : ∃ line, ms.record Column.fields Column.fields.empty =
          .ok (line, some c.type, some c.nullable, ()) :=
        hms.record (by decide) (by simp [Entries.keys, kindEntries, Column.entries])
          (by simp [Column.fields, kindEntries, Column.entries, Fields.empty,
            Entries.get?, ColumnType.accepts, Column.accepts_nullable])
      obtain ⟨line, hkind⟩ := hkind
      obtain ⟨line', hcolumn⟩ := hcolumn
      simp [readKind, hkind, hcolumn, bind, Except.bind, pure, Except.pure, required,
        Column.ofSlots, Except.map]
  | computed e => exact readKind_computed (Computed.accepts h) hms
  | relation join =>
      have hkind : ∃ line, ms.record kindFields kindFields.empty =
          .ok (line, some Kind.relation, ()) :=
        hms.record (by decide) (by simp [Entries.keys, kindEntries])
          (by simp [kindFields, kindEntries, Fields.empty, Entries.get?, accepts_relation])
      have hjoin : ∃ line, ms.record relationFields relationFields.empty =
          .ok (line, some join, ()) :=
        hms.record (by decide) (by simp [Entries.keys, kindEntries])
          (by simp [relationFields, kindEntries, Fields.empty, Entries.get?,
            JoinSpec.accepts h])
      obtain ⟨line, hkind⟩ := hkind
      obtain ⟨line', hjoin⟩ := hjoin
      simp [readKind, hkind, hjoin, bind, Except.bind, pure, Except.pure, required]

theorem kindEntries_ne_rules {kind : FieldKind} : ∀ e ∈ kindEntries kind, e.1 ≠ "can_read" := by
  cases kind <;> simp [kindEntries, Column.entries]

/-- A field from the entries for its kind and those for its rules. -/
theorem accepts_of_kind {es tail : Entries Json} (hes : ∀ e ∈ es, e.1 ≠ "can_read")
    {kind : FieldKind} (hkind : ∀ ms : Members, ms.Shows es → readKind ms = .ok kind)
    {rules : Option (List Permission)}
    (hrules : ∀ (rest : Members) (others : List (String × Doc)), rest.Shows tail →
      ∃ line, gather rest ⟨none, others⟩ = .ok (line, ⟨rules, others⟩)) :
    Accepts read (.obj (es ++ tail)) ⟨kind, rules.getD []⟩ := by
  intro d hd
  cases hd with
  | obj hms =>
      obtain ⟨rest, others, hrest, hothers, hgather⟩ := gather_of_shows hes hms ⟨none, []⟩
      obtain ⟨line, hrules⟩ := hrules rest others hrest
      simp [read, hgather, hrules, hkind _ (hothers line)]

theorem gather_closed {rest : Members} (h : rest.Shows []) (done : Gathered) :
    ∃ line, gather rest done = .ok (line, done) := by
  cases h
  exact ⟨_, rfl⟩

theorem accepts {f : Field} (h : f.kind.Distinct) : Accepts read f.json f := by
  obtain ⟨kind, rules⟩ := f
  have hkind : ∀ ms : Members, ms.Shows (kindEntries kind) → readKind ms = .ok kind :=
    fun _ hms => readKind_of_shows h hms
  cases rules with
  | nil => exact accepts_of_kind kindEntries_ne_rules hkind fun rest others hrest =>
      gather_closed hrest _
  | cons rule rules =>
      have hrules : Accepts (Doc.list Permission.read)
          (.arr ((rule :: rules).map Permission.json)) (rule :: rules) :=
        accepts_list fun p _ => p.accepts
      have hfield : Accepts read (Field.json ⟨kind, rule :: rules⟩)
          ⟨kind, (some (rule :: rules)).getD []⟩ := by
        refine accepts_of_kind kindEntries_ne_rules hkind fun rest others hrest => ?_
        cases hrest with
        | cons hvalue hrest =>
            obtain ⟨line, hgather⟩ := gather_closed hrest ⟨some (rule :: rules), others⟩
            exact ⟨line, by simp [gather, hrules _ hvalue, Read.placed, Except.mapError, hgather]⟩
      exact hfield

end Field

/-! ### Tables, fragments and the metadata -/

theorem Table.accepts {t : Table} (h : t.Distinct) : Accepts read t.json t := by
  obtain ⟨fields, indexes⟩ := t
  have hfields : Accepts (Doc.entries Field.read) (.obj (fields.map fun e => (e.1, e.2.json)))
      fields :=
    accepts_entries h.names fun e he => Field.accepts (h.kinds e he)
  have hindexes : Accepts (Doc.list IndexInfo.read) (.arr (indexes.map IndexInfo.json)) indexes :=
    accepts_list fun i hi => IndexInfo.accepts (h.indexes i hi)
  cases indexes with
  | nil =>
      refine accepts_record (some fields, none, ()) (by decide) (by simp [Entries.keys]) ?_
        fun line => rfl
      simp [slots, Fields.empty, Entries.get?, hfields]
  | cons i indexes =>
      rw [List.map_cons] at hindexes
      refine accepts_record (some fields, some (i :: indexes), ()) (by decide)
        (by simp [Entries.keys]) ?_ fun line => rfl
      simp [slots, Fields.empty, Entries.get?, hfields, hindexes]

theorem Selection.accepts (s : Selection) : Accepts read s.json s := by
  intro d hd
  obtain ⟨j, hj, -⟩ := hd.json
  cases s with
  | field name =>
      cases hd with
      | str => simp [read, hj]
  | nested name fragment =>
      have hobject : ∃ line, d.object nestedFields = .ok (line, some name, some fragment, ()) :=
        hd.object (by decide) (by simp [Entries.keys])
          (by simp [nestedFields, Fields.empty, Entries.get?, accepts_string])
      obtain ⟨line, hobject⟩ := hobject
      cases hd with
      | obj h => simp [read, hj, hobject]

theorem Fragment.accepts (f : Fragment) : Accepts read f.json f := by
  have hselections : Accepts (Doc.list Selection.read) (.arr (f.selections.map Selection.json))
      f.selections :=
    accepts_list fun s _ => s.accepts
  refine accepts_record (some f.table, some f.selections, ()) (by decide) (by simp [Entries.keys])
    ?_ fun line => rfl
  simp [slots, Fields.empty, Entries.get?, accepts_string, hselections]

theorem Metadata.accepts {m : Metadata} (h : m.Distinct) : Accepts read m.json m := by
  have htables : Accepts (Doc.sorted Table.read) (.obj (m.tables.map fun e => (e.1, e.2.json)))
      m.tables :=
    accepts_sorted h.tables fun e he => Table.accepts (h.each e he)
  have hfragments : Accepts (Doc.sorted Fragment.read)
      (.obj (m.fragments.map fun e => (e.1, e.2.json))) m.fragments :=
    accepts_sorted h.fragments fun e _ => e.2.accepts
  refine accepts_record (some m.tables, some m.fragments, ()) (by decide)
    (by simp [Entries.keys]) ?_ fun line => rfl
  simp [slots, Fields.empty, Entries.get?, htables, hfragments]

/-! ### Configurations and requests -/

theorem Settings.accepts (s : Settings) : Accepts read s.json s := by
  refine accepts_record (some s.maxFragmentDepth, some s.currentUserTable, ()) (by decide)
    (by simp [Entries.keys]) ?_ fun line => rfl
  simp [slots, Fields.empty, Entries.get?, accepts_word32, accepts_string]

theorem Configuration.accepts {c : Configuration} (h : c.Distinct) : Accepts read c.json c := by
  refine accepts_record (some c.version, some c.settings, some c.metadata, ()) (by decide)
    (by simp [Entries.keys]) ?_ fun line => rfl
  simp [slots, Fields.empty, Entries.get?, accepts_word32, Settings.accepts,
    Metadata.accepts h]

theorem Selector.accepts {s : Selector} (h : ∀ es, s = .filter es → (Json.obj es).Keyed) :
    Accepts read s.json s := by
  intro d hd
  cases s with
  | id key =>
      cases hd
      rfl
  | filter es =>
      have hjson : d.json = .ok (.obj es) := accepts_json (h es rfl) d hd
      simp [read, hjson]

theorem Request.accepts_number (n : Option UInt32) :
    Accepts (Doc.optional Doc.word32) (numberJson n) n := by
  cases n with
  | none => exact accepts_null _
  | some n => exact (accepts_word32 n).optional fun hnull => by cases hnull

theorem Request.accepts {r : Request} (h : r.Distinct) : Accepts read r.json r := by
  obtain ⟨fragment, selector, sort, limit, skip, collation, args⟩ := r
  have hargs : Accepts readArgs (.obj args) args := by
    have haccepts : Accepts readArgs (.obj (args.map fun e => (e.1, id e.2))) args :=
      accepts_distinct .repeatedArgument h.args.1 fun e he =>
        accepts_json (Json.keyedEntries_iff.mp h.args.2 e he)
    simpa using haccepts
  have hcollation : ∀ c : Collation, Accepts (Doc.optional Collation.read) c.json (some c) :=
    fun c => c.accepts.optional fun hnull => by cases hnull
  refine accepts_record (some fragment, some selector, some sort, some limit, some skip,
    some collation, some args, ()) (by decide) (by simp [Entries.keys]) ?_ fun line => rfl
  cases collation <;>
    simp [slots, Fields.empty, Entries.get?, accepts_string, Selector.accepts h.filter,
      IndexInfo.accepts_fields h.sort, accepts_number, accepts_null, hcollation, hargs]

/-! ### A sample of everything -/

namespace Archive

/-- A join with a value in it, whose keys are not in alphabetical order. -/
def author : JoinSpec :=
  ⟨"Users", .inner, [("_id", .column "authorId"),
    ("home", .value (.obj [("zip", .int 8001), ("city", .arr [.null, .str "Zürich"])]))]⟩

/-- An expression with calls in calls, one of them without arguments. -/
def rank : Computed :=
  .call "greatest" [.isNull (.joinedColumn author "name"),
    .binary (.value (.obj [("weight", .float ⟨0x3FF8000000000000⟩)])) .multiply (.call "now" [])]

def posts : Table where
  fields := [("_id", ⟨.column ⟨.scalar .uuid, false⟩, []⟩),
    ("tags", ⟨.column ⟨.array (.array (.scalar .text)), true⟩, [.group "editors", .predicate .admin]⟩),
    ("rank", ⟨.computed rank, []⟩), ("author", ⟨.relation author, [.group ""]⟩)]
  indexes := [⟨[("tags", .descending), ("_id", .ascending)],
    ⟨true, some [("draft", .bool false)], some ⟨"de", 2⟩, false⟩⟩]

def users : Table where
  fields := [("name", ⟨.column ⟨.scalar .text, true⟩, []⟩)]
  indexes := [⟨[], .default⟩]

def configuration : Configuration where
  version := 1
  settings := ⟨3, "Users"⟩
  metadata := ⟨[("Posts", posts), ("Users", users)],
    [("Post", ⟨"Posts", [.field "rank", .nested "author" "User"]⟩), ("User", ⟨"Users", []⟩)]⟩

def request : Request where
  fragment := "Post"
  selector := .filter [("rank", .obj [("$gt", .int (-1)), ("$exists", .bool true)])]
  sort := [("rank", .descending), ("_id", .ascending)]
  limit := some 20
  skip := none
  collation := some ⟨"de", 1⟩
  resolverArgs := [("since", .obj []), ("area", .str "\"x\"")]

theorem keyed_author : author.Keyed := by
  refine ⟨by decide, ?_⟩
  simp [author, JoinOperand.Keyed, Json.Keyed, Json.KeyedItems, Json.KeyedEntries, Entries.keys]

theorem distinct_rank : rank.Distinct := by
  simp [rank, Computed.Distinct, Computed.DistinctAll, keyed_author, Json.Keyed,
    Json.KeyedEntries, Entries.keys]

theorem distinct_posts : posts.Distinct where
  names := by decide
  kinds := by simp [posts, FieldKind.Distinct, keyed_author, distinct_rank]
  indexes := by
    intro i hi
    cases List.mem_singleton.mp hi
    refine ⟨by decide, ?_⟩
    rintro es ⟨⟩
    simp [Json.Keyed, Json.KeyedEntries, Entries.keys]

theorem distinct_configuration : configuration.Distinct where
  tables := List.pairwise_pair.mpr (by decide : "Posts" < "Users")
  fragments := List.pairwise_pair.mpr (by decide : "Post" < "User")
  each := by
    have husers : users.Distinct := by
      refine ⟨by decide, by simp [users, FieldKind.Distinct], ?_⟩
      intro i hi
      cases List.mem_singleton.mp hi
      exact ⟨by decide, fun es hes => by cases hes⟩
    simp [configuration, distinct_posts, husers]

theorem distinct_request : request.Distinct where
  filter := by
    rintro es ⟨⟩
    simp [Json.Keyed, Json.KeyedEntries, Entries.keys]
  sort := by decide
  args := by simp [request, Json.Keyed, Json.KeyedEntries, Entries.keys]

end Archive

/-! ### Everything that is written -/

/-- **Reading undoes writing.**  A configuration, the metadata, a user or a request that is written
as a JSON value is read from this value again, with all maps in their order, if no map in it repeats
a key. -/
theorem decode_json :
    (∀ c : Configuration, c.Distinct → Doc.decode Configuration.read c.json = .ok c) ∧
    (∀ m : Metadata, m.Distinct → Doc.decode Metadata.read m.json = .ok m) ∧
    (∀ u : User, Doc.decode User.read u.json = .ok u) ∧
    ∀ r : Request, r.Distinct → Doc.decode Request.read r.json = .ok r := by
  refine ⟨fun c hc => ?_, fun m hm => ?_, fun u => ?_, fun r hr => ?_⟩
  · exact (Configuration.accepts hc).decode
  · exact (Metadata.accepts hm).decode
  · exact u.accepts.decode
  · exact (Request.accepts hr).decode

theorem decode_json_sample :
    Archive.configuration.Distinct ∧ Archive.request.Distinct ∧
      Doc.decode Configuration.read Archive.configuration.json = .ok Archive.configuration ∧
      Doc.decode Metadata.read Archive.configuration.metadata.json =
        .ok Archive.configuration.metadata ∧
      Doc.decode Request.read Archive.request.json = .ok Archive.request :=
  ⟨Archive.distinct_configuration, Archive.distinct_request,
    decode_json.1 _ Archive.distinct_configuration, decode_json.2.1 _ Archive.distinct_configuration,
    decode_json.2.2.2 _ Archive.distinct_request⟩

end ShapedQuery
