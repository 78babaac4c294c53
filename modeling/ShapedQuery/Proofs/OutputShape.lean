import ShapedQuery.Proofs.Keyed
import ShapedQuery.Proofs.Validation
import ShapedQuery.Query.Fragment

/-! # The shape of the output

What a user gets to see of a row depends on what was asked for (`Demand`) and on what the user may
read.  A user who may read all columns gets the whole row, and after it the other fields that were
asked for.  Everyone else gets the key, and after it what was asked for.  In both cases only fields
that the user may read are shown, in the order in which they were asked for (`Demand.keys`).

From the list of keys follows what one expects of such an object (`Fits`): no key comes twice,
nothing but the key is shown that may not be read, and nothing that may be read is missing.  The
objects of related rows are of the same shape again (`Shaped`). -/

namespace ShapedQuery

/-! ### Tables whose fields have names of their own -/

namespace Table

/-- May the user read the field with this name? -/
def reads (t : Table) (user : Option User) (name : String) : Bool :=
  (t.fields.get? name).any fun f => canRead user f.rules

/-- The names of the columns, in order. -/
def columnNames (t : Table) : List String := t.columns.map Prod.fst

/-- May the user read every column? -/
def readsAll (t : Table) (user : Option User) : Bool := t.columnNames.all (t.reads user)

/-- The table has its key, and no two of its fields have one name.  The latter is so for fields that
are read from a document (`Doc.nodup_keys_entries`). -/
structure Keyed (t : Table) : Prop where
  key : (t.column? primaryKey).isSome = true
  names : t.fields.keys.Nodup

variable {t : Table}

theorem reads_of_get? {user : Option User} {name : String} {f : Field}
    (h : t.fields.get? name = some f) : t.reads user name = canRead user f.rules := by
  rw [reads, h, Option.any_some]

theorem mem_fields_of_mem_columns {name : String} {c : Column} {rules : List Permission}
    (h : (name, c, rules) ∈ t.columns) : (name, ⟨.column c, rules⟩) ∈ t.fields := by
  obtain ⟨⟨name', kind, rules'⟩, hmem, hcolumn⟩ := List.mem_filterMap.mp h
  cases kind with
  | column c' =>
      cases hcolumn
      exact hmem
  | computed e => cases hcolumn
  | relation join => cases hcolumn

theorem Keyed.get?_of_mem_columns (ht : t.Keyed) {name : String} {c : Column}
    {rules : List Permission} (h : (name, c, rules) ∈ t.columns) :
    t.fields.get? name = some ⟨.column c, rules⟩ :=
  Entries.get?_of_mem ht.names (mem_fields_of_mem_columns h)

theorem Keyed.mem_columnNames (ht : t.Keyed) {name : String} :
    name ∈ t.columnNames ↔ (t.column? name).isSome = true := by
  refine ⟨fun h => ?_, column_of_column?⟩
  obtain ⟨⟨name', c, rules⟩, hmem, rfl⟩ := List.mem_map.mp h
  rw [column?_of_kind (ht.get?_of_mem_columns hmem) rfl]
  rfl

theorem Keyed.nodup_columnNames (ht : t.Keyed) : t.columnNames.Nodup := by
  have hsub : ∀ fields : Entries Field,
      List.Sublist ((Table.mk fields []).columns.map Prod.fst) fields.keys := by
    intro fields
    induction fields with
    | nil => exact List.Sublist.slnil
    | cons e fields ih =>
        obtain ⟨name, kind, rules⟩ := e
        cases kind with
        | column c => exact ih.cons_cons name
        | computed e => exact ih.cons name
        | relation join => exact ih.cons name
  exact (hsub t.fields).nodup ht.names

end Table

/-- Every table has its key, and fields with names of their own. -/
def Metadata.Keyed (m : Metadata) : Prop := ∀ name t, m.tables.get? name = some t → t.Keyed

namespace Compile

variable {env : Env} {t : Table}

/-- The whole row is read if every column may be read, by its name. -/
theorem readsWholeRow_eq (ht : t.Keyed) : readsWholeRow env t = t.readsAll env.user := by
  rw [Bool.eq_iff_iff, readsWholeRow, Table.readsAll, List.all_eq_true, List.all_eq_true]
  constructor
  · intro h name hname
    obtain ⟨⟨name', c, rules⟩, hmem, rfl⟩ := List.mem_map.mp hname
    rw [Table.reads_of_get? (ht.get?_of_mem_columns hmem)]
    exact h _ hmem
  · rintro h ⟨name, c, rules⟩ hmem
    have hreads := h name (List.mem_map_of_mem hmem)
    rwa [Table.reads_of_get? (ht.get?_of_mem_columns hmem)] at hreads

theorem readableColumns_eq (ht : t.Keyed) :
    readableColumns env t = t.columnNames.filter (t.reads env.user) := by
  have hfilter : ∀ columns : List (String × Column × List Permission),
      (∀ c ∈ columns, c ∈ t.columns) →
      (columns.filterMap fun c => if canRead env.user c.2.2 then some c.1 else none) =
        (columns.map Prod.fst).filter (t.reads env.user) := by
    intro columns h
    induction columns with
    | nil => rfl
    | cons c columns ih =>
        obtain ⟨name, c, rules⟩ := c
        rw [List.forall_mem_cons] at h
        have hreads : t.reads env.user name = canRead env.user rules :=
          Table.reads_of_get? (ht.get?_of_mem_columns h.1)
        rw [List.map_cons, List.filter_cons, List.filterMap_cons, ih h.2, hreads]
        dsimp only
        by_cases hc : canRead env.user rules = true
        · rw [if_pos hc, if_pos hc]
        · rw [if_neg hc, if_neg hc]
  exact hfilter t.columns fun _ h => h

end Compile

/-! ### What is asked for -/

/-- What is asked for of a row: its columns, or the fields of a fragment. -/
inductive Demand where
  | columns
  | fields (fragment : String) (selections : List Selection)

/-- What a selection asks for of a related row. -/
def Selection.demand (m : Metadata) : Selection → Demand
  | .field _ => .columns
  | .nested _ fragment =>
    match m.fragments.get? fragment with
    | some f => .fields fragment f.selections
    | none => .columns

namespace Demand

/-- The names asked for, in order. -/
def requested (t : Table) : Demand → List String
  | .columns => t.columnNames
  | .fields _ selections => selections.map Selection.name

/-- Within `d`, of the row under a key `d'` is asked for. -/
def Asks (d : Demand) (m : Metadata) (key : String) (d' : Demand) : Prop :=
  match d with
  | .columns => False
  | .fields _ selections => ∃ s ∈ selections, s.name = key ∧ s.demand m = d'

end Demand

variable (env : Env)

/-- Does a field that is asked for get an entry of its own?  The user must be able to read it, and
it must not be there anyway, as a part of the whole row or as the key. -/
def Table.shows (t : Table) (name : String) : Bool :=
  t.reads env.user name &&
    if t.readsAll env.user then (t.column? name).isNone else name != primaryKey

/-- The keys of the entries, in order. -/
def Demand.keys (t : Table) (d : Demand) : List String :=
  (if t.readsAll env.user then [] else [primaryKey]) ++ (d.requested t).filter (t.shows env)

/-- What is left out within a field that may be read; `below` tells what is left out in a related
row. -/
def FieldKind.dropped (below : Demand → String → List Dropped) (s : Selection) :
    FieldKind → List Dropped
  | .relation join => below (s.demand env.metadata) join.table
  | _ => []

/-- What is left out for one selection. -/
def Selection.dropped (below : Demand → String → List Dropped) (fragment table : String)
    (s : Selection) : List Dropped :=
  match (env.metadata.tables.get? table).bind fun t => t.fields.get? s.name with
  | none => []
  | some f =>
    if canRead env.user f.rules then FieldKind.dropped env below s f.kind
    else [⟨fragment, table, s.name⟩]

/-- The fields that are left out, in order: those asked for that the user may not read, here and in
related rows down to a depth. -/
def Demand.dropped : Nat → Demand → String → List Dropped
  | 0, _, _ => []
  | _ + 1, .columns, _ => []
  | depth + 1, .fields fragment selections, table =>
    selections.flatMap (Selection.dropped env (dropped depth) fragment table)

/-! ### What is shown -/

/-- What is shown of a row: the whole row under an alias, if at all, and then some entries. -/
structure Output where
  row : Option String
  entries : List (String × Expr Placeholder)

/-- All keys that are shown. -/
def Output.keys (o : Output) (t : Table) : List String :=
  (if o.row.isSome then t.columnNames else []) ++ o.entries.map Prod.fst

/-- The output is what a user gets who asks for `d`. -/
structure Fits (t : Table) (d : Demand) (label : String) (o : Output) : Prop where
  row : o.row = if t.readsAll env.user then some label else none
  entries : o.entries.map Prod.fst = d.keys env t
  /-- No key comes twice. -/
  distinct : (o.keys t).Nodup
  /-- What the user may not read is not shown. -/
  readable : ∀ key ∈ o.keys t, key = primaryKey ∨ t.reads env.user key = true
  /-- What is asked for and may be read is shown. -/
  complete : ∀ key ∈ d.requested t, t.reads env.user key = true → key ∈ o.keys t

/-- An expression comes from a computed field of the table under the alias. -/
def Computes (table label : String) (c : Computed) (e : Expr Placeholder) : Prop :=
  ∃ w w' : Work, w.context.table.name = table ∧ w.context.label = label ∧
    Compile.computed c w = .ok e w'

/-- An entry shows the field under its key; `below` says what the output of a related row is like,
and `B` which aliases are bound to which tables. -/
def EntryShaped (B : String → String → Prop) (below : Demand → String → String → Output → Prop)
    (t : Table) (d : Demand) (table label : String) (entry : String × Expr Placeholder) : Prop :=
  ∃ field, t.fields.get? entry.1 = some field ∧
    match field.kind with
    | .column _ => entry.2 = .columnOf label entry.1
    | .computed c => Computes table label c entry.2
    | .relation join => ∃ d' label' o', d.Asks env.metadata entry.1 d' ∧ B label' join.table ∧
        entry.2 = .relatedRow label' primaryKey o'.row o'.entries ∧ below d' join.table label' o'

/-- The output is what a user gets who asks for `d`, and so are the related rows in it, down to a
depth. -/
def Shaped (B : String → String → Prop) : Nat → Demand → String → String → Output → Prop
  | 0, _, _, _, _ => False
  | depth + 1, d, table, label, o =>
    ∃ t, env.metadata.tables.get? table = some t ∧ Fits env t d label o ∧
      ∀ entry ∈ o.entries, EntryShaped env B (Shaped B depth) t d table label entry

section

variable {env} {t : Table} {d : Demand} {label : String} {o : Output}

theorem EntryShaped.mono {B B' : String → String → Prop}
    {below below' : Demand → String → String → Output → Prop} (hB : ∀ l n, B l n → B' l n)
    (hbelow : ∀ d n l o, below d n l o → below' d n l o) {table : String}
    {entry : String × Expr Placeholder} (h : EntryShaped env B below t d table label entry) :
    EntryShaped env B' below' t d table label entry := by
  obtain ⟨⟨kind, rules⟩, hfield, hentry⟩ := h
  refine ⟨⟨kind, rules⟩, hfield, ?_⟩
  cases kind with
  | column c => exact hentry
  | computed c => exact hentry
  | relation join =>
      obtain ⟨d', label', o', hasks, hbound, hvalue, hshaped⟩ := hentry
      exact ⟨d', label', o', hasks, hB _ _ hbound, hvalue, hbelow _ _ _ _ hshaped⟩

theorem Shaped.mono {B B' : String → String → Prop} (hB : ∀ l n, B l n → B' l n) {depth : Nat}
    {table : String} (h : Shaped env B depth d table label o) :
    Shaped env B' depth d table label o := by
  induction depth generalizing d table label o with
  | zero => exact h
  | succ depth ih =>
      obtain ⟨t, ht, hfits, hentries⟩ := h
      exact ⟨t, ht, hfits, fun entry hmem =>
        (hentries entry hmem).mono hB fun _ _ _ _ => ih⟩

/-- What is there anyway: all columns, or the key. -/
def Table.base (env : Env) (t : Table) : List String :=
  if t.readsAll env.user then t.columnNames else [primaryKey]

theorem Table.Keyed.nodup_base (ht : t.Keyed) : (t.base env).Nodup := by
  unfold Table.base
  split
  · exact ht.nodup_columnNames
  · exact List.nodup_singleton _

theorem Table.reads_of_mem_base {key : String} (h : key ∈ t.base env) :
    key = primaryKey ∨ t.reads env.user key = true := by
  unfold Table.base at h
  split at h
  · rename_i hwhole
    exact .inr (List.all_eq_true.mp hwhole key h)
  · exact .inl (List.mem_singleton.mp h)

/-- A field that may be read is there anyway, or else it gets an entry. -/
theorem Table.Keyed.shows_iff (ht : t.Keyed) {key : String} (h : t.reads env.user key = true) :
    t.shows env key = true ↔ key ∉ t.base env := by
  rw [Table.shows, h, Bool.true_and, Table.base]
  split
  · rw [ht.mem_columnNames, Option.isNone_iff_eq_none, Bool.not_eq_true, Option.isSome_eq_false_iff,
      Option.isNone_iff_eq_none]
  · rw [bne_iff_ne, List.mem_singleton]

theorem Table.reads_of_shows {key : String} (h : t.shows env key = true) :
    t.reads env.user key = true := by
  rw [Table.shows, Bool.and_eq_true] at h
  exact h.1

theorem output_keys_eq (hrow : o.row = if t.readsAll env.user then some label else none)
    (hentries : o.entries.map Prod.fst = d.keys env t) :
    o.keys t = t.base env ++ (d.requested t).filter (t.shows env) := by
  rw [Output.keys, hrow, hentries, Demand.keys, Table.base]
  by_cases hwhole : t.readsAll env.user = true
  · simp only [hwhole, if_true, Option.isSome_some, List.nil_append]
  · simp only [hwhole, if_false, Option.isSome_none, Bool.false_eq_true, List.nil_append]

/-- Of a related row without a fragment the columns are shown that the user may read. -/
theorem Demand.keys_columns (ht : t.Keyed) : Demand.columns.keys env t =
    if t.readsAll env.user then []
    else primaryKey :: (Compile.readableColumns env t).filter fun name => name != primaryKey := by
  rw [keys, requested]
  by_cases hwhole : t.readsAll env.user = true
  · rw [if_pos hwhole, if_pos hwhole, List.nil_append, List.filter_eq_nil_iff]
    intro name hname hshows
    have hbase : name ∈ t.base env := by
      rw [Table.base, if_pos hwhole]
      exact hname
    exact (ht.shows_iff (Table.reads_of_shows hshows)).mp hshows hbase
  · rw [if_neg hwhole, if_neg hwhole, Compile.readableColumns_eq ht, List.filter_filter,
      List.singleton_append]
    refine congrArg _ (List.filter_congr fun name _ => ?_)
    rw [Table.shows, if_neg hwhole, Bool.and_comm]

theorem Demand.isSome_of_mem_keys_columns (ht : t.Keyed) {name : String}
    (h : name ∈ Demand.columns.keys env t) : (t.column? name).isSome = true := by
  rw [keys, List.mem_append] at h
  rcases h with h | h
  · split at h
    · cases h
    · rw [List.mem_singleton.mp h]
      exact ht.key
  · exact ht.mem_columnNames.mp (List.mem_filter.mp h).1

/-- A column that may be read gets an entry if the whole row is not shown and it is not the key. -/
theorem Table.shows_column {name : String} {f : Field} {c : Column}
    (hf : t.fields.get? name = some f) (hread : canRead env.user f.rules = true)
    (hk : f.kind = .column c) :
    t.shows env name = (!t.readsAll env.user && name != primaryKey) := by
  rw [Table.shows, Table.reads_of_get? hf, hread, column?_of_kind hf hk]
  cases t.readsAll env.user <;> rfl

/-- Any other field that may be read gets an entry. -/
theorem Table.Keyed.shows_other (ht : t.Keyed) {name : String} {f : Field}
    (hf : t.fields.get? name = some f) (hread : canRead env.user f.rules = true)
    (hk : ∀ c, f.kind ≠ .column c) : t.shows env name = true := by
  have hnone : t.column? name = none := by
    rw [Table.column?, hf]
    obtain ⟨kind, rules⟩ := f
    cases kind with
    | column c => exact absurd rfl (hk c)
    | computed e => rfl
    | relation join => rfl
  have hne : name ≠ primaryKey := by
    rintro rfl
    have hkey := ht.key
    rw [hnone] at hkey
    cases hkey
  rw [Table.shows, Table.reads_of_get? hf, hread, hnone, bne_iff_ne.mpr hne]
  cases t.readsAll env.user <;> rfl

/-- All else follows from the list of keys. -/
theorem fits_of_entries (ht : t.Keyed) (hd : (d.requested t).Nodup)
    (hrow : o.row = if t.readsAll env.user then some label else none)
    (hentries : o.entries.map Prod.fst = d.keys env t) : Fits env t d label o := by
  have hkeys := output_keys_eq hrow hentries
  refine ⟨hrow, hentries, ?_, fun key hkey => ?_, fun key hkey hreads => ?_⟩
  · rw [hkeys, List.nodup_append]
    refine ⟨ht.nodup_base, hd.filter _, fun key hbase key' hshown heq => ?_⟩
    have hshows := (List.mem_filter.mp hshown).2
    have hreads := Table.reads_of_shows hshows
    rw [heq] at hbase
    exact (ht.shows_iff hreads).mp hshows hbase
  · rw [hkeys, List.mem_append] at hkey
    rcases hkey with hbase | hshown
    · exact Table.reads_of_mem_base hbase
    · exact .inr (Table.reads_of_shows (List.mem_filter.mp hshown).2)
  · rw [hkeys, List.mem_append]
    by_cases hbase : key ∈ t.base env
    · exact .inl hbase
    · exact .inr (List.mem_filter.mpr ⟨hkey, (ht.shows_iff hreads).mpr hbase⟩)

end

end ShapedQuery
