import ShapedQuery.Config.Validation
import ShapedQuery.Proofs.Accounts

/-! # What an accepted configuration guarantees

In metadata without issues every reference leads somewhere (`Metadata.Closed`): tables have their
key, joins and computed fields name columns that exist, and fragments ask for fields that exist and
go on with fragments that exist.  The one kind of reference that is not looked at is a column of the
current user: of these it is only known that the metadata names them (`Metadata.userColumns`). -/

namespace ShapedQuery

/-! ### Columns -/

namespace Table

theorem column_of_column? {t : Table} {name : String} (h : (t.column? name).isSome = true) :
    name ∈ t.columns.map Prod.fst := by
  obtain ⟨c, hc⟩ := Option.isSome_iff_exists.mp h
  unfold column? at hc
  split at hc
  · rename_i c' rules hfield
    have hmem := Entries.mem_of_get? hfield
    refine List.mem_map.mpr ⟨(name, c', rules), ?_, rfl⟩
    exact List.mem_filterMap.mpr ⟨_, hmem, rfl⟩
  · cases hc

theorem column?_of_kind {t : Table} {name : String} {f : Field} {c : Column}
    (h : t.fields.get? name = some f) (hk : f.kind = .column c) : t.column? name = some c := by
  obtain ⟨kind, rules⟩ := f
  cases hk
  rw [column?, h]

end Table

/-- A table of the metadata has a column with this name. -/
def Metadata.HasColumn (m : Metadata) (table column : String) : Prop :=
  ∃ t, m.tables.get? table = some t ∧ column ∈ t.columns.map Prod.fst

/-! ### Columns of the current user -/

def JoinSpec.userColumns (join : JoinSpec) : List String :=
  join.on.filterMap fun
    | (_, .currentUserColumn name) => some name
    | _ => none

mutual

def Computed.userColumns : Computed → List String
  | .column _ => []
  | .currentUserColumn name => [name]
  | .resolverArg _ => []
  | .value _ => []
  | .joinedColumn join _ => join.userColumns
  | .joinedRow join => join.userColumns
  | .call _ arguments => Computed.userColumnsAll arguments
  | .binary left _ right => left.userColumns ++ right.userColumns
  | .isNull e => e.userColumns

def Computed.userColumnsAll : List Computed → List String
  | [] => []
  | e :: es => e.userColumns ++ Computed.userColumnsAll es

end

def FieldKind.userColumns : FieldKind → List String
  | .column _ => []
  | .computed e => e.userColumns
  | .relation join => join.userColumns

/-- The columns of the current user that fields of the metadata ask for. -/
def Metadata.userColumns (m : Metadata) : List String :=
  m.tables.flatMap fun (_, t) => t.fields.flatMap fun (_, f) => f.kind.userColumns

/-! ### References that lead somewhere -/

section closed

variable (m : Metadata) (own : Table) (U : String → Prop)

/-- An operand exists: a column of the own table, or a column of the user with `U`. -/
def JoinOperand.Closed : JoinOperand → Prop
  | .column name => (own.column? name).isSome = true
  | .currentUserColumn name => U name
  | .resolverArg _ => True
  | .value _ => True

structure JoinSpec.Closed (join : JoinSpec) : Prop where
  table : ∃ t, m.tables.get? join.table = some t
  operands : ∀ e ∈ join.on, e.2.Closed own U
  columns : ∀ e ∈ join.on, m.HasColumn join.table e.1

mutual

def Computed.Closed : Computed → Prop
  | .column name => (own.column? name).isSome = true
  | .currentUserColumn name => U name
  | .resolverArg _ => True
  | .value _ => True
  | .joinedColumn join c => join.Closed m own U ∧ m.HasColumn join.table c
  | .joinedRow join => join.Closed m own U
  | .call function arguments => isIdentifier function = true ∧ Computed.ClosedAll arguments
  | .binary left _ right => left.Closed ∧ right.Closed
  | .isNull e => e.Closed

def Computed.ClosedAll : List Computed → Prop
  | [] => True
  | e :: es => e.Closed ∧ Computed.ClosedAll es

end

def FieldKind.Closed : FieldKind → Prop
  | .column _ => True
  | .computed e => e.Closed m own U
  | .relation join => join.Closed m own U

/-- A selection asks for a field, and only in a relation goes on with a fragment, which exists. -/
def Selection.Closed (s : Selection) : Prop :=
  ∃ f, own.fields.get? s.name = some f ∧ match s with
    | .field _ => True
    | .nested _ fragment => (∃ join, f.kind = .relation join) ∧
      ∃ g, m.fragments.get? fragment = some g

end closed

/-- Every reference in the metadata leads somewhere, and `U` holds of the columns of the current
user that it names. -/
structure Metadata.Closed (m : Metadata) (U : String → Prop) : Prop where
  key : ∀ name t, m.tables.get? name = some t → (t.column? primaryKey).isSome = true
  field : ∀ name t, m.tables.get? name = some t →
    ∀ key f, t.fields.get? key = some f → f.kind.Closed m t U
  fragment : ∀ name f, m.fragments.get? name = some f →
    ∃ t, m.tables.get? f.table = some t ∧ ∀ s ∈ f.selections, s.Closed m t

/-! ### No issues -/

namespace FieldSite

variable {s : FieldSite} {U : String → Prop}

theorem isSome_of_columnIssues {tableName : String} {table : Table} {column : String}
    (h : s.columnIssues tableName table column = []) : (table.column? column).isSome = true := by
  unfold columnIssues at h
  split at h
  · assumption
  · cases h

/-- A join without issues, and one more column that it was asked for. -/
theorem closed_of_joinIssues {join : JoinSpec} {columns : List String}
    (h : s.joinIssues join columns = []) (hU : ∀ name ∈ join.userColumns, U name) :
    join.Closed s.metadata s.table U ∧ ∀ c ∈ columns, s.metadata.HasColumn join.table c := by
  unfold joinIssues at h
  rw [List.append_eq_nil_iff, List.flatMap_eq_nil_iff] at h
  obtain ⟨hoperands, hcolumns⟩ := h
  split at hcolumns
  · cases hcolumns
  · rename_i t ht
    rw [List.flatMap_eq_nil_iff] at hcolumns
    have hhas : ∀ c ∈ join.on.keys ++ columns, s.metadata.HasColumn join.table c := by
      intro c hc
      exact ⟨t, ht, Table.column_of_column? (isSome_of_columnIssues (hcolumns c hc))⟩
    refine ⟨⟨⟨t, ht⟩, ?_, ?_⟩, ?_⟩
    · intro e he
      have hissues := hoperands e he
      obtain ⟨key, operand⟩ := e
      cases operand with
      | column name => exact isSome_of_columnIssues hissues
      | currentUserColumn name => exact hU name (List.mem_filterMap.mpr ⟨_, he, rfl⟩)
      | resolverArg name => trivial
      | value j => trivial
    · intro e he
      exact hhas e.1 (List.mem_append_left _ (List.mem_map_of_mem he))
    · intro c hc
      exact hhas c (List.mem_append_right _ hc)

mutual

theorem closed_of_computedIssues : ∀ {e : Computed}, s.computedIssues e = [] →
    (∀ name ∈ e.userColumns, U name) → e.Closed s.metadata s.table U
  | .column _, h, _ => isSome_of_columnIssues h
  | .currentUserColumn name, _, hU => hU name (List.mem_singleton_self name)
  | .resolverArg _, _, _ => trivial
  | .value _, _, _ => trivial
  | .joinedColumn join column, h, hU => by
      obtain ⟨hjoin, hcolumns⟩ := closed_of_joinIssues h hU
      exact ⟨hjoin, hcolumns column (List.mem_singleton_self column)⟩
  | .joinedRow join, h, hU => (closed_of_joinIssues h hU).1
  | .call function arguments, h, hU => by
      rw [computedIssues, List.append_eq_nil_iff] at h
      refine ⟨?_, closedAll_of_computedIssues h.2 hU⟩
      cases hid : isIdentifier function with
      | true => rfl
      | false =>
          rw [hid] at h
          cases h.1
  | .binary left _ right, h, hU => by
      rw [computedIssues, List.append_eq_nil_iff] at h
      obtain ⟨hl, hr⟩ := List.forall_mem_append.mp hU
      exact ⟨closed_of_computedIssues h.1 hl, closed_of_computedIssues h.2 hr⟩
  | .isNull e, h, hU => by
      rw [computedIssues] at h
      exact closed_of_computedIssues (e := e) h hU

theorem closedAll_of_computedIssues : ∀ {es : List Computed}, s.computedIssuesAll es = [] →
    (∀ name ∈ Computed.userColumnsAll es, U name) → Computed.ClosedAll s.metadata s.table U es
  | [], _, _ => trivial
  | e :: es, h, hU => by
      rw [computedIssuesAll, List.append_eq_nil_iff] at h
      obtain ⟨he, hes⟩ := List.forall_mem_append.mp hU
      exact ⟨closed_of_computedIssues h.1 he, closedAll_of_computedIssues h.2 hes⟩

end

theorem closed_of_kindIssues {k : FieldKind} (h : s.kindIssues k = [])
    (hU : ∀ name ∈ k.userColumns, U name) : k.Closed s.metadata s.table U := by
  cases k with
  | column c => trivial
  | computed e => exact closed_of_computedIssues h hU
  | relation join => exact (closed_of_joinIssues h hU).1

end FieldSite

namespace Metadata

variable {m : Metadata}

theorem closed_of_selectionIssues {fragment : String} {t : Table} {s : Selection}
    (h : m.selectionIssues fragment t s = []) : s.Closed m t := by
  unfold selectionIssues at h
  split at h
  · cases h
  · rename_i f _ hf
    exact ⟨f, hf, trivial⟩
  · rename_i f name nested hf
    rw [List.append_eq_nil_iff] at h
    refine ⟨f, hf, ?_, ?_⟩
    · cases hk : f.kind with
      | relation join => exact ⟨join, rfl⟩
      | column c =>
          rw [hk] at h
          cases h.1
      | computed e =>
          rw [hk] at h
          cases h.1
    · have hhas := h.2
      split at hhas
      · rename_i hsome
        exact Option.isSome_iff_exists.mp hsome
      · cases hhas

/-- Metadata without issues is closed. -/
theorem closed_of_issues (h : m.issues = []) : m.Closed (· ∈ m.userColumns) := by
  unfold issues at h
  rw [List.append_eq_nil_iff, List.flatMap_eq_nil_iff, List.flatMap_eq_nil_iff] at h
  obtain ⟨htables, hfragments⟩ := h
  have htable : ∀ name t, m.tables.get? name = some t → m.tableIssues name t = [] :=
    fun name t ht => htables _ (Entries.mem_of_get? ht)
  refine ⟨?_, ?_, ?_⟩
  · intro name t ht
    have hissues := htable name t ht
    rw [tableIssues, List.append_eq_nil_iff, List.append_eq_nil_iff] at hissues
    cases hkey : (t.column? primaryKey).isSome with
    | true => rfl
    | false =>
        rw [hkey] at hissues
        cases hissues.1.1
  · intro name t ht key f hf
    have hissues := htable name t ht
    rw [tableIssues, List.append_eq_nil_iff, List.append_eq_nil_iff,
      List.flatMap_eq_nil_iff] at hissues
    have hmem := Entries.mem_of_get? hf
    refine FieldSite.closed_of_kindIssues (hissues.1.2 _ hmem) fun c hc => ?_
    refine List.mem_flatMap.mpr ⟨_, Entries.mem_of_get? ht, ?_⟩
    exact List.mem_flatMap.mpr ⟨_, hmem, hc⟩
  · intro name f hf
    have hissues : m.fragmentIssues name f = [] := hfragments _ (Entries.mem_of_get? hf)
    unfold fragmentIssues at hissues
    split at hissues
    · cases hissues
    · rename_i t ht
      rw [List.flatMap_eq_nil_iff] at hissues
      exact ⟨t, ht, fun s hs => closed_of_selectionIssues (hissues s hs)⟩

end Metadata

/-- An accepted configuration is closed, and its current user has a table. -/
theorem Configuration.closed_of_validate {c : Configuration} {rc : RuntimeConfiguration}
    (h : c.validate = .ok rc) : rc.metadata.Closed (· ∈ rc.metadata.userColumns) ∧
      ∃ t, rc.metadata.tables.get? rc.settings.currentUserTable = some t := by
  unfold validate at h
  split at h
  · rename_i hissues
    cases h
    unfold issues at hissues
    rw [List.append_eq_nil_iff] at hissues
    refine ⟨Metadata.closed_of_issues hissues.1, ?_⟩
    have huser := hissues.2
    split at huser
    · rename_i hhas
      exact Option.isSome_iff_exists.mp hhas
    · cases huser
  · cases h

end ShapedQuery
