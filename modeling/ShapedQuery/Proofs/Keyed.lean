import Mathlib.Data.List.Nodup
import ShapedQuery.Config.Basic
import ShapedQuery.Json.Reader
import ShapedQuery.Query.Request

/-! # Maps that repeat no key

Entries have names of their own (`Nodup` on their keys) or stand in the order of their names
(`Entries.Increasing`).  Both are kept when a name is set, so they hold of all maps that are read
from a document.

A JSON value is `Keyed` if none of its objects repeats a key.  A configuration or a request is
`Distinct` if this is so of all values in it, and of its own maps as well. -/

namespace ShapedQuery

/-! ### Entries -/

namespace Entries

variable {α : Type}

theorem mem_of_get? {es : Entries α} {key : String} {value : α} (h : es.get? key = some value) :
    (key, value) ∈ es := by
  induction es with
  | nil => cases h
  | cons e es ih =>
      obtain ⟨k, v⟩ := e
      rw [get?] at h
      split at h
      · rename_i hk
        cases h
        rw [hk]
        exact List.mem_cons_self
      · exact List.mem_cons_of_mem _ (ih h)

theorem get?_eq_none {es : Entries α} {key : String} (h : key ∉ es.keys) : es.get? key = none := by
  by_contra hsome
  obtain ⟨a, ha⟩ := Option.ne_none_iff_exists'.mp hsome
  exact h (List.mem_map_of_mem (f := Prod.fst) (mem_of_get? ha))

theorem get?_of_mem {es : Entries α} (h : es.keys.Nodup) {key : String} {value : α}
    (hmem : (key, value) ∈ es) : es.get? key = some value := by
  induction es with
  | nil => cases hmem
  | cons e es ih =>
      obtain ⟨k, v⟩ := e
      rw [keys, List.map_cons, List.nodup_cons] at h
      rw [get?]
      rcases List.mem_cons.mp hmem with heq | hmem
      · cases heq
        rw [if_pos rfl]
      · have hne : k ≠ key := by
          rintro rfl
          have hkey : k ∈ es.map Prod.fst := List.mem_map_of_mem (f := Prod.fst) hmem
          exact h.1 hkey
        rw [if_neg hne]
        exact ih h.2 hmem

theorem mem_keys_of_mem {es : Entries α} {e : String × α} (h : e ∈ es) : e.1 ∈ es.keys :=
  List.mem_map_of_mem h

theorem keys_append (es more : Entries α) : (es ++ more).keys = es.keys ++ more.keys :=
  List.map_append

/-! ### Setting a name -/

theorem mem_of_mem_insert {es : Entries α} {key : String} {value : α} {e : String × α}
    (h : e ∈ es.insert key value) : e ∈ es ∨ e = (key, value) := by
  induction es with
  | nil => exact .inr (List.mem_singleton.mp h)
  | cons e' es ih =>
      obtain ⟨k, v⟩ := e'
      rw [insert] at h
      split at h
      · rcases List.mem_cons.mp h with h | h
        · exact .inr h
        · exact .inl (List.mem_cons_of_mem _ h)
      · rcases List.mem_cons.mp h with h | h
        · exact .inl (h ▸ List.mem_cons_self)
        · exact (ih h).imp_left (List.mem_cons_of_mem _)

theorem nodup_keys_insert {es : Entries α} (h : es.keys.Nodup) (key : String) (value : α) :
    (es.insert key value).keys.Nodup := by
  rw [keys_insert]
  split
  · exact h
  · rename_i hnew
    refine List.nodup_append.mpr ⟨h, List.nodup_singleton _, fun k hk k' hk' heq => ?_⟩
    rw [heq, List.mem_singleton.mp hk'] at hk
    exact hnew hk

/-- A new name goes to the end. -/
theorem insert_of_not_mem {es : Entries α} {key : String} (value : α) (h : key ∉ es.keys) :
    es.insert key value = es ++ [(key, value)] := by
  induction es with
  | nil => rfl
  | cons e es ih =>
      obtain ⟨k, v⟩ := e
      rw [keys, List.map_cons, List.mem_cons, not_or] at h
      rw [insert, if_neg (Ne.symm h.1), ih h.2]
      rfl

/-! ### Names in order -/

/-- The names are in increasing order. -/
def Increasing (es : Entries α) : Prop := es.keys.Pairwise (· < ·)

theorem Increasing.nodup {es : Entries α} (h : es.Increasing) : es.keys.Nodup := by
  refine List.Pairwise.imp ?_ h
  rintro k k' hlt rfl
  exact String.lt_irrefl k hlt

theorem mem_of_mem_insertSorted {es : Entries α} {key : String} {value : α} {e : String × α}
    (h : e ∈ es.insertSorted key value) : e ∈ es ∨ e = (key, value) := by
  induction es with
  | nil => exact .inr (List.mem_singleton.mp h)
  | cons e' es ih =>
      obtain ⟨k, v⟩ := e'
      rw [insertSorted] at h
      split at h
      · rcases List.mem_cons.mp h with h | h
        · exact .inr h
        · exact .inl (List.mem_cons_of_mem _ h)
      · split at h
        · rcases List.mem_cons.mp h with h | h
          · exact .inr h
          · exact .inl h
        · rcases List.mem_cons.mp h with h | h
          · exact .inl (h ▸ List.mem_cons_self)
          · exact (ih h).imp_left (List.mem_cons_of_mem _)

/-- A name after all others goes to the end. -/
theorem insertSorted_of_lt {es : Entries α} {key : String} (value : α)
    (h : ∀ k ∈ es.keys, k < key) : es.insertSorted key value = es ++ [(key, value)] := by
  induction es with
  | nil => rfl
  | cons e es ih =>
      obtain ⟨k, v⟩ := e
      rw [keys, List.map_cons, List.forall_mem_cons] at h
      have hne : k ≠ key := fun heq => String.lt_irrefl _ (heq ▸ h.1)
      have hnot : ¬ key < k := fun hlt => String.lt_irrefl _ (String.lt_trans h.1 hlt)
      rw [insertSorted, if_neg hne, if_neg hnot, ih h.2]
      rfl

theorem Increasing.insertSorted {es : Entries α} (h : es.Increasing) (key : String) (value : α) :
    (es.insertSorted key value).Increasing := by
  induction es with
  | nil => exact List.pairwise_singleton _ _
  | cons e es ih =>
      obtain ⟨k, v⟩ := e
      rw [Increasing, keys, List.map_cons, List.pairwise_cons] at h
      rw [Entries.insertSorted]
      split
      · rename_i heq
        rw [← heq]
        exact List.pairwise_cons.mpr h
      · rename_i hne
        split
        · rename_i hlt
          refine List.pairwise_cons.mpr ⟨?_, List.pairwise_cons.mpr h⟩
          intro k' hk'
          rcases List.mem_cons.mp hk' with rfl | hk'
          · exact hlt
          · exact String.lt_trans hlt (h.1 k' hk')
        · rename_i hnot
          have hlt : k < key := by
            by_contra hge
            exact hne (String.le_antisymm (String.not_lt.mp hnot) (String.not_lt.mp hge))
          refine List.pairwise_cons.mpr ⟨?_, ih h.2⟩
          intro k' hk'
          obtain ⟨e', he', rfl⟩ := List.mem_map.mp hk'
          rcases mem_of_mem_insertSorted he' with he' | rfl
          · exact h.1 _ (mem_keys_of_mem he')
          · exact hlt

end Entries

/-! ### Maps that are read -/

theorem Members.fold_keeps {α β : Type} {read : Doc → Read α} {add : β → String → α → Read β}
    {P : β → Prop} (hadd : ∀ done key a done', P done → add done key a = .ok done' → P done') :
    ∀ (ms : Members) {done result : β}, P done → ms.fold read add done = .ok result → P result
  | .closed _, _, _, h, hr => by
      cases hr
      exact h
  | .broken _ _, _, _, _, hr => by cases hr
  | .cons (.error _) _ _ _ _, _, _, _, hr => by cases hr
  | .cons (.ok key) _ value after rest, done, _, h, hr => by
      rw [Members.fold] at hr
      cases hvalue : read value with
      | error f =>
          rw [hvalue] at hr
          cases hr
      | ok a =>
          rw [hvalue] at hr
          cases hnext : add done key a with
          | error f =>
              simp only [Except.bind, hnext, Read.placed] at hr
              cases hr
          | ok done' =>
              simp only [Except.bind, hnext, Read.placed] at hr
              exact fold_keeps hadd rest (hadd done key a done' h hnext) hr

/-- Entries that are read from a document have names of their own. -/
theorem Doc.nodup_keys_entries {α : Type} {read : Doc → Read α} {d : Doc} {es : Entries α}
    (h : d.entries read = .ok es) : es.keys.Nodup := by
  unfold Doc.entries at h
  split at h
  · refine Members.fold_keeps (P := fun es => es.keys.Nodup) ?_ _ List.nodup_nil h
    intro done key a done' hdone hadd
    cases hadd
    exact Entries.nodup_keys_insert hdone key a
  · cases h

/-! ### Values -/

namespace Json

mutual

/-- No object repeats a key. -/
def Keyed : Json → Prop
  | .arr items => KeyedItems items
  | .obj entries => (Entries.keys entries).Nodup ∧ KeyedEntries entries
  | _ => True

def KeyedItems : List Json → Prop
  | [] => True
  | j :: js => j.Keyed ∧ KeyedItems js

def KeyedEntries : List (String × Json) → Prop
  | [] => True
  | (_, j) :: es => j.Keyed ∧ KeyedEntries es

end

theorem keyedItems_iff {items : List Json} : KeyedItems items ↔ ∀ j ∈ items, j.Keyed := by
  induction items with
  | nil => simp [KeyedItems]
  | cons j items ih => simp [KeyedItems, ih]

theorem keyedEntries_iff {entries : List (String × Json)} :
    KeyedEntries entries ↔ ∀ e ∈ entries, e.2.Keyed := by
  induction entries with
  | nil => simp [KeyedEntries]
  | cons e entries ih => simp [KeyedEntries, ih]

end Json

/-! ### Metadata, configurations and requests -/

def JoinOperand.Keyed : JoinOperand → Prop
  | .value j => j.Keyed
  | _ => True

/-- A join that has one condition for each column, and values without repeated keys. -/
structure JoinSpec.Keyed (spec : JoinSpec) : Prop where
  columns : spec.on.keys.Nodup
  operands : ∀ e ∈ spec.on, e.2.Keyed

namespace Computed

mutual

/-- The values and joins in an expression repeat no key. -/
def Distinct : Computed → Prop
  | .value j => j.Keyed
  | .joinedColumn join _ => join.Keyed
  | .joinedRow join => join.Keyed
  | .call _ arguments => DistinctAll arguments
  | .binary left _ right => left.Distinct ∧ right.Distinct
  | .isNull e => e.Distinct
  | _ => True

def DistinctAll : List Computed → Prop
  | [] => True
  | e :: es => e.Distinct ∧ DistinctAll es

end

theorem distinctAll_iff {es : List Computed} : DistinctAll es ↔ ∀ e ∈ es, e.Distinct := by
  induction es with
  | nil => simp [DistinctAll]
  | cons e es ih => simp [DistinctAll, ih]

end Computed

def FieldKind.Distinct : FieldKind → Prop
  | .column _ => True
  | .computed e => e.Distinct
  | .relation join => join.Keyed

structure IndexInfo.Distinct (i : IndexInfo) : Prop where
  fields : i.fields.keys.Nodup
  filter : ∀ es, i.options.partialFilter = some es → (Json.obj es).Keyed

structure Table.Distinct (t : Table) : Prop where
  names : t.fields.keys.Nodup
  kinds : ∀ f ∈ t.fields, f.2.kind.Distinct
  indexes : ∀ i ∈ t.indexes, i.Distinct

/-- Tables and fragments are in the order of their names, and no map in a table repeats a key. -/
structure Metadata.Distinct (m : Metadata) : Prop where
  tables : m.tables.Increasing
  fragments : m.fragments.Increasing
  each : ∀ t ∈ m.tables, t.2.Distinct

def Configuration.Distinct (c : Configuration) : Prop := c.metadata.Distinct

structure Request.Distinct (r : Request) : Prop where
  filter : ∀ es, r.selector = .filter es → (Json.obj es).Keyed
  sort : r.sort.keys.Nodup
  args : (Json.obj r.resolverArgs).Keyed

end ShapedQuery
