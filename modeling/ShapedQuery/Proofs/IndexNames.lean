import ShapedQuery.Config.Validation
import ShapedQuery.Proofs.FieldNames
import ShapedQuery.Proofs.Indexing

/-! # The names of indexes

The name of an index puts together, with underscores, its table, its fields, and a word each for a
filter and a collation.  A dot in a field becomes two underscores.  So what can be read from the
name of an index on a table are the words between the underscores (`TableIndex.name_eq_name_iff`),
and they do not say which of them make up a field, nor whether the index is unique, nor what its
filter is.

If no field has an underscore in it, is empty or begins with a dot, underscores can be read: one is
between two fields, and two are a dot (`TableIndex.Plain`).  Such indexes with the same name have
the same fields, and differ at most in what the name does not say. -/

namespace ShapedQuery

/-! ### Lists of parts behind a separator -/

section separator

variable {α : Type} [DecidableEq α] (a : α)

omit [DecidableEq α] in
theorem intercalate_cons_eq (l : List α) (ls : List (List α)) :
    [a].intercalate (l :: ls) = l ++ ls.flatMap fun m => a :: m := by
  induction ls generalizing l with
  | nil => simp [List.intercalate]
  | cons m ls ih =>
      rw [List.intercalate_cons_cons, ih, List.flatMap_cons, List.append_assoc]
      rfl

/-- Parts can be told if each has the separator before it and none has it inside. -/
theorem flatMap_cons_inj {ls ms : List (List α)} (hls : ∀ l ∈ ls, a ∉ l) (hms : ∀ m ∈ ms, a ∉ m)
    (h : (ls.flatMap fun l => a :: l) = ms.flatMap fun m => a :: m) : ls = ms := by
  have hsplit {ls : List (List α)} (hls : ∀ l ∈ ls, a ∉ l) :
      (ls.flatMap fun l => a :: l).splitOn a = [] :: ls := by
    have hparts : ∀ l ∈ [] :: ls, a ∉ l := List.forall_mem_cons.mpr ⟨List.not_mem_nil, hls⟩
    have hjoin := List.splitOn_intercalate a hparts (List.cons_ne_nil _ _)
    rwa [intercalate_cons_eq, List.nil_append] at hjoin
  have hparts := congrArg (List.splitOn a) h
  rw [hsplit hls, hsplit hms] at hparts
  exact (List.cons.inj hparts).2

theorem flatMap_splitOn (l : List α) : ((l.splitOn a).flatMap fun m => a :: m) = a :: l := by
  have hjoin : [a].intercalate (l.splitOn a) = l := List.intercalate_splitOn a
  cases hsplit : l.splitOn a with
  | nil => exact absurd hsplit (List.splitOn_ne_nil a l)
  | cons m ms =>
      rw [hsplit, intercalate_cons_eq] at hjoin
      rw [List.flatMap_cons, List.cons_append, hjoin]

end separator

namespace TableIndex

/-! ### Names -/

/-- What stands in the name of an index behind its table. -/
def labels (i : TableIndex) : List String :=
  i.info.fields.keys ++ ((if i.info.options.partialFilter.isSome then ["filtered"] else []) ++
    if i.info.options.collation.isSome then ["ci"] else [])

/-- The words between the underscores, behind the table. -/
def words (i : TableIndex) : List (List Char) :=
  i.labels.flatMap fun l => (fieldName l).toList.splitOn '_'

theorem toList_name (i : TableIndex) : i.name.toList = "idx_".toList ++ i.table.toList ++
    i.labels.flatMap fun l => '_' :: (fieldName l).toList := by
  have hfiltered : "_filtered".toList = '_' :: (fieldName "filtered").toList := by decide
  have hci : "_ci".toList = '_' :: (fieldName "ci").toList := by decide
  unfold name labels
  simp only [String.toList_append, String.toList_join, List.flatMap_append, List.flatMap_map,
    List.append_assoc]
  congr 3
  congr 1
  · cases i.info.options.partialFilter with
    | none => rfl
    | some filter => simp [← hfiltered]
  · cases i.info.options.collation with
    | none => rfl
    | some collation => simp [← hci]

theorem name_eq_iff_flatMap {i j : TableIndex} (htable : j.table = i.table) : i.name = j.name ↔
    (i.labels.flatMap fun l => '_' :: (fieldName l).toList) =
      j.labels.flatMap fun l => '_' :: (fieldName l).toList := by
  rw [← String.toList_inj, toList_name, toList_name, htable, List.append_cancel_left_eq]

/-- Two indexes of a table have the same name exactly if the words between the underscores are the
same. -/
theorem name_eq_name_iff {i j : TableIndex} (htable : j.table = i.table) :
    i.name = j.name ↔ i.words = j.words := by
  have hwords (k : TableIndex) : (k.labels.flatMap fun l => '_' :: (fieldName l).toList) =
      k.words.flatMap fun w => '_' :: w := by
    rw [words, List.flatMap_assoc]
    exact List.flatMap_congr fun l _ => (flatMap_splitOn '_' _).symm
  have hfree (k : TableIndex) : ∀ w ∈ k.words, '_' ∉ w := by
    intro w hw
    obtain ⟨l, -, hl⟩ := List.mem_flatMap.mp hw
    exact not_mem_of_mem_splitOn '_' hl
  rw [name_eq_iff_flatMap htable, hwords, hwords]
  constructor
  · exact flatMap_cons_inj '_' (hfree i) (hfree j)
  · intro h
    rw [h]

/-! ### Fields that can be read from a name -/

/-- A field that can be read from a name: it is not empty, begins with no dot and has no underscore
in it. -/
def PlainField (f : String) : Prop :=
  (∃ c cs, f.toList = c :: cs ∧ c ≠ '.') ∧ '_' ∉ f.toList

/-- All fields of the index can be read from its name, and the last one is none of the words that
may follow. -/
structure Plain (i : TableIndex) : Prop where
  fields : ∀ f ∈ i.info.fields.keys, PlainField f
  filtered : i.info.fields.keys.getLast? ≠ some "filtered"
  ci : i.info.fields.keys.getLast? ≠ some "ci"

/-- What is written for a character of a field, or for the beginning of a field. -/
def spell : Option Char → List Char
  | none => ['_']
  | some c => if c = '.' then ['_', '_'] else [c]

/-- Fields as characters, each with a mark at its beginning. -/
def marked (ls : List String) : List (Option Char) :=
  ls.flatMap fun l => none :: l.toList.map some

/-- Behind a mark comes a character that is no dot, and none is an underscore. -/
def Spaced : List (Option Char) → Prop
  | [] => True
  | none :: xs => (∃ c ys, xs = some c :: ys ∧ c ≠ '.') ∧ Spaced xs
  | some c :: xs => c ≠ '_' ∧ Spaced xs

theorem flatMap_spell_marked (ls : List String) :
    (marked ls).flatMap spell = ls.flatMap fun l => '_' :: (fieldName l).toList := by
  rw [marked, List.flatMap_assoc]
  refine List.flatMap_congr fun l _ => ?_
  rw [List.flatMap_cons, List.flatMap_map, fieldName, String.toList_ofList]
  rfl

theorem spaced_append {cs : List Char} {xs : List (Option Char)} (hcs : '_' ∉ cs)
    (hxs : Spaced xs) : Spaced (cs.map some ++ xs) := by
  induction cs with
  | nil => exact hxs
  | cons c cs ih =>
      rw [List.mem_cons, not_or] at hcs
      exact ⟨Ne.symm hcs.1, ih hcs.2⟩

theorem spaced_marked {ls : List String} (h : ∀ l ∈ ls, PlainField l) : Spaced (marked ls) := by
  induction ls with
  | nil => trivial
  | cons l ls ih =>
      rw [List.forall_mem_cons] at h
      obtain ⟨⟨⟨c, cs, hl, hc⟩, hfree⟩, hls⟩ := h
      have hrest := spaced_append hfree (ih hls)
      refine ⟨⟨c, cs.map some ++ marked ls, ?_, hc⟩, hrest⟩
      rw [hl]
      rfl

/-- What is written for a character that is no dot is the character. -/
theorem flatMap_spell_cons {c : Char} (hc : c ≠ '.') (xs : List (Option Char)) :
    (some c :: xs).flatMap spell = c :: xs.flatMap spell := by
  rw [List.flatMap_cons, spell, if_neg hc]
  rfl

/-- What was written, read back: two underscores are a dot, and a single one is a mark. -/
def unspell : List Char → List (Option Char)
  | [] => []
  | '_' :: '_' :: cs => some '.' :: unspell cs
  | '_' :: cs => none :: unspell cs
  | c :: cs => some c :: unspell cs

theorem unspell_cons {c : Char} (hc : c ≠ '_') (cs : List Char) :
    unspell (c :: cs) = some c :: unspell cs := by
  simp [unspell, hc]

/-- The character behind a mark keeps the underscore before it from being part of a dot. -/
theorem unspell_mark {c : Char} (hc : c ≠ '_') (cs : List Char) :
    unspell ('_' :: c :: cs) = none :: unspell (c :: cs) := by
  simp [unspell, hc]

theorem unspell_flatMap {xs : List (Option Char)} (h : Spaced xs) :
    unspell (xs.flatMap spell) = xs := by
  induction xs with
  | nil => rfl
  | cons x xs ih =>
      cases x with
      | none =>
          obtain ⟨⟨c, ys, rfl, hdot⟩, hrest⟩ := h
          have hread := ih hrest
          rw [flatMap_spell_cons hdot] at hread
          show unspell ('_' :: (some c :: ys).flatMap spell) = none :: some c :: ys
          rw [flatMap_spell_cons hdot, unspell_mark hrest.1, hread]
      | some c =>
          have hread := ih h.2
          by_cases hc : c = '.'
          · subst hc
            show some '.' :: unspell (xs.flatMap spell) = some '.' :: xs
            rw [hread]
          · rw [flatMap_spell_cons hc, unspell_cons h.1, hread]

/-- Fields that can be read are told from what is written for them. -/
theorem eq_of_flatMap_fieldName {ls ms : List String} (hls : ∀ l ∈ ls, PlainField l)
    (hms : ∀ m ∈ ms, PlainField m) (h : (ls.flatMap fun l => '_' :: (fieldName l).toList) =
      ms.flatMap fun m => '_' :: (fieldName m).toList) : ls = ms := by
  have hmarks : marked ls = marked ms := by
    rw [← flatMap_spell_marked, ← flatMap_spell_marked] at h
    rw [← unspell_flatMap (spaced_marked hls), h, unspell_flatMap (spaced_marked hms)]
  have hmarked (ls : List String) : marked ls =
      (ls.map fun l => l.toList.map some).flatMap fun l => none :: l := by
    rw [List.flatMap_map]
    rfl
  have hfree (ls : List String) : ∀ l ∈ ls.map fun l => l.toList.map some, none ∉ l := by
    simp
  rw [hmarked, hmarked] at hmarks
  have hmap := flatMap_cons_inj none (hfree ls) (hfree ms) hmarks
  refine List.map_injective_iff.mpr (fun l m hlm => ?_) hmap
  exact String.toList_inj.mp (List.map_injective_iff.mpr (fun _ _ => Option.some.inj) hlm)

/-- A word at the end is there for both lists or for none, if neither has it at its own end. -/
theorem append_word_inj {ls ms : List String} {w : String} {b d : Bool}
    (hls : ls.getLast? ≠ some w) (hms : ms.getLast? ≠ some w)
    (h : ls ++ (if b then [w] else []) = ms ++ if d then [w] else []) : ls = ms ∧ b = d := by
  cases b with
  | true =>
      cases d with
      | true => exact ⟨List.append_cancel_right h, rfl⟩
      | false =>
          rw [if_pos rfl, if_neg Bool.false_ne_true, List.append_nil] at h
          rw [← h, List.getLast?_append] at hms
          exact absurd rfl hms
  | false =>
      cases d with
      | true =>
          rw [if_pos rfl, if_neg Bool.false_ne_true, List.append_nil] at h
          rw [h, List.getLast?_append] at hls
          exact absurd rfl hls
      | false =>
          rw [if_neg Bool.false_ne_true, List.append_nil, List.append_nil] at h
          exact ⟨h, rfl⟩

section plain

variable {i j : TableIndex}

theorem plainField_of_mem_labels (hi : i.Plain) : ∀ l ∈ i.labels, PlainField l := by
  have hfiltered : PlainField "filtered" :=
    ⟨⟨'f', "iltered".toList, by decide, by decide⟩, by decide⟩
  have hci : PlainField "ci" := ⟨⟨'c', ['i'], by decide, by decide⟩, by decide⟩
  intro l hl
  unfold labels at hl
  rcases List.mem_append.mp hl with hl | hl
  · exact hi.fields l hl
  · rcases List.mem_append.mp hl with hl | hl
    · split at hl
      · rw [List.mem_singleton.mp hl]
        exact hfiltered
      · cases hl
    · split at hl
      · rw [List.mem_singleton.mp hl]
        exact hci
      · cases hl

theorem getLast?_filtered (hi : i.Plain) (b : Bool) :
    (i.info.fields.keys ++ if b then ["filtered"] else []).getLast? ≠ some "ci" := by
  cases b with
  | true =>
      rw [if_pos rfl, List.getLast?_append]
      intro h
      exact absurd (Option.some.inj h) (by decide)
  | false =>
      rw [if_neg Bool.false_ne_true, List.append_nil]
      exact hi.ci

/-- From the name of a plain index one can read its fields, and whether it has a filter and a
collation. -/
theorem name_eq_name_iff_of_plain (htable : j.table = i.table) (hi : i.Plain) (hj : j.Plain) :
    i.name = j.name ↔ i.info.fields.keys = j.info.fields.keys ∧
      i.info.options.partialFilter.isSome = j.info.options.partialFilter.isSome ∧
      i.info.options.collation.isSome = j.info.options.collation.isSome := by
  rw [name_eq_iff_flatMap htable]
  constructor
  · intro h
    have hlabels : i.labels = j.labels :=
      eq_of_flatMap_fieldName (plainField_of_mem_labels hi) (plainField_of_mem_labels hj) h
    unfold labels at hlabels
    rw [← List.append_assoc, ← List.append_assoc] at hlabels
    obtain ⟨hfront, hcollation⟩ :=
      append_word_inj (getLast?_filtered hi _) (getLast?_filtered hj _) hlabels
    obtain ⟨hkeys, hfilter⟩ := append_word_inj hi.filtered hj.filtered hfront
    exact ⟨hkeys, hfilter, hcollation⟩
  · rintro ⟨hkeys, hfilter, hcollation⟩
    unfold labels
    rw [hkeys, hfilter, hcollation]

end plain

/-! ### Statements -/

theorem elements_congr {t : NamedTable} {o o' : IndexOptions} (hunique : o'.unique = o.unique)
    (hcollation : o'.collation.isSome = o.collation.isSome) (fields : List String) :
    elements t o' fields = elements t o fields := by
  have helement (field : String) : element t o' field = element t o field := by
    unfold element
    rw [hunique, hcollation]
  induction fields with
  | nil => rfl
  | cons field fields ih => rw [elements, elements, helement, ih]

/-- A statement depends on the name and what can be read from it, on the condition of the filter,
and on whether the index is unique and made concurrently. -/
theorem create_eq_create {i j : TableIndex} {m : Metadata} {t : Table}
    (ht : m.tables.get? i.table = some t) (htable : j.table = i.table) (hname : j.name = i.name)
    (hkeys : j.info.fields.keys = i.info.fields.keys)
    (hcollation : j.info.options.collation.isSome = i.info.options.collation.isSome)
    (hunique : j.info.options.unique = i.info.options.unique)
    (hconcurrently : j.info.options.concurrently = i.info.options.concurrently)
    (hcondition : j.condition ⟨i.table, t⟩ .empty = i.condition ⟨i.table, t⟩ .empty) :
    j.create m = i.create m := by
  have hmethod : j.method = i.method := by
    unfold method
    rw [hkeys]
  have hstatement (es : List (Expr Placeholder)) (e : Expr Placeholder) :
      j.statement es e = i.statement es e := by
    unfold statement
    rw [hname, htable, hunique, hconcurrently, hmethod]
  rw [create_eq, create_eq, htable, ht]
  simp only [hunique, hmethod, hname, hkeys, elements_congr hunique hcollation, hcondition,
    hstatement]

theorem exists_createStatement_withConcurrently {i : TableIndex} {m : Metadata} {s : Statement}
    (h : i.createStatement m = .ok s) (b : Bool) :
    ∃ s', (i.withConcurrently b).createStatement m = .ok s' := by
  obtain ⟨c, hc, -⟩ := createStatement_eq_ok_iff.mp h
  refine ⟨⟨{ c with concurrently := b }.sql, s.params⟩, createStatement_eq_ok_iff.mpr ?_⟩
  rw [create_withConcurrently, hc]
  exact ⟨_, rfl, rfl⟩

end TableIndex

namespace Metadata

theorem exists_createStatement {m : Metadata} {table : String} {infos : List IndexInfo}
    {ss : List Statement} (h : m.createIndexes table infos = .ok ss) :
    ∀ a ∈ infos, ∃ s, TableIndex.createStatement ⟨table, a⟩ m = .ok s := by
  induction infos generalizing ss with
  | nil =>
      intro a ha
      cases ha
  | cons info infos ih =>
      unfold createIndexes at h
      cases hs : TableIndex.createStatement ⟨table, info⟩ m with
      | error e =>
          rw [hs] at h
          cases h
      | ok s =>
          rw [hs] at h
          cases hrest : m.createIndexes table infos with
          | error e =>
              rw [hrest] at h
              cases h
          | ok rest => exact List.forall_mem_cons.mpr ⟨⟨s, hs⟩, ih hrest⟩

/-- **The names of the indexes of a table.**  For any two indexes of a table whose indexes can all
be made, apart from whether they are made concurrently: they have the same name exactly if the words
between the underscores are the same.  If both are plain, they have the same name exactly if they
are over the same fields and both or none has a filter, and both or none a collation.  So two whose
statements differ, and that agree in being unique and in the condition of the filter, have different
names. -/
theorem tableIndexes_names {m : Metadata} {table : String} {ss : List Statement}
    (h : m.tableIndexes table = .ok ss) : ∃ t, m.tables.get? table = some t ∧
      ∀ i j : TableIndex, i.table = table → j.table = table → i.info ∈ t.indexes →
        j.info ∈ t.indexes → ∃ s s', (i.withConcurrently false).createStatement m = .ok s ∧
          (j.withConcurrently false).createStatement m = .ok s' ∧
          (i.name = j.name ↔ i.words = j.words) ∧
          (i.Plain → j.Plain → (i.name = j.name ↔ i.info.fields.keys = j.info.fields.keys ∧
            i.info.options.partialFilter.isSome = j.info.options.partialFilter.isSome ∧
            i.info.options.collation.isSome = j.info.options.collation.isSome)) ∧
          (i.Plain → j.Plain → i.info.options.unique = j.info.options.unique →
            i.condition ⟨table, t⟩ .empty = j.condition ⟨table, t⟩ .empty → s ≠ s' →
              i.name ≠ j.name) := by
  unfold tableIndexes lookupTable at h
  cases ht : m.tables.get? table with
  | none =>
      rw [ht] at h
      cases h
  | some t =>
      rw [ht] at h
      refine ⟨t, rfl, ?_⟩
      intro i j hi hj ha hb
      subst hi
      have hjinfo : (⟨i.table, j.info⟩ : TableIndex) = j := by rw [← hj]
      obtain ⟨made, hmade⟩ := exists_createStatement h i.info ha
      obtain ⟨made', hmade'⟩ := exists_createStatement h j.info hb
      rw [hjinfo] at hmade'
      obtain ⟨s, hs⟩ := TableIndex.exists_createStatement_withConcurrently hmade false
      obtain ⟨s', hs'⟩ := TableIndex.exists_createStatement_withConcurrently hmade' false
      refine ⟨s, s', hs, hs', TableIndex.name_eq_name_iff hj,
        TableIndex.name_eq_name_iff_of_plain hj, ?_⟩
      intro hplain hplain' hunique hcondition hne hname
      obtain ⟨hkeys, -, hcollation⟩ :=
        (TableIndex.name_eq_name_iff_of_plain hj hplain hplain').mp hname
      have hcreate : (j.withConcurrently false).create m = (i.withConcurrently false).create m :=
        TableIndex.create_eq_create (i := i.withConcurrently false) ht hj hname.symm hkeys.symm
          hcollation.symm hunique.symm rfl hcondition.symm
      unfold TableIndex.createStatement at hs hs'
      rw [hcreate, hs] at hs'
      exact hne (Except.ok.inj hs')

end Metadata

namespace Sample

/-- An index on posts over some columns, and no two posts the same in them if `unique` holds. -/
def indexOf (fields : List String) (unique : Bool) : TableIndex where
  table := "Posts"
  info.fields := fields.map fun f => (f, .ascending)
  info.options := { IndexOptions.default with unique := unique }

/-- Posts with two columns, one with the names of both, and some indexes. -/
def indexed (indexes : List TableIndex) : Metadata :=
  ⟨[("Posts", ⟨[("_id", textColumn), ("a", textColumn), ("b", textColumn), ("a_b", textColumn)],
    indexes.map TableIndex.info⟩)], []⟩

/-- Indexes over two columns, over the one with the names of both, and over that without
repetition. -/
def underscored : Metadata :=
  indexed [indexOf ["a", "b"] false, indexOf ["a_b"] false, indexOf ["a_b"] true]

/-- Indexes over two columns, in both orders. -/
def ordered : Metadata := indexed [indexOf ["a", "b"] false, indexOf ["b", "a"] false]

/-- A statement that makes an index on posts. -/
def creating (kind name elements : String) : Statement :=
  ⟨"CREATE " ++ kind ++ " IF NOT EXISTS \"" ++ name ++ "\" ON \"Posts\" USING btree ( " ++
    elements ++ " )", []⟩

theorem plain_indexOf {f g : String} (hf : TableIndex.PlainField f) (hg : TableIndex.PlainField g)
    (hfiltered : g ≠ "filtered") (hci : g ≠ "ci") : (indexOf [f, g] false).Plain where
  fields := List.forall_mem_cons.mpr ⟨hf, List.forall_mem_singleton.mpr hg⟩
  filtered h := hfiltered (Option.some.inj h)
  ci h := hci (Option.some.inj h)

end Sample

/-- Three indexes have one name and three statements. -/
theorem Metadata.tableIndexes_names_shared :
    Sample.underscored.issues = [] ∧
    (∃ s s' s'', Sample.underscored.tableIndexes "Posts" = .ok [s, s', s''] ∧
      s.sql ≠ s'.sql ∧ s.sql ≠ s''.sql ∧ s'.sql ≠ s''.sql) ∧
    (Sample.indexOf ["a", "b"] false).name = (Sample.indexOf ["a_b"] false).name ∧
    (Sample.indexOf ["a_b"] false).name = (Sample.indexOf ["a_b"] true).name := by
  refine ⟨rfl, ⟨Sample.creating "INDEX" "idx_Posts_a_b" "\"a\" , \"b\"",
    Sample.creating "INDEX" "idx_Posts_a_b" "\"a_b\"",
    Sample.creating "UNIQUE INDEX" "idx_Posts_a_b" "\"a_b\"", rfl, ?_, ?_, ?_⟩, ?_, ?_⟩
  · decide
  · decide
  · decide
  · decide
  · decide

theorem Metadata.tableIndexes_names_ordered :
    (∃ ss, Sample.ordered.tableIndexes "Posts" = .ok ss) ∧ (Sample.indexOf ["a", "b"] false).Plain ∧
    (Sample.indexOf ["b", "a"] false).Plain ∧
    (Sample.indexOf ["a", "b"] false).name ≠ (Sample.indexOf ["b", "a"] false).name := by
  have ha : TableIndex.PlainField "a" := ⟨⟨'a', [], by decide, by decide⟩, by decide⟩
  have hb : TableIndex.PlainField "b" := ⟨⟨'b', [], by decide, by decide⟩, by decide⟩
  have hplain := Sample.plain_indexOf ha hb (by decide) (by decide)
  have hplain' := Sample.plain_indexOf hb ha (by decide) (by decide)
  have hmade : ∃ ss, Sample.ordered.tableIndexes "Posts" = .ok ss := ⟨_, rfl⟩
  obtain ⟨ss, hss⟩ := hmade
  obtain ⟨t, ht, hall⟩ := Metadata.tableIndexes_names hss
  have htable := Option.some.inj ht
  subst htable
  obtain ⟨s, s', hs, hs', -, -, hdiffer⟩ := hall (Sample.indexOf ["a", "b"] false)
    (Sample.indexOf ["b", "a"] false) rfl rfl List.mem_cons_self
    (List.mem_cons_of_mem _ List.mem_cons_self)
  have hsql : s = Sample.creating "INDEX" "idx_Posts_a_b" "\"a\" , \"b\"" :=
    Except.ok.inj (hs.symm.trans rfl)
  have hsql' : s' = Sample.creating "INDEX" "idx_Posts_b_a" "\"b\" , \"a\"" :=
    Except.ok.inj (hs'.symm.trans rfl)
  refine ⟨⟨ss, hss⟩, hplain, hplain', hdiffer hplain hplain' rfl rfl fun hne => ?_⟩
  rw [hsql, hsql'] at hne
  exact absurd (congrArg Statement.sql hne) (by decide)

end ShapedQuery
