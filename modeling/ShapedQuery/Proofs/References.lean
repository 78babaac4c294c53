import ShapedQuery.Proofs.Failures

/-! # Where the columns of a select statement come from

Every column of a select statement is qualified by an alias, and the alias is bound to one table,
by the source or by a join.  If the configuration was accepted, that table has the column, unless it
is a column of the current user that the metadata names (`Metadata.userColumns`): whether the table
of the users has those columns is not checked. -/

namespace ShapedQuery

section select

variable {π : Type} (s : Select π)

/-- An alias is bound to a table. -/
def Select.Binds (label table : String) : Prop :=
  s.source = some ⟨table, label⟩ ∨ ∃ j ∈ s.joins, j.label = label ∧ j.table = table

/-- The aliases of a select statement. -/
def Select.labels : List String := s.source.toList.map Source.label ++ s.joins.map Join.label

variable {s}

/-- An alias that comes once is bound to one table. -/
theorem Select.Binds.unique (hnodup : s.labels.Nodup) {label table table' : String}
    (h : s.Binds label table) (h' : s.Binds label table') : table = table' := by
  unfold Select.labels at hnodup
  rw [List.nodup_append] at hnodup
  obtain ⟨-, hjoins, hapart⟩ := hnodup
  have hsource : ∀ t, s.source = some ⟨t, label⟩ → ∀ j ∈ s.joins, j.label ≠ label := by
    intro t ht j hj he
    refine hapart label ?_ j.label (List.mem_map_of_mem hj) he.symm
    rw [ht]
    exact List.mem_singleton_self _
  rcases h with h | ⟨j, hj, hl, rfl⟩
  · rcases h' with h' | ⟨k, hk, hl', -⟩
    · rw [h] at h'
      cases h'
      rfl
    · exact absurd hl' (hsource table h k hk)
  · rcases h' with h' | ⟨k, hk, hl', rfl⟩
    · exact absurd hl (hsource table' h' j hj)
    · rw [List.inj_on_of_nodup_map hjoins hj hk (hl.trans hl'.symm)]

/-- A column belongs to the table that its alias is bound to, or to the current user. -/
def Select.Refers (m : Metadata) (userTable : String) (U : String → Prop) (s : Select π) :
    ColumnRef → Prop
  | .bare _ => False
  | .qualified label column => ∃ table, s.Binds label table ∧
      (m.HasColumn table column ∨ (label = currentUserAlias ∧ table = userTable ∧ U column))

end select

namespace Request

variable {env : Env} {r : Request} {table : NamedTable} {U : String → Prop}

theorem binds_of_shows {c : Context} {s : Select Placeholder} (h : Shows table c s)
    {label name : String} (hk : c.Knows label name) : s.Binds label name := by
  rcases hk with ⟨rfl, rfl⟩ | ⟨j, hj, hl, ht⟩
  · exact .inl h.source
  · refine .inr ⟨j.join, ?_, hl, ht⟩
    rw [h.joins]
    exact List.mem_map_of_mem hj

theorem labels_nodup_of_shows {c : Context} {s : Select Placeholder} (h : Shows table c s) :
    s.labels.Nodup := by
  obtain ⟨hnodup, hnot⟩ := Context.nodup_of_repeatedAlias? h.labels
  have hlabels : s.labels = c.label :: OwnedJoin.labels c.joins := by
    rw [Select.labels, h.source, h.joins, List.map_map]
    rfl
  rw [hlabels]
  refine List.nodup_cons.mpr ⟨fun hmem => ?_, hnodup⟩
  exact hnot c.label hmem (List.mem_singleton_self _)

theorem everyColumn_selectItems {c : Context} {P : ColumnRef → Prop}
    (h : ∀ p ∈ c.projections, p.EveryColumn P) : ∀ i ∈ c.selectItems, i.EveryColumn P := by
  intro i hi
  rcases List.mem_append.mp hi with hi | hi
  · split at hi
    · rw [List.mem_singleton.mp hi]
      trivial
    · cases hi
  · obtain ⟨p, hp, hpi⟩ := List.mem_filterMap.mp hi
    have hcols := h p hp
    cases p with
    | item i' =>
        cases hpi
        exact hcols
    | field key e => cases hpi

/-- The user is joined all along. -/
theorem binds_currentUser {aliases : Aliases} {w : Work} {s : Select Placeholder}
    (hg : (r.begun env table aliases).Grows w) (hs : Shows table w.context s) :
    s.Binds currentUserAlias env.settings.currentUserTable := by
  refine binds_of_shows hs (.inr ⟨_, hg.mem_joins (List.mem_singleton_self _), ?_⟩)
  exact ⟨rfl, rfl⟩

theorem refers_of_resolves {aliases : Aliases} {w : Work} {s : Select Placeholder}
    (hg : (r.begun env table aliases).Grows w) (hs : Shows table w.context s) {ref : ColumnRef}
    (h : w.context.Resolves env.metadata U ref) :
    s.Refers env.metadata env.settings.currentUserTable U ref := by
  cases ref with
  | bare name => exact h
  | qualified label column =>
      rcases h with ⟨name, hk, hcol⟩ | ⟨rfl, hu⟩
      · exact ⟨name, binds_of_shows hs hk, .inl hcol⟩
      · exact ⟨_, binds_currentUser hg hs, .inr ⟨rfl, rfl, hu⟩⟩

theorem resolves_of_ownColumn {aliases : Aliases} {w : Work}
    (hg : (r.begun env table aliases).Grows w) (hs : w.context.Sound env.metadata U)
    {ref : ColumnRef} (h : OwnColumn table ref) : w.context.Resolves env.metadata U ref := by
  obtain ⟨name, rfl, hcol⟩ := h
  have hlabel : w.context.label = rootAlias table.name := hg.place.label
  have htable : w.context.table = table := hg.place.table
  rw [← hlabel]
  refine Context.resolves_own (hs.hasColumn (Table.column_of_column? ?_))
  rw [htable]
  exact hcol

/-- Compiling a request to closed metadata leaves no column that cannot be found. -/
theorem everyColumn_of_shows {aliases : Aliases} {w : Work} {s : Select Placeholder}
    (hg : (r.begun env table aliases).Grows w) (hsound : w.context.Sound env.metadata U)
    (hs : Shows table w.context s) :
    s.EveryColumn (s.Refers env.metadata env.settings.currentUserTable U) where
  items := by
    rw [hs.items]
    exact everyColumn_selectItems fun p hp =>
      (hsound.projections p hp).mono fun _ => refers_of_resolves hg hs
  joins := by
    rw [hs.joins]
    refine List.forall_mem_map.mpr fun j hj e he => ?_
    exact (hsound.joins j hj e he).mono fun _ => refers_of_resolves hg hs
  condition := hs.condition.mono fun _ h =>
    refers_of_resolves hg hs (resolves_of_ownColumn hg hsound h)
  order t ht := (hs.order t ht).mono fun _ h =>
    refers_of_resolves hg hs (resolves_of_ownColumn hg hsound h)

/-- **Where columns come from after validation.**  In a request to an accepted configuration no
alias is bound to two tables, the user's alias is bound to the table of the users, and every column
belongs to the table that its alias is bound to, apart from those columns that the metadata names of
the current user. -/
theorem compile_refers_of_validate {c : Configuration} {rc : RuntimeConfiguration}
    (hc : c.validate = .ok rc) (r : Request) (user : Option User) (aliases : Aliases) {q : Query}
    (h : r.compile ⟨rc.metadata, rc.settings, user⟩ aliases = .ok q) :
    (∀ label table table', q.select.Binds label table → q.select.Binds label table' →
        table = table') ∧
      q.select.Binds currentUserAlias rc.settings.currentUserTable ∧
      q.select.EveryColumn (q.select.Refers rc.metadata rc.settings.currentUserTable
        (· ∈ rc.metadata.userColumns)) := by
  obtain ⟨f, table, w', hf, ht, hrun, -⟩ := exists_compileIn h
  obtain ⟨t, ht', hserved⟩ := served_of_validate hc r user (lookupFragment_ok hf)
  have htable : (⟨f.table, t⟩ : NamedTable) = table := Except.ok.inj (ht'.symm.trans ht)
  rw [htable] at hserved
  have hmeets := compileIn_meets (E := fun _ => True)
    (((namedFragment_meets hserved aliases).mono fun _ w hw =>
      And.intro hw.1.place.label hw).with_error fun _ _ _ _ => trivial)
    (fun _ _ _ _ => trivial) fun _ _ _ _ => trivial
  obtain ⟨w, ⟨hg, hsound⟩, hs, -⟩ := hmeets.of_ok hrun
  have hnodup := labels_nodup_of_shows hs
  exact ⟨fun _ _ _ => Select.Binds.unique hnodup, binds_currentUser hg hs,
    everyColumn_of_shows hg hsound hs⟩

end Request

namespace Sample

/-- A result that was evaluated in part. -/
theorem exists_ok_of_map {ε α β : Type} {x : Except ε α} {f : α → β} {b : β}
    (h : x.toOption.map f = some b) : ∃ a, x = .ok a ∧ f a = b := by
  cases x with
  | error e => cases h
  | ok a => exact ⟨a, rfl, Option.some.inj h⟩

/-- Is the item a column of the current user? -/
def isUserColumn (column : String) : SelectItem Placeholder → Bool
  | .named (.column (.qualified label name)) _ => label == currentUserAlias && name == column
  | _ => false

theorem eq_of_isUserColumn {column : String} {i : SelectItem Placeholder}
    (h : isUserColumn column i = true) :
    ∃ name, i = .named (.column (.qualified currentUserAlias column)) name := by
  unfold isUserColumn at h
  split at h
  · rename_i label name field
    rw [Bool.and_eq_true, beq_iff_eq, beq_iff_eq] at h
    rw [h.1, h.2]
    exact ⟨field, rfl⟩
  · cases h

/-- The column of the user that the blog shows is in the select list, whatever it is called. -/
theorem exists_compile_blogRequest (viewer : String)
    (h : ((blogRequest "title").compile (blogEnv viewer) .sequential).toOption.map
      (fun q => q.select.items.any (isUserColumn viewer)) = some true) :
    ∃ q, (blogRequest "title").compile (blogEnv viewer) .sequential = .ok q ∧
      ∃ name, .named (.column (.qualified currentUserAlias viewer)) name ∈ q.select.items := by
  obtain ⟨q, hq, hany⟩ := exists_ok_of_map h
  obtain ⟨i, hi, hcolumn⟩ := List.any_eq_true.mp hany
  obtain ⟨name, rfl⟩ := eq_of_isUserColumn hcolumn
  exact ⟨q, hq, name, hi⟩

theorem not_hasColumn_nickname (table : String) :
    ¬ (blog "nickname").metadata.HasColumn table "nickname" := by
  rintro ⟨t, ht, hcol⟩
  have hmem := Entries.mem_of_get? ht
  simp only [blog, List.mem_cons, List.not_mem_nil, or_false, Prod.mk.injEq] at hmem
  rcases hmem with ⟨-, rfl⟩ | ⟨-, rfl⟩
  · exact absurd hcol (by decide)
  · exact absurd hcol (by decide)

end Sample

namespace Request

theorem compile_refers_of_validate_sample :
    (Sample.blog "name").validate =
      .ok ⟨(Sample.blog "name").metadata, (Sample.blog "name").settings⟩ ∧
    ∃ q, (Sample.blogRequest "title").compile (Sample.blogEnv "name") .sequential = .ok q ∧
      (∀ label table table', q.select.Binds label table → q.select.Binds label table' →
        table = table') ∧
      q.select.Binds currentUserAlias "Users" ∧
      q.select.EveryColumn (q.select.Refers (Sample.blog "name").metadata "Users"
        (· ∈ (Sample.blog "name").metadata.userColumns)) := by
  obtain ⟨q, hq, -⟩ := Sample.exists_compile_blogRequest "name" (by decide +kernel)
  exact ⟨Sample.validate_blog "name", q, hq,
    compile_refers_of_validate (Sample.validate_blog "name") _ none .sequential hq⟩

/-- **A column of the current user may be missing.**  The blog is accepted and the request compiled,
though no table has the column that is shown of the user. -/
theorem compile_refers_to_missing_column :
    (Sample.blog "nickname").validate =
      .ok ⟨(Sample.blog "nickname").metadata, (Sample.blog "nickname").settings⟩ ∧
    ∃ q, (Sample.blogRequest "title").compile (Sample.blogEnv "nickname") .sequential = .ok q ∧
      ¬ q.select.EveryColumn fun ref => ∃ label column table, ref = .qualified label column ∧
        q.select.Binds label table ∧
        (Sample.blog "nickname").metadata.HasColumn table column := by
  obtain ⟨q, hq, name, hitem⟩ :=
    Sample.exists_compile_blogRequest "nickname" (by decide +kernel)
  refine ⟨Sample.validate_blog "nickname", q, hq, fun h => ?_⟩
  obtain ⟨label, column, table, href, -, hcol⟩ := h.items _ hitem
  cases href
  exact Sample.not_hasColumn_nickname table hcol

end Request

end ShapedQuery
