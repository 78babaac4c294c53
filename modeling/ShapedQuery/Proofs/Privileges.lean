import ShapedQuery.Proofs.JsonShape
import ShapedQuery.Proofs.Projecting

/-! # More privileges never show less

Users are ordered by what they may do (`User.Below`): someone who is logged out is below everyone,
and of two users who are logged in the one is below the other whose groups and whose rights as an
admin the other has too.  Every rule that allows a user allows the users above.

What a query shows is a set of paths of keys (`Query.ShowsPath`): the keys of the row, and behind the
key of a relation the paths within the object of the related row.  The two queries may look quite
different, since a user who may read more gets whole rows where the other gets single columns; but
every path in the query of the lower user is a path in the query of the higher one
(`Request.compile_shows_mono`). -/

namespace ShapedQuery

/-! ### The order of users -/

/-- The second user has all groups and rights of the first. -/
def User.Below : Option User → Option User → Prop
  | none, _ => True
  | some _, none => False
  | some u, some v => (∀ g ∈ u.groups, g ∈ v.groups) ∧ (u.isAdmin = true → v.isAdmin = true)

/-- A group that is none of the built-in ones. -/
theorem inGroup_mono {name : String} {u v : User} (huv : User.Below (some u) (some v))
    (h : (u.isAdmin || u.groups.contains name) = true) :
    (v.isAdmin || v.groups.contains name) = true := by
  rw [Bool.or_eq_true, List.contains_iff_mem] at h ⊢
  rcases h with h | h
  · exact .inl (huv.2 h)
  · exact .inr (huv.1 name h)

section order

variable {u v : Option User} (huv : User.Below u v)
include huv

theorem isSome_mono (h : u.isSome = true) : v.isSome = true := by
  cases u with
  | none => cases h
  | some u =>
      cases v with
      | none => exact huv.elim
      | some v => rfl

theorem isAdmin_mono (h : u.any User.isAdmin = true) : v.any User.isAdmin = true := by
  cases u with
  | none => cases h
  | some u =>
      cases v with
      | none => exact huv.elim
      | some v => exact huv.2 h

theorem Permission.allows_mono {p : Permission} (h : p.allows u = true) : p.allows v = true := by
  cases p with
  | predicate p =>
      cases p with
      | loggedIn => exact isSome_mono huv h
      | admin => exact isAdmin_mono huv h
  | group name =>
      unfold Permission.allows at h ⊢
      dsimp only at h ⊢
      by_cases hguests : name = guests
      · rw [if_pos hguests]
      rw [if_neg hguests] at h ⊢
      cases u with
      | none => cases h
      | some u =>
          cases v with
          | none => exact huv.elim
          | some v =>
              dsimp only at h ⊢
              by_cases hmembers : name = members
              · rw [if_pos hmembers]
              rw [if_neg hmembers] at h ⊢
              by_cases hadmins : name = admins
              · rw [if_pos hadmins] at h ⊢
                exact huv.2 h
              rw [if_neg hadmins] at h ⊢
              exact inGroup_mono huv h

theorem canRead_mono {rules : List Permission} (h : canRead u rules = true) :
    canRead v rules = true := by
  unfold canRead at h ⊢
  rw [Bool.or_eq_true, List.any_eq_true] at h ⊢
  rcases h with h | ⟨p, hp, hallows⟩
  · exact .inl h
  · exact .inr ⟨p, hp, p.allows_mono huv hallows⟩

theorem Table.reads_mono {t : Table} {name : String} (h : t.reads u name = true) :
    t.reads v name = true := by
  unfold Table.reads at h ⊢
  rw [Option.any_eq_true] at h ⊢
  obtain ⟨f, hf, hread⟩ := h
  exact ⟨f, hf, canRead_mono huv hread⟩

theorem Table.readsAll_mono {t : Table} (h : t.readsAll u = true) : t.readsAll v = true := by
  unfold readsAll at h ⊢
  rw [List.all_eq_true] at h ⊢
  intro name hname
  exact reads_mono huv (h name hname)

end order

/-! ### Paths of keys -/

/-- What a select list shows. -/
def Select.output (s : Select Placeholder) : Output where
  row := s.items.findSome? fun
    | .star label => some label
    | _ => none
  entries := s.items.filterMap SelectItem.pair?

/-- Under a path of keys something is shown of a row of a table: a column of the whole row, an
entry, or something in the object of a related row.  `B` says which aliases are bound to which
tables. -/
inductive HasPath (m : Metadata) (B : String → String → Prop) :
    String → Output → List String → Prop where
  | column {table label source key : String} {o : Output} {t : Table} : o.row = some label →
      B label source → m.tables.get? source = some t → key ∈ t.columnNames →
      HasPath m B table o [key]
  | entry {table key : String} {o : Output} {e : Expr Placeholder} : (key, e) ∈ o.entries →
      HasPath m B table o [key]
  | nested {table key label : String} {o inner : Output} {t : Table} {join : JoinSpec}
      {rules : List Permission} {path : List String} : m.tables.get? table = some t →
      t.fields.get? key = some ⟨.relation join, rules⟩ →
      (key, .relatedRow label primaryKey inner.row inner.entries) ∈ o.entries →
      HasPath m B join.table inner path → HasPath m B table o (key :: path)

/-- A query shows something under a path of keys. -/
def Query.ShowsPath (q : Query) (m : Metadata) (path : List String) : Prop :=
  ∃ source, q.select.source = some source ∧
    HasPath m q.select.Binds source.table q.select.output path

theorem Select.Displays.output_eq {s : Select Placeholder} {o : Output} (h : s.Displays o) :
    s.output = o := by
  obtain ⟨rest, hitems, hpairs⟩ := h
  obtain ⟨row, entries⟩ := o
  dsimp only at hitems hpairs
  have hentries : rest.filterMap SelectItem.pair? = entries := by
    have hid := congrArg (List.filterMap id) hpairs
    rw [List.filterMap_map, List.filterMap_map] at hid
    exact hid.trans List.filterMap_some
  have hstars : (row.toList.map SelectItem.star).filterMap SelectItem.pair? = [] := by
    cases row <;> rfl
  have hrest : ∀ i ∈ rest, ∀ label, i ≠ .star label := by
    rintro i hi label rfl
    have hmem : SelectItem.pair? (.star label) ∈ rest.map SelectItem.pair? := List.mem_map_of_mem hi
    rw [hpairs] at hmem
    obtain ⟨e, -, he⟩ := List.mem_map.mp hmem
    cases he
  unfold Select.output
  rw [hitems, List.filterMap_append, hstars, hentries, List.findSome?_append]
  cases row with
  | some label => rfl
  | none =>
      rw [Output.mk.injEq]
      refine ⟨?_, rfl⟩
      rw [Option.toList_none, List.map_nil, List.findSome?_nil, Option.none_or,
        List.findSome?_eq_none_iff]
      intro i hi
      cases i with
      | star label => exact absurd rfl (hrest _ hi label)
      | column c => rfl
      | named e name => rfl

/-! ### Two outputs of one shape -/

section outputs

variable {m : Metadata} {s : Settings} {u v : Option User}

/-- The object of a related row determines what is shown in it. -/
theorem relatedRow_inj {label label' : String} {o o' : Output}
    (h : Expr.relatedRow label primaryKey o.row o.entries =
      .relatedRow label' primaryKey o'.row o'.entries) : o = o' := by
  obtain ⟨row, entries⟩ := o
  obtain ⟨row', entries'⟩ := o'
  unfold Expr.relatedRow at h
  cases h
  rfl

/-- Within an output no key is asked for in two ways. -/
theorem Fits.asks_unique {env : Env} {t : Table} {d d₁ d₂ : Demand} {label key : String}
    {o : Output} (h : Fits env t d label o) (hshows : t.shows env key = true)
    (h₁ : d.Asks env.metadata key d₁) (h₂ : d.Asks env.metadata key d₂) : d₁ = d₂ := by
  cases d with
  | columns => exact h₁.elim
  | fields fragment selections =>
      obtain ⟨s₁, hs₁, hname₁, rfl⟩ := h₁
      obtain ⟨s₂, hs₂, hname₂, rfl⟩ := h₂
      have hkeys := h.distinct
      rw [output_keys_eq h.row h.entries, List.nodup_append] at hkeys
      have hnodup := hkeys.2.1
      rw [Demand.requested, List.filter_map] at hnodup
      have hmem : ∀ s' ∈ selections, s'.name = key →
          s' ∈ selections.filter (t.shows env ∘ Selection.name) := by
        intro s' hs' hname
        refine List.mem_filter.mpr ⟨hs', ?_⟩
        rw [Function.comp_apply, hname]
        exact hshows
      rw [List.inj_on_of_nodup_map hnodup (hmem s₁ hs₁ hname₁) (hmem s₂ hs₂ hname₂)
        (hname₁.trans hname₂.symm)]

variable (huv : User.Below u v)
include huv

/-- The keys that a user is shown are shown to the users above. -/
theorem Fits.keys_mono {t : Table} (ht : t.Keyed) {d : Demand} {label label' : String}
    {o o' : Output} (h : Fits ⟨m, s, u⟩ t d label o) (h' : Fits ⟨m, s, v⟩ t d label' o')
    {key : String} (hkey : key ∈ o.keys t) : key ∈ o'.keys t := by
  have hkeys := output_keys_eq h.row h.entries
  have hkeys' := output_keys_eq h'.row h'.entries
  rw [hkeys, List.mem_append] at hkey
  rcases hkey with hbase | hshown
  · rw [hkeys', List.mem_append]
    left
    unfold Table.base at hbase ⊢
    by_cases hwhole : t.readsAll u = true
    · rw [if_pos hwhole] at hbase
      rw [if_pos (Table.readsAll_mono huv hwhole)]
      exact hbase
    · rw [if_neg hwhole, List.mem_singleton] at hbase
      subst hbase
      split
      · exact ht.mem_columnNames.mpr ht.key
      · exact List.mem_singleton_self _
  · obtain ⟨hrequested, hshows⟩ := List.mem_filter.mp hshown
    exact h'.complete key hrequested (Table.reads_mono huv (Table.reads_of_shows hshows))

/-- Of a relation that a user is shown, the users above are shown an object of the same kind. -/
theorem exists_relation_entry {t : Table} (ht : t.Keyed) {d d₁ : Demand} {label label' key : String}
    {o o' : Output} (h : Fits ⟨m, s, u⟩ t d label o) (h' : Fits ⟨m, s, v⟩ t d label' o')
    {join : JoinSpec} {rules : List Permission} {e : Expr Placeholder}
    (hfield : t.fields.get? key = some ⟨.relation join, rules⟩) (hentry : (key, e) ∈ o.entries)
    {table : String} {B : String → String → Prop} {depth : Nat}
    (hasks : d.Asks m key d₁)
    (hentries : ∀ entry ∈ o'.entries,
      EntryShaped ⟨m, s, v⟩ B (Shaped ⟨m, s, v⟩ B depth) t d table label' entry) :
    ∃ label₂ o₂, (key, .relatedRow label₂ primaryKey o₂.row o₂.entries) ∈ o'.entries ∧
      B label₂ join.table ∧ Shaped ⟨m, s, v⟩ B depth d₁ join.table label₂ o₂ := by
  have hnone : t.column? key = none := by
    rw [Table.column?, hfield]
  have hkey : key ∈ o.keys t :=
    List.mem_append_right _ (List.mem_map_of_mem (f := Prod.fst) hentry)
  have hreads : t.reads u key = true := by
    rcases h.readable key hkey with rfl | hreads
    · have hsome := ht.key
      rw [hnone] at hsome
      cases hsome
    · exact hreads
  have hshows : t.shows ⟨m, s, v⟩ key = true := by
    have hread : canRead v rules = true := by
      have hreads' := Table.reads_mono huv hreads
      rw [Table.reads_of_get? hfield] at hreads'
      exact hreads'
    exact ht.shows_other hfield hread fun c hc => by cases hc
  have hkey' := h.keys_mono huv ht h' hkey
  unfold Output.keys at hkey'
  rcases List.mem_append.mp hkey' with hcolumn | hentry'
  · -- a relation is no column, so the whole row does not show it
    split at hcolumn
    · have hsome := ht.mem_columnNames.mp hcolumn
      rw [hnone] at hsome
      cases hsome
    · cases hcolumn
  · obtain ⟨⟨key', e'⟩, hmem, heq⟩ := List.mem_map.mp hentry'
    cases heq
    obtain ⟨field, hfield', hshaped⟩ := hentries _ hmem
    rw [hfield] at hfield'
    cases hfield'
    obtain ⟨d₂, label₂, o₂, hasks₂, hbound, hvalue, hbelow⟩ := hshaped
    have hd := h'.asks_unique hshows hasks hasks₂
    dsimp only at hvalue
    rw [hvalue] at hmem
    rw [hd]
    exact ⟨label₂, o₂, hmem, hbound, hbelow⟩

end outputs

/-- A key that is among the keys of an output is shown. -/
theorem Fits.shown_of_mem_keys {env : Env} {t : Table} {d : Demand} {label table key : String}
    {o : Output} (h : Fits env t d label o) {B : String → String → Prop} (hB : B label table)
    (ht : env.metadata.tables.get? table = some t) (hkey : key ∈ o.keys t) :
    HasPath env.metadata B table o [key] := by
  rcases List.mem_append.mp hkey with hkey | hkey
  · split at hkey
    · rename_i hrow
      have hlabel : o.row = some label := by
        rw [h.row] at hrow ⊢
        split at hrow
        · rename_i hwhole
          rw [if_pos hwhole]
        · cases hrow
      exact .column hlabel hB ht hkey
    · cases hkey
  · obtain ⟨⟨key', e⟩, hmem, rfl⟩ := List.mem_map.mp hkey
    exact .entry hmem

/-- Of two outputs of one shape, for one user and for one above, the second shows what the first
shows.  The induction is over the path: behind the key of a relation both go on with outputs of one
shape again. -/
theorem Shaped.shown_mono {m : Metadata} (hm : m.Keyed) {s : Settings} {u v : Option User}
    (huv : User.Below u v) {B B' : String → String → Prop}
    (hunique : ∀ label table table', B label table → B label table' → table = table')
    {table label label' : String} {o o' : Output} {d : Demand} {depth : Nat} {path : List String}
    (hpath : HasPath m B table o path) (h : Shaped ⟨m, s, u⟩ B depth d table label o)
    (h' : Shaped ⟨m, s, v⟩ B' depth d table label' o') (hB : B label table)
    (hB' : B' label' table) : HasPath m B' table o' path := by
  induction hpath generalizing label label' o' d depth with
  | @column table label₀ source key o t₀ hrow hsource ht₀ hcolumn =>
      cases depth with
      | zero => exact h.elim
      | succ depth =>
          obtain ⟨t, ht, hfits, -⟩ := h
          obtain ⟨t', ht', hfits', -⟩ := h'
          dsimp only at ht ht'
          rw [ht] at ht'
          cases ht'
          -- the whole row is that of the table under the output's own alias
          have hlabel : label₀ = label := by
            have hown := hfits.row
            rw [hrow] at hown
            split at hown
            · cases hown
              rfl
            · cases hown
          rw [hlabel] at hsource
          rw [hunique _ _ _ hsource hB, ht] at ht₀
          cases ht₀
          refine hfits'.shown_of_mem_keys hB' ht (hfits.keys_mono huv (hm _ _ ht) hfits' ?_)
          rw [Output.keys, hrow]
          exact List.mem_append_left _ hcolumn
  | @entry table key o e hentry =>
      cases depth with
      | zero => exact h.elim
      | succ depth =>
          obtain ⟨t, ht, hfits, -⟩ := h
          obtain ⟨t', ht', hfits', -⟩ := h'
          dsimp only at ht ht'
          rw [ht] at ht'
          cases ht'
          refine hfits'.shown_of_mem_keys hB' ht (hfits.keys_mono huv (hm _ _ ht) hfits' ?_)
          exact List.mem_append_right _ (List.mem_map_of_mem (f := Prod.fst) hentry)
  | @nested table key label₀ o inner t₀ join rules path ht₀ hfield hentry hinner ih =>
      cases depth with
      | zero => exact h.elim
      | succ depth =>
          obtain ⟨t, ht, hfits, hentries⟩ := h
          obtain ⟨t', ht', hfits', hentries'⟩ := h'
          dsimp only at ht ht'
          rw [ht] at ht' ht₀
          cases ht'
          cases ht₀
          obtain ⟨field, hfield', hshaped⟩ := hentries _ hentry
          rw [hfield] at hfield'
          cases hfield'
          obtain ⟨d₁, label₁, o₁, hasks, hbound, hvalue, hbelow⟩ := hshaped
          have hsame : inner = o₁ := relatedRow_inj hvalue
          rw [← hsame] at hbelow
          obtain ⟨label₂, o₂, hentry₂, hbound₂, hbelow₂⟩ := exists_relation_entry huv (hm _ _ ht)
            hfits hfits' hfield hentry hasks hentries'
          exact .nested ht hfield hentry₂ (ih hbelow hbelow₂ hbound hbound₂)

/-! ### Requests -/

namespace Request

variable {env : Env} {r : Request} {aliases : Aliases} {q : Query}

/-- The output of a compiled request has the shape that its fragment asks for, and no alias is bound
to two tables. -/
theorem output_of_compile (hm : env.metadata.Keyed) (h : r.compile env aliases = .ok q) :
    ∃ f label, env.metadata.fragments.get? r.fragment = some f ∧
      q.select.source = some ⟨f.table, label⟩ ∧ q.select.labels.Nodup ∧
      Shaped env q.select.Binds (env.settings.maxFragmentDepth.toNat + 2)
        (.fields r.fragment f.selections) f.table label q.select.output := by
  obtain ⟨f, table, w, hf, hname, hget, hrun, hsource, hdisplays, hlabels, hbinds, -⟩ :=
    exists_fragment_run hm h
  obtain ⟨-, -, hshaped, -⟩ :=
    (namedFragment_shapes hm hf hget aliases (Nat.lt_succ_self _)).of_ok hrun
  refine ⟨f, rootAlias table.name, lookupFragment_ok hf, ?_⟩
  rw [← hname, hdisplays.output_eq]
  exact ⟨hsource, hlabels, hshaped.mono hbinds⟩

/-- **More privileges never show less.**  If a request compiles for a user and for one above, every
path of keys that the first query shows is shown by the second, whatever aliases they use. -/
theorem compile_shows_mono {m : Metadata} (hm : m.Keyed) {s : Settings} {u v : Option User}
    (huv : User.Below u v) {r : Request} {aliases aliases' : Aliases} {q q' : Query}
    (hq : r.compile ⟨m, s, u⟩ aliases = .ok q) (hq' : r.compile ⟨m, s, v⟩ aliases' = .ok q')
    {path : List String} (hpath : q.ShowsPath m path) : q'.ShowsPath m path := by
  obtain ⟨f, label, hf, hsource, hlabels, hshaped⟩ := output_of_compile hm hq
  obtain ⟨f', label', hf', hsource', -, hshaped'⟩ := output_of_compile hm hq'
  have hsame : f' = f := Option.some.inj (hf'.symm.trans hf)
  rw [hsame] at hsource' hshaped'
  obtain ⟨source, hs, hshown⟩ := hpath
  rw [hsource] at hs
  cases hs
  have hunique : ∀ l t t', q.select.Binds l t → q.select.Binds l t' → t = t' :=
    fun _ _ _ h h' => h.unique hlabels h'
  exact ⟨_, hsource', hshaped.shown_mono hm huv hunique hshown hshaped' (.inl hsource)
    (.inl hsource')⟩

end Request

/-! ### A librarian is above someone who is logged out -/

deriving instance DecidableEq for Placeholder

namespace Sample

/-- What someone who is logged out is shown of the author of a book. -/
def guestAuthor : Output :=
  ⟨none, [("_id", .columnOf "j1" "_id"), ("name", .columnOf "j1" "name")]⟩

theorem showsPath_guest : ∃ q, libraryRequest.compile libraryEnv .sequential = .ok q ∧
    q.ShowsPath libraryEnv.metadata ["author", "name"] := by
  have h : (libraryRequest.compile libraryEnv .sequential).toOption.map (fun q =>
      (q.select.source, q.select.output.entries.any fun e =>
        e.1 == "author" &&
          e.2.beq (.relatedRow "j1" primaryKey guestAuthor.row guestAuthor.entries))) =
      some (some ⟨"Books", "b"⟩, true) := by decide +kernel
  obtain ⟨q, hq, hshown⟩ := exists_ok_of_map h
  obtain ⟨hsource, hentry⟩ := Prod.mk.inj hshown
  obtain ⟨⟨key, e⟩, hmem, he⟩ := List.any_eq_true.mp hentry
  rw [Bool.and_eq_true, beq_iff_eq, Expr.beq_iff] at he
  obtain ⟨rfl, rfl⟩ := he
  refine ⟨q, hq, _, hsource, ?_⟩
  have hname : HasPath libraryEnv.metadata q.select.Binds "People" guestAuthor ["name"] :=
    .entry (List.mem_cons_of_mem _ (List.mem_singleton_self _))
  exact .nested rfl rfl hmem hname

end Sample

theorem Request.compile_shows_mono_sample : Sample.libraryEnv.metadata.Keyed ∧
    User.Below none (some Sample.librarian) ∧
    ∃ q q', Sample.libraryRequest.compile Sample.libraryEnv .sequential = .ok q ∧
      Sample.libraryRequest.compile { Sample.libraryEnv with user := some Sample.librarian }
        .sequential = .ok q' ∧
      q.ShowsPath Sample.libraryEnv.metadata ["author", "name"] ∧
      q'.ShowsPath Sample.libraryEnv.metadata ["author", "name"] := by
  obtain ⟨q, hq, hshows⟩ := Sample.showsPath_guest
  obtain ⟨q', hq', -⟩ := Sample.compile_staffEnv
  have hbelow : User.Below none (some Sample.librarian) := trivial
  exact ⟨Sample.keyed_library, hbelow, q, q', hq, hq', hshows,
    compile_shows_mono Sample.keyed_library hbelow hq hq' hshows⟩

end ShapedQuery
