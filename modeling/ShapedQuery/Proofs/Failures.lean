import ShapedQuery.Proofs.Binding
import ShapedQuery.Proofs.Decimal
import ShapedQuery.Proofs.Soundness

/-! # Why compiling can fail

With an accepted configuration, a request fails for reasons that the configuration cannot rule out
only: its own fragment is unknown, a fragment is no good as it stands (`Compile.FragmentError`), or
its selector or its sort do not fit the table (`Request.Refused`).

What remains to be seen is that aliases never clash.  They cannot if the sequence of aliases never
repeats and stays clear of the two aliases that are not drawn from it (`Aliases.Clear`), as the
sequence `j1`, `j2` and so on does. -/

namespace ShapedQuery

/-! ### Aliases that cannot clash -/

/-- A sequence without repetition that does not hold the alias of the root or of the user. -/
structure Aliases.Clear (aliases : Aliases) (root : String) : Prop where
  inj : ∀ i j, aliases.name i = aliases.name j → i = j
  root : ∀ i, aliases.name i ≠ root
  user : ∀ i, aliases.name i ≠ currentUserAlias

theorem Aliases.toList_sequential (n : Nat) :
    (sequential.name n).toList = 'j' :: Nat.toDigits 10 (n + 1) := by
  have hname : sequential.name n = "j" ++ (n + 1).repr := by
    simp [sequential]
    rfl
  rw [hname, String.toList_append, Nat.toList_repr]
  rfl

theorem lowercase_cases (c : Char) : lowercase c = ['i', Char.ofNat 0x307] ∨
    ∃ d, lowercase c = [d] := by
  unfold lowercase
  split
  · exact .inl rfl
  · dsimp only
    split
    · exact .inr ⟨_, rfl⟩
    · exact .inr ⟨_, rfl⟩

theorem toList_rootAlias (table : String) :
    (rootAlias table).toList = ['i', Char.ofNat 0x307] ∨ ∃ d, (rootAlias table).toList = [d] := by
  unfold rootAlias
  split
  · exact .inr ⟨'t', rfl⟩
  · rw [String.toList_ofList]
    exact lowercase_cases _

theorem rootAlias_ne_currentUserAlias (table : String) : rootAlias table ≠ currentUserAlias := by
  intro h
  have hlist := congrArg String.toList h
  rcases toList_rootAlias table with hr | ⟨d, hr⟩
  · rw [hr] at hlist
    exact absurd hlist (by decide)
  · rw [hr] at hlist
    have hlength : 1 = currentUserAlias.toList.length := congrArg List.length hlist
    exact absurd hlength (by decide)

theorem Aliases.clear_sequential (table : String) : sequential.Clear (rootAlias table) where
  inj i j h := by
    have hlist := congrArg String.toList h
    rw [toList_sequential, toList_sequential, List.cons.injEq] at hlist
    exact Nat.succ.inj (toDigits_inj hlist.2)
  root i h := by
    have hlist := congrArg String.toList h
    have hne : Nat.toDigits 10 (i + 1) ≠ [] := Nat.toDigits_ne_nil
    rw [toList_sequential] at hlist
    rcases toList_rootAlias table with hr | ⟨d, hr⟩
    · rw [hr, List.cons.injEq] at hlist
      exact absurd hlist.1 (by decide)
    · rw [hr, List.cons.injEq] at hlist
      exact hne hlist.2
  user i h := by
    have hlist := congrArg String.toList h
    rw [toList_sequential, show currentUserAlias.toList = 'c' :: "urrentUser".toList by decide,
      List.cons.injEq] at hlist
    exact absurd hlist.1 (by decide)

theorem Context.repeatedAlias?_eq_none {seen labels : List String} (hnodup : labels.Nodup)
    (hnew : ∀ l ∈ labels, l ∉ seen) : repeatedAlias? seen labels = none := by
  induction labels generalizing seen with
  | nil => rfl
  | cons l labels ih =>
      rw [List.nodup_cons] at hnodup
      rw [List.forall_mem_cons] at hnew
      rw [repeatedAlias?, if_neg (by simpa using hnew.1)]
      refine ih hnodup.2 fun l' hl' hseen => ?_
      rcases List.mem_cons.mp hseen with rfl | hseen
      · exact hnodup.1 hl'
      · exact hnew.2 l' hl' hseen

/-- Drawn aliases are different from each other and from the two that are not drawn. -/
theorem Aliases.Clear.repeatedAlias?_eq_none {aliases : Aliases} {root : String}
    (h : aliases.Clear root) (hroot : root ≠ currentUserAlias) {lo hi : Nat} {labels : List String}
    (hl : Numbered aliases.name lo hi labels) :
    Context.repeatedAlias? [root] (currentUserAlias :: labels) = none := by
  obtain ⟨places, hplaces, -, rfl⟩ := hl
  refine Context.repeatedAlias?_eq_none ?_ ?_
  · refine List.nodup_cons.mpr ⟨?_, ?_⟩
    · intro hmem
      obtain ⟨k, -, hk⟩ := List.mem_map.mp hmem
      exact h.user k hk
    · refine List.Nodup.map_on (fun i _ j _ => h.inj i j) ?_
      exact hplaces.imp fun hlt => Nat.ne_of_lt hlt
  · refine List.forall_mem_cons.mpr ⟨?_, fun l hl => ?_⟩
    · rw [List.mem_singleton]
      exact hroot.symm
    · obtain ⟨k, -, rfl⟩ := List.mem_map.mp hl
      rw [List.mem_singleton]
      exact h.root k

/-! ### The select statement of a request -/

namespace Request

variable (env : Env) (r : Request) (table : NamedTable)

/-- What the fragment of a request is compiled in: the user is joined. -/
def begun (aliases : Aliases) : Work :=
  let c := Context.root table env.settings.currentUserTable r.resolverArgs
  let join : Join Placeholder := ⟨.left, env.settings.currentUserTable, currentUserAlias,
    [.binary (.columnOf currentUserAlias primaryKey) .eq
      (.bound (c.bind (Context.userKey env.user)).1)]⟩
  ⟨{ (c.bind (Context.userKey env.user)).2 with
      joins := [⟨rootAlias table.name, none, join⟩]
      currentUserJoined := true }, aliases, []⟩

theorem setCurrentUser_start (aliases : Aliases) :
    Compile.setCurrentUser env.user (r.start env table aliases) =
      .ok () (r.begun env table aliases) := by
  unfold begun
  cases env.user <;> rfl

/-- What the selector of a request is about. -/
def target : Target := ⟨table, some (rootAlias table.name), r.caseInsensitive⟩

/-- The selector of a request, compiled after the values in `args`, or its sort does not fit the
table. -/
def Refused (args : Arguments) (e : QueryError) : Prop :=
  (∃ args', (r.target table).selector r.selector args = .error e args' ∧
    (r.target table).Refuses e) ∨
  (table.orderBy (rootAlias table.name) r.sort = .error e ∧
    ∃ column ∈ r.sort.map Prod.fst, table.table.column? column = none ∧
      e = .columnNotFound table.name column)

/-- A column of the table of a request. -/
def OwnColumn (c : ColumnRef) : Prop :=
  ∃ name, c = .qualified (rootAlias table.name) name ∧ (table.table.column? name).isSome = true

variable {env r table}

theorem orderBy_error {label : String} {sort : Entries Direction} {e : QueryError}
    (h : table.orderBy label sort = .error e) : ∃ column ∈ sort.map Prod.fst,
      table.table.column? column = none ∧ e = .columnNotFound table.name column := by
  induction sort with
  | nil => cases h
  | cons entry sort ih =>
      obtain ⟨field, direction⟩ := entry
      cases hcolumn : table.lookupColumn field with
      | error e' =>
          simp only [NamedTable.orderBy, hcolumn, Except.error.injEq] at h
          obtain ⟨he, hnone⟩ := Target.lookupColumn_eq_error hcolumn
          exact ⟨field, List.mem_cons_self, hnone, h.symm.trans he⟩
      | ok column =>
          cases hrest : table.orderBy label sort with
          | error e' =>
              simp only [NamedTable.orderBy, hcolumn, hrest, Except.error.injEq] at h
              obtain ⟨column, hmem, hnone, he⟩ := ih (hrest.trans (congrArg _ h))
              exact ⟨column, List.mem_cons_of_mem _ hmem, hnone, he⟩
          | ok terms =>
              simp only [NamedTable.orderBy, hcolumn, hrest] at h
              cases h

theorem orderBy_ok {sort : Entries Direction} {terms : List (OrderTerm Placeholder)}
    (h : table.orderBy (rootAlias table.name) sort = .ok terms) :
    ∀ t ∈ terms, t.target.EveryColumn (OwnColumn table) := by
  induction sort generalizing terms with
  | nil =>
      cases h
      exact nofun
  | cons entry sort ih =>
      obtain ⟨field, direction⟩ := entry
      cases hcolumn : table.lookupColumn field with
      | error e' =>
          simp only [NamedTable.orderBy, hcolumn] at h
          cases h
      | ok column =>
          cases hrest : table.orderBy (rootAlias table.name) sort with
          | error e' =>
              simp only [NamedTable.orderBy, hcolumn, hrest] at h
              cases h
          | ok terms' =>
              simp only [NamedTable.orderBy, hcolumn, hrest, Except.ok.injEq] at h
              subst h
              refine List.forall_mem_cons.mpr ⟨⟨field, rfl, ?_⟩, ih hrest⟩
              rw [Target.lookupColumn_eq_ok hcolumn]
              rfl

theorem selector_meets (r : Request) (table : NamedTable) (args : Arguments) :
    Meets ((r.target table).selector r.selector) args (r.Refused table args) fun e _ =>
      e.EveryColumn (OwnColumn table) := by
  have hgives := Target.selector_gives (buildsConditions_atColumn (OwnColumn table))
    (t := r.target table) (fun name c hc => ⟨name, rfl, Option.isSome_iff_exists.mpr ⟨c, hc⟩⟩)
    r.selector
  exact (hgives args).with_error fun e args' hrefuses hrun => .inl ⟨args', hrun, hrefuses⟩

theorem bindCount_meets {w : Work} {E : QueryError → Prop} (count : Option UInt32) :
    Meets (bindCount count) w E fun _ w' =>
      ∃ args, w' = { w with context := { w.context with arguments := args } } := by
  cases count with
  | none => exact ⟨w.context.arguments, rfl⟩
  | some n => exact ⟨_, rfl⟩

/-- A select statement shows what its context shows, and its own columns are those of the table. -/
structure Shows (table : NamedTable) (c : Context) (s : Select Placeholder) : Prop where
  items : s.items = c.selectItems
  source : s.source = some ⟨c.table.name, c.label⟩
  joins : s.joins = c.joins.map OwnedJoin.join
  labels : Context.repeatedAlias? [c.label] (OwnedJoin.labels c.joins) = none
  condition : s.condition.EveryColumn (OwnColumn table)
  order : ∀ t ∈ s.order, t.target.EveryColumn (OwnColumn table)

theorem lookupFragment_ok {m : Metadata} {name : String} {f : Fragment}
    (h : m.lookupFragment name = .ok f) : m.fragments.get? name = some f := by
  unfold Metadata.lookupFragment at h
  split at h
  · rename_i hf
    cases h
    exact hf
  · cases h

theorem lookupTable_ok {m : Metadata} {name : String} {t : NamedTable}
    (h : m.lookupTable name = .ok t) : t.name = name ∧ m.tables.get? name = some t.table := by
  unfold Metadata.lookupTable at h
  split at h
  · rename_i ht
    cases h
    exact ⟨rfl, ht⟩
  · cases h

theorem lookupField_ok {table : NamedTable} {name : String} {field : Field}
    (h : table.lookupField name = .ok field) : table.table.fields.get? name = some field := by
  unfold NamedTable.lookupField at h
  split at h
  · rename_i hget
    cases h
    exact hget
  · cases h

/-- A request that is compiled has a fragment and a table. -/
theorem exists_compileIn {aliases : Aliases} {q : Query} (h : r.compile env aliases = .ok q) :
    ∃ f table w, env.metadata.lookupFragment r.fragment = .ok f ∧
      env.metadata.lookupTable f.table = .ok table ∧
      compileIn env r table (r.start env table aliases) = .ok q.select w ∧
      q.dropped = w.dropped := by
  cases hf : env.metadata.lookupFragment r.fragment with
  | error e =>
      simp only [compile, hf, Bind.bind, Except.bind] at h
      cases h
  | ok f =>
      cases ht : env.metadata.lookupTable f.table with
      | error e =>
          simp only [compile, hf, ht, Bind.bind, Except.bind] at h
          cases h
      | ok table =>
          rw [compile_eq env hf ht] at h
          split at h
          · rename_i s w hrun
            cases h
            exact ⟨f, table, w, rfl, ht, hrun, rfl⟩
          · cases h

/-- After its fragment, a request can only fail for its selector, its sort or its aliases. -/
theorem compileIn_meets {aliases : Aliases} {E : QueryError → Prop} {P : Work → Prop}
    (hfragment : Meets (Compile.namedFragment env r.fragment) (r.begun env table aliases) E
      fun _ w => w.context.label = rootAlias table.name ∧ P w)
    (hrefused : ∀ w e, P w → r.Refused table w.context.arguments e → E e)
    (hlabels : ∀ w l, P w → Context.repeatedAlias? [rootAlias table.name]
      (OwnedJoin.labels w.context.joins) = some l → E (.duplicateAlias l)) :
    Meets (compileIn env r table) (r.start env table aliases) E fun s w' =>
      ∃ w, P w ∧ Shows table w.context s ∧ w'.dropped = w.dropped := by
  refine Meets.bind ?_
  unfold Meets
  rw [setCurrentUser_start]
  refine Meets.bind (hfragment.mono fun _ w hw => ?_)
  obtain ⟨hlabel, hP⟩ := hw
  refine Meets.get ?_
  dsimp only
  rw [hlabel]
  have hselector := (selector_meets r table w.context.arguments).with_error
    fun e _ he _ => hrefused w e hP he
  refine Meets.bind (Compile.meets_onArguments (hselector.mono fun condition args hcond => ?_))
  refine Compile.meets_lookup (fun order horder => ?_) fun e he =>
    hrefused w e hP (.inr ⟨he, orderBy_error he⟩)
  refine Meets.bind ((bindCount_meets r.limit).mono fun limit w₁ h₁ => ?_)
  obtain ⟨args₁, rfl⟩ := h₁
  refine Meets.bind ((bindCount_meets r.skip).mono fun offset w₂ h₂ => ?_)
  obtain ⟨args₂, rfl⟩ := h₂
  refine Meets.get (Compile.meets_lookup (fun s hs => ?_) fun e he => ?_)
  · obtain ⟨hnone, rfl⟩ := Context.select_ok hs
    rw [List.map_map] at hnone
    exact ⟨w, hP, ⟨rfl, rfl, rfl, hnone, hcond, orderBy_ok horder⟩, rfl⟩
  · rw [Context.select] at he
    split at he
    · rename_i l hl
      cases he
      rw [List.map_map] at hl
      refine hlabels w l hP ?_
      rw [← hlabel]
      exact hl
    · cases he

/-! ### Requests to closed metadata -/

variable {U : String → Prop}

/-- The compiler can be relied on: what it needs is there. -/
structure Served (env : Env) (U : String → Prop) (r : Request) (f : Fragment)
    (table : NamedTable) : Prop where
  closed : env.metadata.Closed U
  user : ∃ t, env.metadata.tables.get? env.settings.currentUserTable = some t
  fragment : env.metadata.fragments.get? r.fragment = some f
  tableName : table.name = f.table
  table : env.metadata.tables.get? table.name = some table.table

theorem sound_begun {fragment : Fragment} (h : r.Served env U fragment table) (aliases : Aliases) :
    (r.begun env table aliases).context.Sound env.metadata U where
  table := h.table
  user := rfl
  specs := List.forall_mem_singleton.mpr nofun
  projections := nofun
  joins := by
    refine List.forall_mem_singleton.mpr (List.forall_mem_singleton.mpr ⟨trivial, ?_, trivial⟩)
    have hkey := Compile.hasColumn_primaryKey h.closed h.user
    exact .inl ⟨_, .inr ⟨_, List.mem_singleton_self _, rfl, rfl⟩, hkey⟩

theorem namedFragment_meets {fragment : Fragment} (h : r.Served env U fragment table)
    (aliases : Aliases) :
    Meets (Compile.namedFragment env r.fragment) (r.begun env table aliases)
      Compile.FragmentError fun _ w =>
        (r.begun env table aliases).Grows w ∧ w.context.Sound env.metadata U := by
  have hlookup : env.metadata.lookupFragment r.fragment = .ok fragment := by
    rw [Metadata.lookupFragment, h.fragment]
  unfold Compile.namedFragment
  rw [hlookup]
  refine Compile.meets_lookup (fun f hf => ?_) fun e he => by cases he
  cases hf
  exact Compile.fragment_sound h.closed _ _ r.fragment fragment h.fragment _ (sound_begun h aliases)
    h.tableName

/-- The joins of a compiled fragment: that of the user, and others under new aliases. -/
theorem labels_of_grows {aliases : Aliases} {w : Work} (h : (r.begun env table aliases).Grows w) :
    ∃ labels, OwnedJoin.labels w.context.joins = currentUserAlias :: labels ∧
      Numbered aliases.name aliases.drawn w.aliases.drawn labels := by
  obtain ⟨added, he, hn⟩ := h.joins
  refine ⟨OwnedJoin.labels added, ?_, hn⟩
  rw [he, OwnedJoin.labels, List.map_append]
  rfl

/-- In an accepted configuration, a request finds what it needs unless its fragment is unknown. -/
theorem served_of_validate {c : Configuration} {rc : RuntimeConfiguration}
    (hc : c.validate = .ok rc) (r : Request) (user : Option User) {f : Fragment}
    (hf : rc.metadata.fragments.get? r.fragment = some f) :
    ∃ t, rc.metadata.lookupTable f.table = .ok ⟨f.table, t⟩ ∧
      r.Served ⟨rc.metadata, rc.settings, user⟩ (· ∈ rc.metadata.userColumns) f ⟨f.table, t⟩ := by
  obtain ⟨hclosed, huser⟩ := c.closed_of_validate hc
  obtain ⟨t, ht, -⟩ := hclosed.fragment _ f hf
  exact ⟨t, by rw [Metadata.lookupTable, ht], hclosed, huser, hf, rfl, ht⟩

theorem compileIn_error {f : Fragment} (h : r.Served env U f table) {aliases : Aliases}
    (hclear : aliases.Clear (rootAlias table.name)) :
    Meets (compileIn env r table) (r.start env table aliases)
      (fun e => Compile.FragmentError e ∨ ∃ w,
        Compile.namedFragment env r.fragment (r.begun env table aliases) = .ok () w ∧
          r.Refused table w.context.arguments e) fun _ _ => True := by
  have hfragment := (namedFragment_meets h aliases).with_ok
  refine (compileIn_meets (P := fun w => (r.begun env table aliases).Grows w ∧
      Compile.namedFragment env r.fragment (r.begun env table aliases) = .ok () w)
    ?_ ?_ ?_).mono fun _ _ _ => trivial
  · refine (hfragment.mono fun _ w hw => ?_).with_error fun e _ he _ => .inl he
    exact ⟨hw.1.1.place.label, hw.1.1, hw.2⟩
  · exact fun w e hw he => .inr ⟨w, hw.2, he⟩
  · intro w l hw hl
    obtain ⟨labels, hlabels, hn⟩ := labels_of_grows hw.1
    rw [hlabels, hclear.repeatedAlias?_eq_none (rootAlias_ne_currentUserAlias _) hn] at hl
    cases hl

/-- **What can go wrong with an accepted configuration.**  A request fails because its fragment is
unknown, because of how fragments are put together, or because its selector or its sort does not
fit the table; the latter only when its fragment was compiled without an error. -/
theorem compile_error_of_validate {c : Configuration} {rc : RuntimeConfiguration}
    (hc : c.validate = .ok rc) (r : Request) (user : Option User) {e : QueryError}
    (h : r.compile ⟨rc.metadata, rc.settings, user⟩ .sequential = .error e) :
    (e = .fragmentNotFound r.fragment ∧ rc.metadata.fragments.get? r.fragment = none) ∨
      Compile.FragmentError e ∨
      ∃ f table w, rc.metadata.lookupFragment r.fragment = .ok f ∧
        rc.metadata.lookupTable f.table = .ok table ∧
        Compile.namedFragment ⟨rc.metadata, rc.settings, user⟩ r.fragment
          (r.begun ⟨rc.metadata, rc.settings, user⟩ table .sequential) = .ok () w ∧
        r.Refused table w.context.arguments e := by
  cases hf : rc.metadata.fragments.get? r.fragment with
  | none =>
      have hlookup : rc.metadata.lookupFragment r.fragment =
          .error (.fragmentNotFound r.fragment) := by
        rw [Metadata.lookupFragment, hf]
      rw [compile] at h
      simp only [hlookup, Bind.bind, Except.bind, Except.error.injEq] at h
      exact .inl ⟨h.symm, rfl⟩
  | some f =>
      have hlookup : rc.metadata.lookupFragment r.fragment = .ok f := by
        rw [Metadata.lookupFragment, hf]
      obtain ⟨t, ht, hserved⟩ := served_of_validate hc r user hf
      have hmeets := compileIn_error hserved (Aliases.clear_sequential f.table)
      rw [compile_eq ⟨rc.metadata, rc.settings, user⟩ hlookup ht] at h
      split at h
      · cases h
      · rename_i e' w' hrun
        cases h
        rcases hmeets.of_error hrun with he | ⟨w, hw, he⟩
        · exact .inr (.inl he)
        · exact .inr (.inr ⟨f, ⟨f.table, t⟩, w, hlookup, ht, hw, he⟩)

end Request

/-! ### A configuration to try

Posts with an author and with a column of whoever looks at them. -/

namespace Sample

def blog (viewer : String) : Configuration where
  version := Configuration.currentVersion
  settings := .default
  metadata := ⟨[
    ("Posts", ⟨[("_id", textColumn), ("title", textColumn), ("authorId", textColumn),
      ("viewer", ⟨.computed (.currentUserColumn viewer), []⟩),
      ("author", ⟨.relation ⟨"Users", .left, [("_id", .column "authorId")]⟩, []⟩)], []⟩),
    ("Users", ⟨[("_id", textColumn), ("name", textColumn)], []⟩)],
    [("Post", ⟨"Posts", [.field "title", .field "viewer", .nested "author" "Author"]⟩),
      ("Author", ⟨"Users", [.field "name"]⟩)]⟩

/-- Posts whose field `field` is `x`. -/
def blogRequest (field : String) : Request :=
  ⟨"Post", .filter [(field, .str "x")], [("title", .ascending)], none, none, none, []⟩

/-- The blog as it is seen by someone who is logged out. -/
abbrev blogEnv (viewer : String) : Env := ⟨(blog viewer).metadata, (blog viewer).settings, none⟩

theorem validate_blog (viewer : String) :
    (blog viewer).validate = .ok ⟨(blog viewer).metadata, (blog viewer).settings⟩ := rfl

theorem compile_blogRequest_body : (blogRequest "body").compile (blogEnv "name") .sequential =
    .error (.columnNotFound "Posts" "body") := by
  have h : ((blogRequest "body").compile (blogEnv "name") .sequential).map (fun _ => ()) =
      .error (.columnNotFound "Posts" "body") := by decide +kernel
  cases hr : (blogRequest "body").compile (blogEnv "name") .sequential with
  | error e =>
      rw [hr] at h
      cases h
      rfl
  | ok q =>
      rw [hr] at h
      cases h

end Sample

theorem Request.compile_error_of_validate_sample :
    (Sample.blog "name").validate =
      .ok ⟨(Sample.blog "name").metadata, (Sample.blog "name").settings⟩ ∧
    (Sample.blogRequest "body").compile (Sample.blogEnv "name") .sequential =
      .error (.columnNotFound "Posts" "body") ∧
    ∃ f table w, (Sample.blog "name").metadata.lookupFragment "Post" = .ok f ∧
      (Sample.blog "name").metadata.lookupTable f.table = .ok table ∧
      Compile.namedFragment (Sample.blogEnv "name") "Post"
        ((Sample.blogRequest "body").begun (Sample.blogEnv "name") table .sequential) = .ok () w ∧
      (Sample.blogRequest "body").Refused table w.context.arguments
        (.columnNotFound "Posts" "body") := by
  refine ⟨Sample.validate_blog "name", Sample.compile_blogRequest_body, ?_⟩
  rcases compile_error_of_validate (Sample.validate_blog "name") (Sample.blogRequest "body") none
    Sample.compile_blogRequest_body with ⟨he, -⟩ | he | he
  · cases he
  · cases he
  · exact he

end ShapedQuery
