import Mathlib.Logic.Function.Iterate
import ShapedQuery.Proofs.Runs

/-! # Fragments nest only so deep

Fragments refer to each other, possibly in cycles.  What ends the recursion is the path of the
fragments being resolved: `Compile.level` is one level of it without any other bound, and whatever
is put in place of the calls below a certain depth makes no difference (`Compile.unfolded_eq`), so
there are no such calls.

A request that can be compiled resolves every fragment along each chain of fragments that refer to
each other (`Env.Opens`), so each such chain is free of repetitions and not too long
(`Request.compile_bounded`). -/

namespace ShapedQuery

namespace FragmentPath

theorem enter_ok {p p' : FragmentPath} {name : String} (h : p.enter name = .ok p') :
    name ∉ p.names ∧ p.names.length ≤ p.maxDepth ∧ p' = ⟨p.maxDepth, name :: p.names⟩ := by
  unfold enter at h
  split at h
  · cases h
  · rename_i hnew
    split at h
    · cases h
    · rename_i hshort
      cases h
      exact ⟨by simpa using hnew, Nat.le_of_not_lt hshort, rfl⟩

/-- A path that is as long as it may be can not be entered. -/
theorem enter_full {p : FragmentPath} (h : p.maxDepth < p.names.length) (name : String) :
    ∃ e, p.enter name = .error e := by
  unfold enter
  rw [if_pos h]
  split <;> exact ⟨_, rfl⟩

end FragmentPath

/-- A fragment goes on with another one, in a relation that the user may read. -/
def Env.Opens (env : Env) (name next : String) : Prop :=
  ∃ f t field join rules, env.metadata.fragments.get? name = some f ∧
    env.metadata.tables.get? f.table = some t ∧ .nested field next ∈ f.selections ∧
    t.fields.get? field = some ⟨.relation join, rules⟩ ∧ canRead env.user rules = true

namespace Compile

variable {env : Env}

/-! ### The recursion -/

/-- One level of resolving fragments, where `nest` resolves those of the next one. -/
def level (env : Env) (nest : FragmentPath → String → Fragment → Compile Unit)
    (path : FragmentPath) (name : String) (f : Fragment) : Compile Unit := do
  let path ← ofExcept (path.enter name)
  let wholeRow ← onContext (baseRow env false)
  let table := (← get).context.table
  selections env (nest path) name wholeRow table [] f.selections

/-- Resolve the fragment with a name down to a depth, and then go on with `stop`. -/
def unfolded (env : Env) (stop : FragmentPath → String → Fragment → Compile Unit) (depth : Nat)
    (name : String) : Compile Unit := do
  let f ← ofExcept (env.metadata.lookupFragment name)
  (level env)^[depth] stop (.empty env.settings.maxFragmentDepth.toNat) name f

/-- A level goes on only with the path it has entered. -/
theorem level_congr {nest nest' : FragmentPath → String → Fragment → Compile Unit}
    {path : FragmentPath} {name : String}
    (h : ∀ path', path.enter name = .ok path' → nest path' = nest' path') (f : Fragment) :
    level env nest path name f = level env nest' path name f := by
  unfold level
  cases hpath : path.enter name with
  | error e => rfl
  | ok path' =>
      have hnest := h path' hpath
      simp only [ofExcept, pure_bind, hnest]

/-- The levels that a path has room for are all there are: by induction over the room. -/
theorem iterate_level (stop : FragmentPath → String → Fragment → Compile Unit) {room depth : Nat}
    {path : FragmentPath} (hroom : room + path.names.length = path.maxDepth + 1)
    (hdepth : room < depth) (name : String) (f : Fragment) :
    (level env)^[depth] stop path name f = fragment env room path name f := by
  induction room generalizing depth path name f with
  | zero =>
      obtain ⟨depth, rfl⟩ := Nat.exists_eq_succ_of_ne_zero (Nat.ne_of_gt hdepth)
      obtain ⟨e, he⟩ := FragmentPath.enter_full (p := path) (by omega) name
      rw [Function.iterate_succ_apply', level, fragment, he]
      rfl
  | succ room ih =>
      obtain ⟨depth, rfl⟩ := Nat.exists_eq_succ_of_ne_zero (Nat.ne_of_gt (Nat.zero_lt_of_lt hdepth))
      rw [Function.iterate_succ_apply']
      refine level_congr (fun path' hpath => ?_) f
      obtain ⟨-, -, rfl⟩ := FragmentPath.enter_ok hpath
      funext name' f'
      refine ih ?_ (Nat.lt_of_succ_lt_succ hdepth) name' f'
      show room + (path.names.length + 1) = path.maxDepth + 1
      omega

/-- **The recursion ends.**  Below the depth that the settings allow there is nothing to resolve. -/
theorem unfolded_eq (stop : FragmentPath → String → Fragment → Compile Unit) {depth : Nat}
    (h : env.settings.maxFragmentDepth.toNat + 2 ≤ depth) (name : String) :
    unfolded env stop depth name = namedFragment env name := by
  unfold unfolded namedFragment
  cases env.metadata.lookupFragment name with
  | error e => rfl
  | ok f => exact iterate_level stop rfl h name f

/-! ### Fragments that are resolved -/

/-- The fragment with a name was resolved without fail in a context of its table. -/
def Resolved (env : Env) (nest : String → Fragment → Compile Unit) (name : String) : Prop :=
  ∃ f w w', env.metadata.fragments.get? name = some f ∧
    env.metadata.tables.get? f.table = some w.context.table.table ∧ nest name f w = .ok () w'

variable {nest : String → Fragment → Compile Unit} {w : Work}

theorem relation_resolves (name fragmentName : String) (join : JoinSpec) :
    Leads (relation env nest (.nested name fragmentName) join) w fun _ _ =>
      Resolved env nest fragmentName := by
  refine Meets.bind ((leads_any _).mono fun label w₁ _ => leads_lookup fun table htable => ?_)
  obtain ⟨-, htable⟩ := Request.lookupTable_ok htable
  refine Meets.get (leads_lookup fun f hf => ?_)
  refine Meets.ite (fun _ => Meets.bind (Meets.throw trivial)) fun hsame => ?_
  have hown : env.metadata.tables.get? f.table = some table.table := by
    rw [not_not.mp hsame]
    exact htable
  refine Meets.bind (meets_inChild ((leads_any _).with_ok.mono fun _ wc hc => ?_))
  refine (leads_any _).mono fun _ _ _ => ?_
  exact ⟨f, _, wc, Request.lookupFragment_ok hf, hown, hc.2⟩

theorem selections_resolves {field fragmentName : String} {join : JoinSpec}
    {rules : List Permission} {table : NamedTable}
    (hfield : table.table.fields.get? field = some ⟨.relation join, rules⟩)
    (hread : canRead env.user rules = true) (fragment : String) (wholeRow : Bool)
    (seen : List String) {selections : List Selection}
    (hmem : .nested field fragmentName ∈ selections) :
    Leads (Compile.selections env nest fragment wholeRow table seen selections) w fun _ _ =>
      Resolved env nest fragmentName := by
  induction selections generalizing w seen with
  | nil => cases hmem
  | cons s rest ih =>
      rw [Compile.selections]
      refine Meets.ite (fun _ => Meets.bind (Meets.throw trivial)) fun _ => ?_
      refine leads_lookup fun found hfound => ?_
      rcases List.mem_cons.mp hmem with rfl | hmem
      · obtain rfl : found = ⟨.relation join, rules⟩ :=
          Option.some.inj ((Request.lookupField_ok hfound).symm.trans hfield)
        refine Meets.ite (fun _ => Meets.bind ?_) fun hnot => absurd hread hnot
        refine (relation_resolves field fragmentName join).mono fun _ _ hresolved => ?_
        exact (leads_any _).mono fun _ _ _ => hresolved
      · refine Meets.ite (fun _ => Meets.bind ?_) fun _ => Meets.bind ?_
        · exact (leads_any _).mono fun _ w₁ _ => ih (s.name :: seen) hmem
        · exact (leads_any _).mono fun _ w₁ _ => ih (s.name :: seen) hmem

section chain

variable {room : Nat} {path : FragmentPath} {name next : String}

/-- A fragment that was resolved could be entered. -/
theorem Resolved.enters (h : Resolved env (fragment env room path) name) :
    ∃ path', path.enter name = .ok path' := by
  obtain ⟨f, w, w', -, -, hrun⟩ := h
  have hleads : Leads (fragment env room path name f) w fun _ _ =>
      ∃ path', path.enter name = .ok path' := by
    cases room with
    | zero => exact leads_lookup fun path' _ => Meets.throw trivial
    | succ room =>
        refine leads_lookup fun path' hpath => ?_
        exact (leads_any _).mono fun _ _ _ => ⟨path', hpath⟩
  exact hleads.of_ok hrun

/-- The fragments that it goes on with were resolved under the path that was entered. -/
theorem Resolved.opens (h : Resolved env (fragment env room path) name)
    (hopens : env.Opens name next) {path' : FragmentPath} (hpath : path.enter name = .ok path') :
    ∃ room', Resolved env (fragment env room' path') next := by
  obtain ⟨f, w, w', hf, htable, hrun⟩ := h
  obtain ⟨f', t, field, join, rules, hf', ht, hmem, hfield, hread⟩ := hopens
  obtain rfl : f' = f := Option.some.inj (hf'.symm.trans hf)
  obtain rfl : t = w.context.table.table := Option.some.inj (ht.symm.trans htable)
  have hleads : Leads (fragment env room path name f') w fun _ _ =>
      ∃ room', Resolved env (fragment env room' path') next := by
    cases room with
    | zero => exact leads_lookup fun _ _ => Meets.throw trivial
    | succ room =>
        refine leads_lookup fun entered hentered => ?_
        obtain rfl : entered = path' := Except.ok.inj (hentered.symm.trans hpath)
        refine Meets.bind (meets_onContext (Meets.get ?_))
        have hrow := runs_baseRow (S := fun _ => True) (P := fun _ => True) env false w
        have htable' : (baseRow env false w.context).2.table = w.context.table :=
          hrow.grows.place.table
        dsimp only
        rw [htable']
        refine (selections_resolves hfield hread name _ [] hmem).mono fun _ _ hresolved => ?_
        exact ⟨room, hresolved⟩
  exact hleads.of_ok hrun

/-- Along a chain of fragments, each one is resolved under the path of those before it. -/
theorem Resolved.chain {rest : List String} (h : Resolved env (fragment env room path) name)
    (hchain : List.IsChain env.Opens (name :: rest)) :
    (name :: rest).Nodup ∧ (∀ l ∈ name :: rest, l ∉ path.names) ∧
      path.names.length + rest.length ≤ path.maxDepth := by
  induction rest generalizing name room path with
  | nil =>
      obtain ⟨path', hpath⟩ := h.enters
      obtain ⟨hnew, hlength, -⟩ := FragmentPath.enter_ok hpath
      exact ⟨List.nodup_singleton _, List.forall_mem_singleton.mpr hnew, hlength⟩
  | cons next rest ih =>
      obtain ⟨path', hpath⟩ := h.enters
      obtain ⟨hopens, hrest⟩ := List.isChain_cons_cons.mp hchain
      obtain ⟨room', hnext⟩ := h.opens hopens hpath
      obtain ⟨hnew, -, rfl⟩ := FragmentPath.enter_ok hpath
      obtain ⟨hnodup, hapart, hlength⟩ := ih hnext hrest
      have hother : ∀ l ∈ next :: rest, l ≠ name ∧ l ∉ path.names := fun l hl => by
        simpa using hapart l hl
      refine ⟨List.nodup_cons.mpr ⟨fun hmem => (hother name hmem).1 rfl, hnodup⟩, ?_, ?_⟩
      · exact List.forall_mem_cons.mpr ⟨hnew, fun l hl => (hother l hl).2⟩
      · rw [List.length_cons] at hlength ⊢
        dsimp only at hlength
        omega

end chain

end Compile

/-! ### Requests -/

namespace Request

variable {env : Env} {r : Request} {aliases : Aliases}

/-- The fragment of a request that was compiled is resolved. -/
theorem resolved_of_compile {q : Query} (h : r.compile env aliases = .ok q) :
    Compile.Resolved env (Compile.fragment env (env.settings.maxFragmentDepth.toNat + 1)
      (.empty env.settings.maxFragmentDepth.toNat)) r.fragment := by
  obtain ⟨f, table, w', hf, ht, hrun, -⟩ := exists_compileIn h
  obtain ⟨w, hw, -⟩ := compileIn_completes.of_ok hrun
  obtain ⟨-, htable⟩ := lookupTable_ok ht
  unfold Compile.namedFragment at hw
  rw [hf] at hw
  exact ⟨f, r.begun env table aliases, w, lookupFragment_ok hf, htable, hw⟩

/-- **Fragments nest only so deep.**  Resolving the fragment of a request ends: what would be done
below the depth that the settings allow makes no difference.  If the request can be compiled, no
chain of fragments from its own one on comes back to a fragment or is longer than the settings
allow, and if there is a chain that does or is, compiling fails. -/
theorem compile_bounded (env : Env) (r : Request) (aliases : Aliases) :
    (∀ stop depth, env.settings.maxFragmentDepth.toNat + 2 ≤ depth →
      Compile.unfolded env stop depth r.fragment = Compile.namedFragment env r.fragment) ∧
    (∀ q rest, r.compile env aliases = .ok q → List.IsChain env.Opens (r.fragment :: rest) →
      (r.fragment :: rest).Nodup ∧ rest.length ≤ env.settings.maxFragmentDepth.toNat) ∧
    ∀ rest, List.IsChain env.Opens (r.fragment :: rest) →
      (¬ (r.fragment :: rest).Nodup ∨ env.settings.maxFragmentDepth.toNat < rest.length) →
      ∃ e, r.compile env aliases = .error e := by
  have hbound : ∀ q rest, r.compile env aliases = .ok q →
      List.IsChain env.Opens (r.fragment :: rest) →
      (r.fragment :: rest).Nodup ∧ rest.length ≤ env.settings.maxFragmentDepth.toNat := by
    intro q rest hq hchain
    obtain ⟨hnodup, -, hlength⟩ := (resolved_of_compile hq).chain hchain
    exact ⟨hnodup, by simpa [FragmentPath.empty] using hlength⟩
  refine ⟨fun stop depth hdepth => Compile.unfolded_eq stop hdepth r.fragment, hbound, ?_⟩
  intro rest hchain hbad
  cases hq : r.compile env aliases with
  | error e => exact ⟨e, rfl⟩
  | ok q =>
      obtain ⟨hnodup, hlength⟩ := hbound q rest hq hchain
      rcases hbad with hrepeat | hlong
      · exact absurd hnodup hrepeat
      · exact absurd hlength (Nat.not_le_of_gt hlong)

end Request

namespace Sample

/-- Users who have friends.  One fragment shows them with their friends, these with theirs and so
on without end, the other shows a user with one friend. -/
def circle : Env where
  metadata := ⟨[("Users", ⟨[("_id", textColumn), ("friendId", textColumn),
      ("friend", ⟨.relation ⟨"Users", .left, [("_id", .column "friendId")]⟩, []⟩)], []⟩)],
    [("Friend", ⟨"Users", [.nested "friend" "Friend"]⟩),
      ("Pair", ⟨"Users", [.nested "friend" "Single"]⟩),
      ("Single", ⟨"Users", [.field "friendId"]⟩)]⟩
  settings := ⟨1, "Users"⟩
  user := none

def circleRequest (fragment : String) : Request := ⟨fragment, .filter [], [], none, none, none, []⟩

theorem circle_opens_self : circle.Opens "Friend" "Friend" :=
  ⟨_, _, "friend", _, _, rfl, rfl, List.mem_singleton_self _, rfl, rfl⟩

theorem circle_opens_single : circle.Opens "Pair" "Single" :=
  ⟨_, _, "friend", _, _, rfl, rfl, List.mem_singleton_self _, rfl, rfl⟩

end Sample

/-- Friends of friends without end can not be compiled; a pair can. -/
theorem Request.compile_bounded_sample :
    (∃ e, (Sample.circleRequest "Friend").compile Sample.circle .sequential = .error e) ∧
    ∃ q, (Sample.circleRequest "Pair").compile Sample.circle .sequential = .ok q ∧
      ["Pair", "Single"].Nodup ∧
      ["Single"].length ≤ Sample.circle.settings.maxFragmentDepth.toNat := by
  have hself : List.IsChain Sample.circle.Opens ["Friend", "Friend"] :=
    .cons_cons Sample.circle_opens_self (.singleton _)
  have hsingle : List.IsChain Sample.circle.Opens ["Pair", "Single"] :=
    .cons_cons Sample.circle_opens_single (.singleton _)
  have hrun : ((Sample.circleRequest "Pair").compile Sample.circle .sequential).toOption.map
      (fun _ => ()) = some () := by decide +kernel
  obtain ⟨q, hq, -⟩ := Sample.exists_ok_of_map hrun
  obtain ⟨-, -, hfails⟩ := compile_bounded Sample.circle (Sample.circleRequest "Friend") .sequential
  obtain ⟨-, hbound, -⟩ := compile_bounded Sample.circle (Sample.circleRequest "Pair") .sequential
  exact ⟨hfails ["Friend"] hself (.inl (by decide)), q, hq, hbound q ["Single"] hq hsingle⟩

end ShapedQuery
