import ShapedQuery.Proofs.Binding

/-! # More metadata

Tables and fragments may be added to the metadata (`Metadata.Within`).  A lookup then finds what it
found before, or it found nothing before.  `Unmoved x y` says this of two steps: `y` does what `x`
does, unless `x` misses a table or a fragment.  It is kept by sequencing, and the steps of the
compiler are related in this way one by one, down to any depth of nesting.

So a request that compiles gives the same query with more metadata, and one that fails for another
reason than a missing name fails for the same reason (`Request.compile_extended`). -/

namespace ShapedQuery

/-- All tables and fragments are there, unchanged. -/
structure Metadata.Within (m m' : Metadata) : Prop where
  tables : ∀ name t, m.tables.get? name = some t → m'.tables.get? name = some t
  fragments : ∀ name f, m.fragments.get? name = some f → m'.fragments.get? name = some f

/-- A table and a fragment with new names are added in front. -/
theorem Metadata.within_add {m : Metadata} {table fragment : String} (t : Table) (f : Fragment)
    (ht : m.tables.get? table = none) (hf : m.fragments.get? fragment = none) :
    m.Within ⟨(table, t) :: m.tables, (fragment, f) :: m.fragments⟩ := by
  have hother : ∀ {α : Type} {es : Entries α} {name key : String} {a b : α}, es.get? key = none →
      es.get? name = some a → Entries.get? ((key, b) :: es) name = some a := by
    intro α es name key a b hnone hsome
    rw [Entries.get?, if_neg, hsome]
    rintro rfl
    rw [hnone] at hsome
    cases hsome
  exact ⟨fun _ _ => hother ht, fun _ _ => hother hf⟩

/-- A name is not in the metadata. -/
def QueryError.IsMissing (e : QueryError) : Prop :=
  (∃ table, e = .tableNotFound table) ∨ ∃ fragment, e = .fragmentNotFound fragment

/-! ### Lookups -/

section lookups

variable {α : Type}

/-- The second lookup finds what the first one finds, unless that misses a name. -/
def Refound (r s : Except QueryError α) : Prop := s = r ∨ ∃ e, r = .error e ∧ e.IsMissing

theorem Refound.bind {β : Type} {r s : Except QueryError α} {k l : α → Except QueryError β}
    (hr : Refound r s) (h : ∀ a, Refound (k a) (l a)) : Refound (r >>= k) (s >>= l) := by
  rcases hr with rfl | ⟨e, rfl, hmissing⟩
  · cases s with
    | ok a => exact h a
    | error e => exact .inl rfl
  · exact .inr ⟨e, rfl, hmissing⟩

variable {m m' : Metadata} (h : m.Within m')
include h

theorem Metadata.Within.lookupTable (name : String) :
    Refound (m.lookupTable name) (m'.lookupTable name) := by
  unfold Metadata.lookupTable
  cases ht : m.tables.get? name with
  | none => exact .inr ⟨_, rfl, .inl ⟨name, rfl⟩⟩
  | some t =>
      rw [h.tables name t ht]
      exact .inl rfl

theorem Metadata.Within.lookupFragment (name : String) :
    Refound (m.lookupFragment name) (m'.lookupFragment name) := by
  unfold Metadata.lookupFragment
  cases hf : m.fragments.get? name with
  | none => exact .inr ⟨_, rfl, .inr ⟨name, rfl⟩⟩
  | some f =>
      rw [h.fragments name f hf]
      exact .inl rfl

end lookups

/-! ### Steps -/

section steps

variable {α β : Type}

/-- The step `y` does what `x` does, unless that misses a name. -/
def Unmoved (x y : Compile α) : Prop := ∀ w, y w = x w ∨ ∃ e w', x w = .error e w' ∧ e.IsMissing

theorem Unmoved.refl (x : Compile α) : Unmoved x x := fun _ => .inl rfl

variable {x y : Compile α}

/-- Two steps one after the other. -/
theorem Unmoved.bind {k l : α → Compile β} (hx : Unmoved x y) (hk : ∀ a, Unmoved (k a) (l a)) :
    Unmoved (x >>= k) (y >>= l) := by
  intro w
  simp only [Bind.bind, EStateM.bind]
  rcases hx w with heq | ⟨e, w', he, hmissing⟩
  · rw [heq]
    cases x w with
    | ok a w' => exact hk a w'
    | error e w' => exact .inl rfl
  · rw [he]
    exact .inr ⟨e, w', rfl, hmissing⟩

/-- Look at what compiling works on. -/
theorem Unmoved.get {k l : Work → Compile α} (h : ∀ w, Unmoved (k w) (l w)) :
    Unmoved (MonadState.get >>= k) (MonadState.get >>= l) :=
  fun w => h w w

theorem Unmoved.ite {p : Prop} [Decidable p] {x' y' : Compile α} (h : Unmoved x y)
    (h' : Unmoved x' y') : Unmoved (if p then x else x') (if p then y else y') := by
  split
  · exact h
  · exact h'

/-- Something is looked up and used. -/
theorem Unmoved.lookup {ρ : Type} {r s : Except QueryError ρ} (hr : Refound r s)
    {k l : ρ → Compile α} (h : ∀ a, Unmoved (k a) (l a)) :
    Unmoved (Compile.ofExcept r >>= k) (Compile.ofExcept s >>= l) := by
  rcases hr with rfl | ⟨e, rfl, hmissing⟩
  · exact (Unmoved.refl _).bind h
  · exact fun w => .inr ⟨e, w, rfl, hmissing⟩

/-- A nested context is worked on. -/
theorem Unmoved.inChild {x y : Compile Unit} (h : Unmoved x y) (child : Context) :
    Unmoved (Compile.inChild child x) (Compile.inChild child y) := by
  intro w
  unfold Compile.inChild
  rcases h { w with context := child } with heq | ⟨e, w', he, hmissing⟩
  · rw [heq]
    exact .inl rfl
  · rw [he]
    exact .inr ⟨e, _, rfl, hmissing⟩

end steps

/-! ### Fragments -/

namespace Compile

variable {env : Env} {m : Metadata} (h : env.metadata.Within m)
include h

section fields

variable {nest nest' : String → Fragment → Compile Unit}
  (hnest : ∀ name f, Unmoved (nest name f) (nest' name f))
include hnest

theorem relation_unmoved (selection : Selection) (join : JoinSpec) :
    Unmoved (relation env nest selection join)
      (relation { env with metadata := m } nest' selection join) := by
  refine (Unmoved.refl _).bind fun label => ?_
  refine Unmoved.lookup (h.lookupTable join.table) fun table => ?_
  refine Unmoved.get fun w => ?_
  cases selection with
  | field name => exact Unmoved.refl _
  | nested name fragmentName =>
      refine Unmoved.lookup (h.lookupFragment fragmentName) fun fragment => ?_
      refine Unmoved.ite (Unmoved.refl _) ?_
      exact ((hnest fragmentName fragment).inChild _).bind fun _ => Unmoved.refl _

theorem readableField_unmoved (wholeRow : Bool) (table : String) (selection : Selection)
    (kind : FieldKind) :
    Unmoved (readableField env nest wholeRow table selection kind)
      (readableField { env with metadata := m } nest' wholeRow table selection kind) := by
  cases kind with
  | column c => cases selection <;> exact Unmoved.refl _
  | computed e => cases selection <;> exact Unmoved.refl _
  | relation join => exact relation_unmoved h hnest selection join

theorem selections_unmoved (fragment : String) (wholeRow : Bool) (table : NamedTable)
    (seen : List String) (ss : List Selection) :
    Unmoved (selections env nest fragment wholeRow table seen ss)
      (selections { env with metadata := m } nest' fragment wholeRow table seen ss) := by
  induction ss generalizing seen with
  | nil => exact Unmoved.refl _
  | cons selection rest ih =>
      unfold selections
      refine Unmoved.ite (Unmoved.refl _) ?_
      refine Unmoved.lookup (.inl rfl) fun field => ?_
      refine Unmoved.ite ?_ ?_
      · exact (readableField_unmoved h hnest _ _ _ _).bind fun _ => ih _
      · exact (Unmoved.refl _).bind fun _ => ih _

end fields

/-- A fragment, by induction on the room that is left on the path. -/
theorem fragment_unmoved (room : Nat) (path : FragmentPath) (name : String) (f : Fragment) :
    Unmoved (fragment env room path name f)
      (fragment { env with metadata := m } room path name f) := by
  induction room generalizing path name f with
  | zero => exact Unmoved.refl _
  | succ room ih =>
      refine Unmoved.lookup (.inl rfl) fun path => ?_
      refine (Unmoved.refl _).bind fun wholeRow => ?_
      refine Unmoved.get fun w => ?_
      exact selections_unmoved h (ih path) name wholeRow _ [] f.selections

theorem namedFragment_unmoved (name : String) :
    Unmoved (namedFragment env name) (namedFragment { env with metadata := m } name) :=
  Unmoved.lookup (h.lookupFragment name) fun f => fragment_unmoved h _ _ name f

end Compile

/-! ### Requests -/

namespace Request

variable {env : Env} {m : Metadata} (h : env.metadata.Within m) (r : Request)
include h

/-- Behind the fragment, nothing is looked up in the metadata. -/
theorem compileIn_unmoved (table : NamedTable) :
    Unmoved (compileIn env r table) (compileIn { env with metadata := m } r table) := by
  refine (Unmoved.refl _).bind fun _ => ?_
  exact (Compile.namedFragment_unmoved h r.fragment).bind fun _ => Unmoved.refl _

theorem compile_refound (aliases : Aliases) :
    Refound (r.compile env aliases) (r.compile { env with metadata := m } aliases) := by
  unfold compile
  refine (h.lookupFragment r.fragment).bind fun f => ?_
  refine (h.lookupTable f.table).bind fun table => ?_
  have hrun := compileIn_unmoved h r table (r.start env table aliases)
  unfold start at hrun
  dsimp only
  generalize compileIn env r table _ = x at hrun ⊢
  generalize compileIn { env with metadata := m } r table _ = y at hrun ⊢
  rcases hrun with rfl | ⟨e, w', rfl, hmissing⟩
  · exact .inl rfl
  · exact .inr ⟨e, rfl, hmissing⟩

/-- **More metadata does not change a query.**  If all tables and fragments stay as they are, a
request that compiles gives the same statement, the same values and the same fields left out.  A
request that fails fails for the same reason, unless that was a missing table or fragment. -/
theorem compile_extended (aliases : Aliases) :
    (∀ q, r.compile env aliases = .ok q →
      r.compile { env with metadata := m } aliases = .ok q) ∧
    ∀ e, r.compile env aliases = .error e → (∀ table, e ≠ .tableNotFound table) →
      (∀ fragment, e ≠ .fragmentNotFound fragment) →
      r.compile { env with metadata := m } aliases = .error e := by
  rcases compile_refound h r aliases with heq | ⟨e, he, hmissing⟩
  · rw [heq]
    exact ⟨fun _ hq => hq, fun _ he _ _ => he⟩
  · refine ⟨fun q hq => ?_, fun e' he' htable hfragment => ?_⟩
    · rw [he] at hq
      cases hq
    · rw [he] at he'
      cases he'
      rcases hmissing with ⟨table, rfl⟩ | ⟨fragment, rfl⟩
      · exact absurd rfl (htable table)
      · exact absurd rfl (hfragment fragment)

end Request

namespace Sample

/-- The metadata with tags. -/
def tagged (m : Metadata) : Metadata where
  tables := ("Tags", ⟨[("_id", textColumn)], []⟩) :: m.tables
  fragments := ("Tag", ⟨"Tags", [.field "_id"]⟩) :: m.fragments

/-- The metadata with a fragment that asks for a field twice. -/
def repeating : Env :=
  { env with metadata := ⟨env.metadata.tables,
      ("Titles", ⟨"Posts", [.field "title", .field "title"]⟩) :: env.metadata.fragments⟩ }

end Sample

namespace Request

/-- Tags do not matter to a request for posts, nor to the failure of one. -/
theorem compile_extended_sample :
    (∃ q, Sample.request.compile Sample.env .sequential = .ok q ∧ q.params = Sample.params ∧
      Sample.request.compile { Sample.env with metadata := Sample.tagged Sample.env.metadata }
        .sequential = .ok q) ∧
    Request.compile { Sample.repeating with
        metadata := Sample.tagged Sample.repeating.metadata }
      { Sample.request with fragment := "Titles" } .sequential =
        .error (.duplicateField "Titles" "title") := by
  refine ⟨?_, ?_⟩
  · obtain ⟨q, hq, hparams⟩ := Sample.compile_request
    have hwithin : Sample.env.metadata.Within (Sample.tagged Sample.env.metadata) :=
      Metadata.within_add _ _ rfl rfl
    exact ⟨q, hq, hparams, (compile_extended hwithin Sample.request .sequential).1 q hq⟩
  · have hwithin : Sample.repeating.metadata.Within (Sample.tagged Sample.repeating.metadata) :=
      Metadata.within_add _ _ rfl rfl
    exact (compile_extended hwithin { Sample.request with fragment := "Titles" } .sequential).2
      (.duplicateField "Titles" "title") rfl (fun _ he => by cases he) fun _ he => by cases he

end Request

end ShapedQuery
