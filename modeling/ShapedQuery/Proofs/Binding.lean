import ShapedQuery.Proofs.Simulation

/-! # Placeholders of a compiled request

Every value bound for a request has a placeholder in its statement and every placeholder has a
value (`Request.compile_indices`), and each value is the one that belongs at its place: putting the
values in for the numbers gives the select that the inline compiler writes
(`Request.compile_filled`).

Both follow from what `Mirrors` says of a whole request (`Request.compileIn_mirrors`): the context
is accounted for, with the placeholders of the condition, the order, the limit and the offset
pending, and the select shows all of the context (`Context.mem_bounds_select`). -/

namespace ShapedQuery

theorem NamedTable.bounds_orderBy {t : NamedTable} {label : String} {sort : Entries Direction}
    {order : List (OrderTerm Placeholder)} (h : t.orderBy label sort = .ok order) :
    order.flatMap OrderTerm.bounds = [] := by
  induction sort generalizing order with
  | nil =>
      cases h
      rfl
  | cons s sort ih =>
      obtain ⟨field, direction⟩ := s
      unfold orderBy at h
      cases hc : t.lookupColumn field with
      | error e => simp [hc] at h
      | ok column =>
          cases ho : t.orderBy label sort with
          | error e => simp [hc, ho] at h
          | ok terms =>
              simp only [hc, ho, Except.ok.injEq] at h
              subst h
              rw [List.flatMap_cons, ih ho]
              rfl

/-- The placeholders of a select beside those of the context it was made from. -/
def Select.ownBounds {π : Type} (s : Select π) : List π :=
  s.condition.bounds ++ (s.order.flatMap OrderTerm.bounds ++ (s.limit.toList ++ s.offset.toList))

theorem Select.bounds_eq {π : Type} (s : Select π) : s.bounds =
    s.items.flatMap SelectItem.bounds ++ (s.joins.flatMap Join.bounds ++ s.ownBounds) := rfl

namespace Context

theorem mem_bounds_selectItems {F : Frame} {c : Context} {pending : List Placeholder}
    {p : Placeholder} (h : c.Accounts F pending) (hn : F.nested = false) :
    p ∈ c.selectItems.flatMap SelectItem.bounds ↔
      p ∈ c.projections.flatMap Projection.bounds := by
  have hrow : ((if c.wholeRow then [.star c.label] else []) :
      List (SelectItem Placeholder)).flatMap SelectItem.bounds = [] := by
    split <;> rfl
  rw [selectItems, List.flatMap_append, hrow, List.nil_append]
  simp only [List.mem_flatMap, List.mem_filterMap]
  constructor
  · rintro ⟨i, ⟨q, hq, hi⟩, hp⟩
    cases q with
    | field key value => cases hi
    | item i' =>
        cases hi
        exact ⟨_, hq, hp⟩
  · rintro ⟨q, hq, hp⟩
    have hitem := h.shown q hq
    cases q with
    | field key value => cases hitem.trans hn
    | item i => exact ⟨i, ⟨_, hq, rfl⟩, hp⟩

theorem ownBounds_select {c : Context} {condition : Expr Placeholder}
    {order : List (OrderTerm Placeholder)} {limit offset : Option Placeholder}
    {s : Select Placeholder} (h : c.select condition order limit offset = .ok s) :
    s.ownBounds = condition.bounds ++
      (order.flatMap OrderTerm.bounds ++ (limit.toList ++ offset.toList)) := by
  obtain ⟨-, rfl⟩ := select_ok h
  rfl

/-- A select shows all of its context. -/
theorem mem_bounds_select {F : Frame} {c : Context} {pending : List Placeholder}
    (h : c.Accounts F pending) (hn : F.nested = false) {condition : Expr Placeholder}
    {order : List (OrderTerm Placeholder)} {limit offset : Option Placeholder}
    {s : Select Placeholder} (hs : c.select condition order limit offset = .ok s)
    (p : Placeholder) : p ∈ s.bounds ↔ p ∈ c.bounds ∨ p ∈ s.ownBounds := by
  obtain ⟨-, rfl⟩ := select_ok hs
  rw [Select.bounds_eq]
  simp only [List.mem_append, mem_bounds_selectItems h hn, bounds, List.flatMap_map, or_assoc]

end Context

/-! ### Whole requests -/

/-- The select with the parameter of its number in each placeholder. -/
def Query.filled (q : Query) : Select (Option Param) :=
  q.select.map fun p => Arguments.value? ⟨0, q.params⟩ p.index

namespace Request

variable {F : Frame} {env : Env} {r : Request} {table : NamedTable}

theorem bindCount_mirrors {α β : Type} {k : Option Placeholder → Compile α} {y : Inline.Step β}
    {occ : α → List Placeholder} {img : α → β} {pre : List Placeholder} (n : Option UInt32)
    (hk : ∀ p : Option Placeholder, p.map Placeholder.value = n.map Inline.count →
      Mirrors F (pre ++ p.toList) (k p) y occ img) :
    Mirrors F pre (bindCount n >>= k) y occ img := by
  cases n with
  | none =>
      have := hk none rfl
      rw [Option.toList_none, List.append_nil] at this
      exact this
  | some n => exact Compile.bindParam_mirrors _ fun p hp => hk (some p) (congrArg some hp)

/-- The frame of the outermost context. -/
def frame (r : Request) : Frame := ⟨[], r.resolverArgs, false⟩

theorem compileIn_mirrors :
    Mirrors r.frame [] (compileIn env r table) (Inline.compileIn env r table)
      Select.ownBounds (Select.map Placeholder.value) := by
  refine (Compile.setCurrentUser_mirrors env.user).bind fun _ => ?_
  refine (Compile.namedFragment_mirrors env r.fragment).bind fun _ => ?_
  refine Mirrors.get fun w => ?_
  refine (Compile.onArguments_mirrors (Target.selector_binds r.selector) w).bind fun condition => ?_
  refine Mirrors.lookup fun order horder => ?_
  have hob := NamedTable.bounds_orderBy horder
  refine bindCount_mirrors r.limit fun limit hlimit => ?_
  refine bindCount_mirrors r.skip fun offset hoffset => ?_
  refine Mirrors.get fun w => ?_
  have hs := Context.scope_select Placeholder.value w.context condition order limit offset
  rw [hlimit, hoffset] at hs
  have hscope : w.inline.scope = w.context.scope Placeholder.value := rfl
  simp only [hscope, ← hs]
  cases hselect : w.context.select condition order limit offset with
  | error e => exact fun _ _ _ _ hx => nomatch hx
  | ok s =>
      have hown := Context.ownBounds_select hselect
      have hp : Mirrors r.frame (condition.bounds ++ limit.toList ++ offset.toList)
          (pure { s with comment := some ("Fragment " ++ r.fragment) })
          (pure { s.map Placeholder.value with comment := some ("Fragment " ++ r.fragment) })
          Select.ownBounds (Select.map Placeholder.value) := by
        refine Mirrors.pure (fun p => ?_) rfl
        have he : Select.ownBounds { s with comment := some ("Fragment " ++ r.fragment) } =
          s.ownBounds := rfl
        rw [he, hown, hob, List.nil_append, List.append_assoc]
      exact hp w

/-- A request ends with a select of the context that it leaves. -/
theorem compileIn_selects {w w' : Work} {s : Select Placeholder}
    (h : compileIn env r table w = .ok s w') :
    ∃ condition order limit offset s₀, w'.context.select condition order limit offset = .ok s₀ ∧
      s = { s₀ with comment := some ("Fragment " ++ r.fragment) } := by
  obtain ⟨_, w₁, -, h⟩ := Compile.bind_ok h
  obtain ⟨_, w₂, -, h⟩ := Compile.bind_ok h
  obtain ⟨_, w₃, -, h⟩ := Compile.bind_ok h
  obtain ⟨condition, w₄, -, h⟩ := Compile.bind_ok h
  obtain ⟨order, w₅, -, h⟩ := Compile.bind_ok h
  obtain ⟨limit, w₆, -, h⟩ := Compile.bind_ok h
  obtain ⟨offset, w₇, -, h⟩ := Compile.bind_ok h
  obtain ⟨_, w₈, hget, h⟩ := Compile.bind_ok h
  cases hget
  obtain ⟨s₀, w₉, hselect, h⟩ := Compile.bind_ok h
  cases h
  refine ⟨condition, order, limit, offset, s₀, ?_, rfl⟩
  cases hs : w₇.context.select condition order limit offset with
  | error e =>
      rw [hs] at hselect
      cases hselect
  | ok s' =>
      rw [hs] at hselect
      cases hselect
      exact hs

/-- What compiling a request starts from. -/
def start (env : Env) (r : Request) (table : NamedTable) (aliases : Aliases) : Work :=
  ⟨Context.root table env.settings.currentUserTable r.resolverArgs, aliases, []⟩

theorem compile_eq (env : Env) {aliases : Aliases} {fragment : Fragment}
    (hf : env.metadata.lookupFragment r.fragment = .ok fragment)
    (ht : env.metadata.lookupTable fragment.table = .ok table) :
    r.compile env aliases = match compileIn env r table (r.start env table aliases) with
      | .ok select w => .ok ⟨select, w.context.arguments.values, w.dropped⟩
      | .error e _ => .error e := by
  simp only [compile, hf, ht, Bind.bind, Except.bind]
  rfl

/-- What a compiled request is: its placeholders and its values belong to each other, and the
inline compiler writes the same select with the values. -/
theorem compile_ok {aliases : Aliases} {q : Query} (h : r.compile env aliases = .ok q) :
    Covers [] q.params q.select.bounds ∧
      Inline.compile env r aliases = .ok (q.select.map Placeholder.value) := by
  unfold Inline.compile
  cases hf : env.metadata.lookupFragment r.fragment with
  | error e => simp [compile, hf, Bind.bind, Except.bind] at h
  | ok fragment =>
      cases ht : env.metadata.lookupTable fragment.table with
      | error e => simp [compile, hf, ht, Bind.bind, Except.bind] at h
      | ok table =>
          rw [compile_eq env hf ht] at h
          simp only [ht, Bind.bind, Except.bind]
          split at h
          · rename_i s w' hrun
            cases h
            have hroot := Context.Accounts.root table env.settings.currentUserTable r.resolverArgs
            obtain ⟨hacc, -, hinline⟩ :=
              compileIn_mirrors (r.start env table aliases) [] s w' hroot hrun
            obtain ⟨condition, order, limit, offset, s₀, hselect, rfl⟩ := compileIn_selects hrun
            constructor
            · refine hacc.covers.congr fun p => ?_
              rw [List.nil_append, List.mem_append]
              exact (Context.mem_bounds_select hacc rfl hselect p).symm
            · have hrun' : Inline.compileIn env r table
                  ⟨Scope.root table env.settings.currentUserTable, aliases, []⟩ = .ok _ _ :=
                hinline (Context.not_clash_of_select hselect)
              rw [hrun']
          · cases h

end Request

/-! ### A request to try

Posts, each with a score that uses an argument of the request and with an author, whose bonus is
that argument again. -/

namespace Sample

def textColumn : Field := ⟨.column ⟨.scalar .text, false⟩, []⟩

def posts : Table where
  fields := [("_id", textColumn), ("title", textColumn), ("authorId", textColumn),
    ("score", ⟨.computed (.binary (.resolverArg "bonus") .plus (.value (.int 1))), []⟩),
    ("author", ⟨.relation ⟨"Users", .left,
      [("_id", .column "authorId"), ("kind", .value (.str "person"))]⟩, []⟩)]
  indexes := []

def users : Table where
  fields := [("_id", textColumn), ("bonus", ⟨.computed (.resolverArg "bonus"), []⟩)]
  indexes := []

def env : Env where
  metadata := ⟨[("Posts", posts), ("Users", users)],
    [("Post", ⟨"Posts", [.field "score", .nested "author" "Author"]⟩),
      ("Author", ⟨"Users", [.field "bonus"]⟩)]⟩
  settings := .default
  user := some ⟨"u1", [], true⟩

def request : Request where
  fragment := "Post"
  selector := .filter [("title", .str "it's")]
  sort := [("title", .ascending)]
  limit := some 10
  skip := none
  collation := none
  resolverArgs := [("bonus", .int 5)]

/-- The values of the request: the user, the bonus, the score's one, the kind of the author, the
title and the limit. -/
def params : List Param :=
  [.str "u1", .int 5, .int 1, .str "person", .str "it's", .int 10]

theorem compile_request : ∃ q, request.compile env .sequential = .ok q ∧ q.params = params := by
  have h : (request.compile env .sequential).toOption.map Query.params = some params := by
    decide +kernel
  obtain ⟨q, hq, hparams⟩ := Option.map_eq_some_iff.mp h
  refine ⟨q, ?_, hparams⟩
  cases hr : request.compile env .sequential with
  | error e =>
      rw [hr] at hq
      cases hq
  | ok q' =>
      rw [hr] at hq
      cases hq
      rfl

end Sample

/-! ### The placeholders of a compiled request -/

namespace Request

variable {env : Env} {r : Request} {aliases : Aliases} {q : Query}

/-- **The placeholders of a compiled request are numbered from one to the number of its values**:
no value is left without a placeholder, and no placeholder points past the values. -/
theorem compile_indices (h : r.compile env aliases = .ok q) (n : Nat) :
    (∃ p ∈ q.select.bounds, p.index = n) ↔ 1 ≤ n ∧ n ≤ q.params.length := by
  obtain ⟨hcovers, -⟩ := compile_ok h
  constructor
  · rintro ⟨p, hp, rfl⟩
    obtain ⟨hpos, hget⟩ := hcovers.sound p hp
    obtain ⟨hlt, -⟩ := List.getElem?_eq_some_iff.mp hget
    rw [List.nil_append] at hlt
    omega
  · rintro ⟨h₁, h₂⟩
    exact hcovers.complete n h₁ (by rw [List.length_nil]; omega)

theorem compile_indices_sample : ∃ q, Sample.request.compile Sample.env .sequential = .ok q ∧
    q.params = Sample.params ∧
      ∀ n, (∃ p ∈ q.select.bounds, p.index = n) ↔ 1 ≤ n ∧ n ≤ q.params.length := by
  obtain ⟨q, hq, hparams⟩ := Sample.compile_request
  exact ⟨q, hq, hparams, compile_indices hq⟩

/-- **Every placeholder stands for the value it was made for**: with each number replaced by the
value it has among the parameters, the select is the one that the inline compiler writes. -/
theorem compile_filled (h : r.compile env aliases = .ok q) :
    ∃ s, Inline.compile env r aliases = .ok s ∧ q.filled = s.map some := by
  obtain ⟨hcovers, hinline⟩ := compile_ok h
  refine ⟨_, hinline, ?_⟩
  rw [Select.map_map]
  refine Select.map_congr fun p hp => ?_
  obtain ⟨hpos, hget⟩ := hcovers.sound p hp
  rw [Arguments.value?, if_pos hpos]
  exact hget

theorem compile_filled_sample : ∃ q s, Sample.request.compile Sample.env .sequential = .ok q ∧
    q.params = Sample.params ∧ Inline.compile Sample.env Sample.request .sequential = .ok s ∧
      q.filled = s.map some := by
  obtain ⟨q, hq, hparams⟩ := Sample.compile_request
  obtain ⟨s, hs, hfilled⟩ := compile_filled hq
  exact ⟨q, s, hq, hparams, hs, hfilled⟩

end Request

end ShapedQuery
