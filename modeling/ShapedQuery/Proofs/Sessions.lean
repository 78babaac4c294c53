import ShapedQuery.Proofs.Sharing

/-! # Working on several contexts

A `Session` is a number of contexts that draw their aliases from one sequence.  Whoever drives it
works on the contexts in any order: binds values, shows fields, asks for joins, opens a context on
an alias that another one answered, and folds it back.  Each context remembers the joins it was
asked for and what it answered, also by a computed field on its way (`Compile.computedCalls`, which
is `Compile.computed` apart from that).

A context answers two joins with the same alias exactly if they are equal, and it answers a join
that it has without any change (`Session.answers_equal_iff`).  Joins that come in from nested
contexts do not get in the way: the alias of a nested context is drawn later than that of the
context around it (`Aliases.Later`), so that no context finds joins of another under its own
alias. -/

namespace ShapedQuery

/-! ### Equal joins -/

theorem exists_of_forall₂ {α β : Type} {R : α → β → Prop} {as : List α} {bs : List β}
    (h : List.Forall₂ R as bs) : ∀ a ∈ as, ∃ b ∈ bs, R a b := by
  induction h with
  | nil => exact List.forall_mem_nil _
  | cons hfirst _ ih =>
      refine List.forall_mem_cons.mpr ⟨⟨_, List.mem_cons_self, hfirst⟩, fun a ha => ?_⟩
      obtain ⟨b, hb, hR⟩ := ih a ha
      exact ⟨b, List.mem_cons_of_mem _ hb, hR⟩

namespace JoinSpec

/-- The same table, the same kind and the same conditions in any order. -/
structure Equal (a b : JoinSpec) : Prop where
  table : a.table = b.table
  kind : a.kind = b.kind
  on : ∃ on : Entries JoinOperand, on.Perm b.on ∧
    List.Forall₂ (fun e e' => e.1 = e'.1 ∧ e.2.same e'.2 = true) a.on on

theorem Keyed.same_symm {a b : JoinSpec} (ha : a.Keyed) (h : a.same b = true) : b.same a = true :=
  ha.same_of_same h ha.same_self

theorem equal_of_same {a b : JoinSpec} (ha : a.on.keys.Nodup) (h : a.same b = true) :
    a.Equal b := by
  obtain ⟨htable, hkind, hlength, hon⟩ := same_iff.mp h
  -- the conditions of `b` in the order of `a`
  let on : Entries JoinOperand := a.on.map fun e => (e.1, (b.on.get? e.1).getD e.2)
  have hsub : on ⊆ b.on := by
    intro e' he'
    obtain ⟨e, he, rfl⟩ := List.mem_map.mp he'
    obtain ⟨o, ho, -⟩ := hon e he
    rw [ho]
    exact Entries.mem_of_get? ho
  have hnodup : on.Nodup := by
    refine List.Nodup.of_map Prod.fst ?_
    rw [List.map_map]
    exact ha
  have hperm : on.Perm b.on := by
    refine (List.subperm_of_subset hnodup hsub).perm_of_length_le ?_
    rw [List.length_map]
    exact Nat.le_of_eq hlength.symm
  refine ⟨htable, hkind, on, hperm, ?_⟩
  rw [List.forall₂_map_right_iff, List.forall₂_same]
  intro e he
  obtain ⟨o, ho, hsame⟩ := hon e he
  rw [ho]
  exact ⟨rfl, hsame⟩

theorem Equal.same {a b : JoinSpec} (h : a.Equal b) (hb : b.on.keys.Nodup) : a.same b = true := by
  obtain ⟨on, hperm, hon⟩ := h.on
  refine same_iff.mpr ⟨h.table, h.kind, hon.length_eq.trans hperm.length_eq, fun e he => ?_⟩
  obtain ⟨e', he', hkey, hsame⟩ := exists_of_forall₂ hon e he
  rw [hkey]
  exact ⟨e'.2, Entries.get?_of_mem hb (hperm.mem_iff.mp he'), hsame⟩

end JoinSpec

/-! ### The joins a computed field asks for -/

/-- The joins that were asked for, with the aliases that were answered. -/
abbrev Calls := List (JoinSpec × String)

namespace Compile

mutual

/-- A computed field, together with the joins it asked for. -/
def computedCalls : Computed → Compile (Expr Placeholder × Calls)
  | .column name => do return (← joinOperand (.column name), [])
  | .currentUserColumn name => do return (← joinOperand (.currentUserColumn name), [])
  | .resolverArg name => do return (← joinOperand (.resolverArg name), [])
  | .value j => do return (← joinOperand (.value j), [])
  | .joinedColumn join column => do
    let label ← addJoin join
    return (.columnOf label column, [(join, label)])
  | .joinedRow join => do
    let label ← addJoin join
    return (.relatedRow label primaryKey (some label) [], [(join, label)])
  | .call name arguments => do
    let function ← ofExcept (Function.ofName name)
    let args ← computedCallsAll arguments
    return (.call function args.1, args.2)
  | .binary left operator right => do
    let l ← computedCalls left
    let r ← computedCalls right
    return (.binary l.1 operator.op r.1, l.2 ++ r.2)
  | .isNull e => do
    let e ← computedCalls e
    return (.test e.1 .null, e.2)

def computedCallsAll : List Computed → Compile (List (Expr Placeholder) × Calls)
  | [] => pure ([], [])
  | e :: es => do
    let a ← computedCalls e
    let as ← computedCallsAll es
    return (a.1 :: as.1, a.2 ++ as.2)

end

mutual

/-- Apart from the joins, this is the computed field. -/
theorem fst_computedCalls : ∀ c : Computed, Prod.fst <$> computedCalls c = computed c
  | .column _ => by simp only [computedCalls, computed, map_bind, map_pure, bind_pure]
  | .currentUserColumn _ => by simp only [computedCalls, computed, map_bind, map_pure, bind_pure]
  | .resolverArg _ => by simp only [computedCalls, computed, map_bind, map_pure, bind_pure]
  | .value _ => by simp only [computedCalls, computed, map_bind, map_pure, bind_pure]
  | .joinedColumn _ _ => by simp only [computedCalls, computed, map_bind, map_pure]
  | .joinedRow _ => by simp only [computedCalls, computed, map_bind, map_pure]
  | .call _ es => by
      simp only [computedCalls, computed, ← fst_computedCallsAll es, map_bind, map_pure,
        bind_map_left]
  | .binary left _ right => by
      simp only [computedCalls, computed, ← fst_computedCalls left, ← fst_computedCalls right,
        map_bind, map_pure, bind_map_left]
  | .isNull e => by
      simp only [computedCalls, computed, ← fst_computedCalls e, map_bind, map_pure, bind_map_left]

theorem fst_computedCallsAll : ∀ cs : List Computed, Prod.fst <$> computedCallsAll cs = computedAll cs
  | [] => by simp only [computedCallsAll, computedAll, map_pure]
  | e :: es => by
      simp only [computedCallsAll, computedAll, ← fst_computedCalls e, ← fst_computedCallsAll es,
        map_bind, map_pure, bind_map_left]

end

end Compile

/-! ### Sessions -/

namespace Session

/-- What can be done to a context. -/
inductive Op where
  | bind (value : Param)
  | resolverArg (name : String)
  | row
  | column (name : String)
  | named (name : String) (e : Expr Placeholder)
  | currentUser (user : Option User)
  | computed (c : Computed)
  | join (spec : JoinSpec)

/-- Do it, and tell the joins that were asked for. -/
def Op.run : Op → Compile Calls
  | .bind value => do
    let _ ← Compile.bindParam value
    return []
  | .resolverArg name => do
    let _ ← Compile.onContext fun c => c.resolverArg name
    return []
  | .row => do
    Compile.modifyContext Context.addRow
    return []
  | .column name => do
    Compile.modifyContext fun c => c.addColumn name
    return []
  | .named name e => do
    Compile.modifyContext fun c => c.addNamed name e
    return []
  | .currentUser user => do
    Compile.setCurrentUser user
    return []
  | .computed c => do return (← Compile.computedCalls c).2
  | .join spec => do return [(spec, ← Compile.addJoin spec)]

/-- A context, and the joins it was asked for so far. -/
structure Slot where
  context : Context
  calls : Calls

/-- The aliases that a context answered. -/
def Slot.answers (slot : Slot) : List String := slot.calls.map Prod.snd

/-- What can be done to the contexts of a session. -/
inductive Action where
  | on (i : Nat) (op : Op)
  /-- Open a context nested in the one at `i`, on an alias that it answered. -/
  | nest (i : Nat) (table : NamedTable) (label : String)
  /-- Fold the context at `k` into that at `i`, which answered its alias. -/
  | fold (i k : Nat) (name : String)

end Session

/-- Contexts that draw their aliases from one sequence. -/
structure Session where
  slots : List Session.Slot
  aliases : Aliases

namespace Session

/-- A session with a single context. -/
def start (c : Context) (aliases : Aliases) : Session := ⟨[⟨c, []⟩], aliases⟩

/-- What a step on a context works on. -/
def work (s : Session) (c : Context) : Work := ⟨c, s.aliases, []⟩

/-- Do something, if it succeeds. -/
def step (s : Session) : Action → Option Session
  | .on i op => do
    let slot ← s.slots[i]?
    match op.run (s.work slot.context) with
    | .ok calls w => some ⟨s.slots.set i ⟨w.context, slot.calls ++ calls⟩, w.aliases⟩
    | .error _ _ => none
  | .nest i table label => do
    let slot ← s.slots[i]?
    if label ∈ slot.answers then
      some { s with slots := s.slots ++ [⟨slot.context.child table label, []⟩] }
    else none
  | .fold i k name => do
    let slot ← s.slots[i]?
    let child ← s.slots[k]?
    if child.context.label ∈ slot.answers then
      match Compile.aggregate child.context name (s.work slot.context) with
      | .ok _ w => some ⟨(s.slots.set i ⟨w.context, slot.calls⟩).eraseIdx k, w.aliases⟩
      | .error _ _ => none
    else none

/-- Do one thing after the other. -/
def run (s : Session) : List Action → Option Session
  | [] => some s
  | a :: rest => do (← s.step a).run rest

end Session

/-! ### The order of aliases -/

namespace Aliases

/-- No alias comes twice from now on. -/
def Unrepeated (a : Aliases) : Prop :=
  ∀ i k, a.drawn ≤ i → a.drawn ≤ k → a.name i = a.name k → i = k

/-- The alias does not come any more. -/
def Past (a : Aliases) (label : String) : Prop := ∀ n, a.drawn ≤ n → a.name n ≠ label

/-- `l` comes after `label` in the sequence, if that comes at all. -/
def Later (a : Aliases) (label l : String) : Prop :=
  ∃ m, a.drawn ≤ m ∧ a.name m = l ∧ ∀ n, a.drawn ≤ n → a.name n = label → n < m

theorem Past.mono {a a' : Aliases} {label : String} (h : a.Past label) (hname : a'.name = a.name)
    (hdrawn : a.drawn ≤ a'.drawn) : a'.Past label := by
  intro n hn
  rw [hname]
  exact h n (Nat.le_trans hdrawn hn)

theorem Past.next {a : Aliases} {label : String} (h : a.Past label) : a.next.2.Past label :=
  h.mono rfl (Nat.le_succ _)

theorem Later.trans {a : Aliases} {x y z : String} (h : a.Later x y) (h' : a.Later y z) :
    a.Later x z := by
  obtain ⟨m, hm, hy, hx⟩ := h
  obtain ⟨m', hm', hz, hy'⟩ := h'
  exact ⟨m', hm', hz, fun n hn hname => Nat.lt_trans (hx n hn hname) (hy' m hm hy)⟩

theorem not_later_self (a : Aliases) (x : String) : ¬ a.Later x x := by
  rintro ⟨m, hm, hx, hlt⟩
  exact Nat.lt_irrefl m (hlt m hm hx)

end Aliases

/-! ### What a context has answered -/

theorem Compile.get_bind {α : Type} (k : Work → Compile α) (w : Work) :
    (MonadState.get >>= k) w = k w w := rfl

namespace Context

/-- The context itself made the join, for this spec. -/
structure Made (c : Context) (j : OwnedJoin) (spec : JoinSpec) : Prop where
  mem : j ∈ c.joins
  owner : j.owner = c.label
  spec_eq : j.spec = some spec

/-- The context made a join under this alias, for a spec equal to this one. -/
def Registered (c : Context) (spec : JoinSpec) (label : String) : Prop :=
  ∃ j s, c.Made j s ∧ s.same spec = true ∧ j.join.label = label

theorem made_of_serves {c : Context} {j : OwnedJoin} {spec : JoinSpec} (hj : j ∈ c.joins)
    (h : j.serves c.label spec = true) : ∃ s, c.Made j s ∧ s.same spec = true := by
  rw [OwnedJoin.serves, Bool.and_eq_true, beq_iff_eq, Option.any_eq_true] at h
  obtain ⟨howner, s, hs, hsame⟩ := h
  exact ⟨s, ⟨hj, howner, hs⟩, hsame⟩

theorem Made.serves {c : Context} {j : OwnedJoin} {s spec : JoinSpec} (h : c.Made j s)
    (hsame : s.same spec = true) : j.serves c.label spec = true := by
  rw [OwnedJoin.serves, Bool.and_eq_true, beq_iff_eq, Option.any_eq_true]
  exact ⟨h.owner, s, h.spec_eq, hsame⟩

end Context

/-- What holds of a context all the time, when the aliases are drawn from `first` on: its joins
belong to it or to contexts whose aliases were drawn later, and those that it made itself differ in
their specs and in their aliases. -/
structure Work.Settled (first : Aliases) (w : Work) : Prop where
  names : w.aliases.name = first.name
  drawn : first.drawn ≤ w.aliases.drawn
  label : w.aliases.Past w.context.label
  owners : ∀ j ∈ w.context.joins,
    j.owner = w.context.label ∨ first.Later w.context.label j.owner
  made : ∀ j spec, w.context.Made j spec → spec.Keyed ∧ w.aliases.Past j.join.label ∧
    first.Later w.context.label j.join.label
  unique : ∀ j s k t, w.context.Made j s → w.context.Made k t →
    s.same t = true ∨ j.join.label = k.join.label → j = k

namespace Work.Settled

variable {first : Aliases} {w : Work} {a b : JoinSpec} {l l' : String}

/-- The next alias comes after that of the context. -/
theorem later_next (h : w.Settled first) : first.Later w.context.label w.aliases.next.1 := by
  refine ⟨w.aliases.drawn, h.drawn, congrFun h.names.symm _, fun n _ hname => ?_⟩
  by_contra hle
  rw [← h.names] at hname
  exact h.label n (Nat.le_of_not_lt hle) hname

/-- Once the next alias is drawn, it does not come again. -/
theorem past_next (hfirst : first.Unrepeated) (h : w.Settled first) :
    w.aliases.next.2.Past w.aliases.next.1 := by
  intro n hn hname
  have hle : w.aliases.drawn + 1 ≤ n := hn
  have hsame : first.name n = first.name w.aliases.drawn := by
    rw [← h.names]
    exact hname
  have hplace := hfirst n w.aliases.drawn (Nat.le_trans h.drawn (Nat.le_of_succ_le hle)) h.drawn
    hsame
  omega

/-- One join serves for equal specs only, and for all of them. -/
theorem label_eq_iff (h : w.Settled first) (ha : a.Keyed) (hb : b.Keyed)
    (hl : w.context.Registered a l) (hl' : w.context.Registered b l') :
    l = l' ↔ a.same b = true := by
  obtain ⟨j, s, hj, hs, rfl⟩ := hl
  obtain ⟨k, t, hk, ht, rfl⟩ := hl'
  have hskeyed := (h.made j s hj).1
  have htkeyed := (h.made k t hk).1
  have has : a.same s = true := hskeyed.same_symm hs
  constructor
  · intro hlabels
    obtain rfl := h.unique j s k t hj hk (.inr hlabels)
    obtain rfl : s = t := Option.some.inj (hj.spec_eq.symm.trans hk.spec_eq)
    exact hskeyed.same_of_same hs ht
  · intro hab
    have hbs : b.same s = true := ha.same_of_same hab has
    have hst : s.same t = true := hb.same_of_same hbs (htkeyed.same_symm ht)
    rw [h.unique j s k t hj hk (.inl hst)]

/-- A join that the context has is answered without any change. -/
theorem addJoin_registered (h : w.Settled first) (ha : a.Keyed) (hl : w.context.Registered a l) :
    Compile.addJoin a w = .ok l w := by
  have hfind : ∃ j, (w.context.joins.find? fun j => j.serves w.context.label a) = some j := by
    obtain ⟨j, s, hj, hs, -⟩ := hl
    exact Option.isSome_iff_exists.mp (List.find?_isSome.mpr ⟨j, hj.mem, hj.serves hs⟩)
  obtain ⟨j, hj⟩ := hfind
  have hserves := List.find?_some hj
  obtain ⟨s, hmade, hs⟩ := Context.made_of_serves (List.mem_of_find?_eq_some hj) hserves
  have hlabel : j.join.label = l :=
    (h.label_eq_iff ha ha ⟨j, s, hmade, hs, rfl⟩ hl).mpr ha.same_self
  rw [Compile.addJoin, Compile.get_bind, hj, ← hlabel]
  rfl

end Work.Settled

/-! ### What steps keep -/

/-- After a step on a context it still has what it had, and the joins that the step asked for. -/
structure Work.Settles (first : Aliases) (w w' : Work) (calls : Calls) : Prop where
  settled : w'.Settled first
  label : w'.context.label = w.context.label
  drawn : w.aliases.drawn ≤ w'.aliases.drawn
  kept : ∀ j spec, w.context.Made j spec → w'.context.Made j spec
  calls : ∀ call ∈ calls, call.1.Keyed ∧ w'.context.Registered call.1 call.2

namespace Work.Settles

variable {first : Aliases} {w w' w'' : Work} {calls calls' : Calls}

theorem registered (h : w.Settles first w' calls) {spec : JoinSpec} {label : String}
    (hr : w.context.Registered spec label) : w'.context.Registered spec label := by
  obtain ⟨j, s, hj, hs⟩ := hr
  exact ⟨j, s, h.kept j s hj, hs⟩

theorem refl (h : w.Settled first) : w.Settles first w [] :=
  ⟨h, rfl, Nat.le_refl _, fun _ _ h => h, List.forall_mem_nil _⟩

theorem trans (h : w.Settles first w' calls) (h' : w'.Settles first w'' calls') :
    w.Settles first w'' (calls ++ calls') where
  settled := h'.settled
  label := h'.label.trans h.label
  drawn := Nat.le_trans h.drawn h'.drawn
  kept := fun j spec hj => h'.kept j spec (h.kept j spec hj)
  calls := by
    refine List.forall_mem_append.mpr ⟨fun call hcall => ?_, h'.calls⟩
    obtain ⟨hkeyed, hr⟩ := h.calls call hcall
    exact ⟨hkeyed, h'.registered hr⟩

/-- Joins come in that the context did not make for a spec. -/
theorem of_added (h : w.Settled first) (added : List OwnedJoin) {c : Context}
    (dropped : List Dropped) (hlabel : c.label = w.context.label)
    (hjoins : c.joins = w.context.joins ++ added)
    (howners : ∀ j ∈ added, (j.owner = w.context.label ∧ j.spec = none) ∨
      first.Later w.context.label j.owner) :
    w.Settles first ⟨c, w.aliases, dropped⟩ [] := by
  have hold : ∀ j spec, c.Made j spec → w.context.Made j spec := by
    rintro j spec ⟨hmem, howner, hspec⟩
    rw [hlabel] at howner
    rw [hjoins, List.mem_append] at hmem
    rcases hmem with hmem | hmem
    · exact ⟨hmem, howner, hspec⟩
    · rcases howners j hmem with ⟨-, hnone⟩ | hlater
      · rw [hnone] at hspec
        cases hspec
      · rw [howner] at hlater
        exact absurd hlater (first.not_later_self _)
  have hnew : ∀ j spec, w.context.Made j spec → c.Made j spec := by
    rintro j spec ⟨hmem, howner, hspec⟩
    exact ⟨hjoins ▸ List.mem_append_left _ hmem, howner.trans hlabel.symm, hspec⟩
  refine ⟨⟨h.names, h.drawn, ?_, ?_, ?_, ?_⟩, hlabel, Nat.le_refl _, hnew, List.forall_mem_nil _⟩
  · rw [hlabel]
    exact h.label
  · rw [hlabel, hjoins]
    refine List.forall_mem_append.mpr ⟨h.owners, fun j hj => ?_⟩
    exact (howners j hj).imp_left And.left
  · rw [hlabel]
    exact fun j spec hj => h.made j spec (hold j spec hj)
  · exact fun j s k t hj hk => h.unique j s k t (hold j s hj) (hold k t hk)

theorem of_joins (h : w.Settled first) {c : Context} (dropped : List Dropped)
    (hlabel : c.label = w.context.label) (hjoins : c.joins = w.context.joins) :
    w.Settles first ⟨c, w.aliases, dropped⟩ [] :=
  of_added h [] dropped hlabel (by rw [hjoins, List.append_nil]) (List.forall_mem_nil _)

theorem of_binds (h : w.Settled first) (hb : w.Binds w') : w.Settles first w' [] := by
  obtain ⟨c, aliases, dropped⟩ := w'
  obtain rfl : aliases = w.aliases := hb.aliases
  exact of_joins h dropped hb.place.label hb.joins

/-- A context comes in whose alias was drawn later. -/
theorem fold (h : w.Settled first) {wc : Work} (hchild : wc.Settled first)
    (hlater : first.Later w.context.label wc.context.label) (name : String) :
    w.Settles first { w with context := w.context.folded wc.context name } [] := by
  obtain ⟨added, hjoins, hsub, -⟩ :=
    Context.mergeJoins_eq_append w.context.joins wc.context.joins
  refine of_added h added w.dropped rfl hjoins fun j hj => .inr ?_
  rcases hchild.owners j (hsub.subset hj) with howner | howner
  · rw [howner]
    exact hlater
  · exact hlater.trans howner

/-- The context makes a join, as none serves for the spec. -/
theorem join (hfirst : first.Unrepeated) (h : w.Settled first) {spec : JoinSpec}
    (hspec : spec.Keyed) (hnew : ∀ j ∈ w.context.joins, j.serves w.context.label spec = false)
    (hb : Work.Binds ⟨w.context, w.aliases.next.2, w.dropped⟩ w') (on : List (Expr Placeholder)) :
    w.Settles first { w' with context := w'.context.addJoin spec w.aliases.next.1 on }
      [(spec, w.aliases.next.1)] := by
  let j : OwnedJoin := ⟨w'.context.label, some spec, ⟨spec.kind, spec.table, w.aliases.next.1, on⟩⟩
  let c := w'.context.addJoin spec w.aliases.next.1 on
  have hlabel : c.label = w.context.label := hb.place.label
  have hjoins : c.joins = w.context.joins ++ [j] := by
    show w'.context.joins ++ [j] = _
    rw [hb.joins]
  -- the joins the context made are those from before and the new one
  have hmade : ∀ k s, c.Made k s → w.context.Made k s ∨ (k = j ∧ s = spec) := by
    rintro k s ⟨hmem, howner, hs⟩
    rw [hlabel] at howner
    rw [hjoins, List.mem_append, List.mem_singleton] at hmem
    rcases hmem with hmem | rfl
    · exact .inl ⟨hmem, howner, hs⟩
    · exact .inr ⟨rfl, (Option.some.inj hs).symm⟩
  have hkept : ∀ k s, w.context.Made k s → c.Made k s := by
    rintro k s ⟨hmem, howner, hs⟩
    exact ⟨hjoins ▸ List.mem_append_left _ hmem, howner.trans hlabel.symm, hs⟩
  have hown : c.Made j spec :=
    ⟨hjoins ▸ List.mem_append_right _ (List.mem_singleton_self _), rfl, rfl⟩
  have hother : ∀ k s, w.context.Made k s →
      ¬ (s.same spec = true ∨ k.join.label = w.aliases.next.1) := by
    rintro k s hk (hsame | heq)
    · have hserves := hnew k hk.mem
      rw [hk.serves hsame] at hserves
      cases hserves
    · exact (h.made k s hk).2.1 w.aliases.drawn (Nat.le_refl _) heq.symm
  have hsettled : Work.Settled first ⟨c, w.aliases.next.2, w'.dropped⟩ := by
    refine ⟨h.names, Nat.le_succ_of_le h.drawn, ?_, ?_, ?_, ?_⟩
    · rw [hlabel]
      exact h.label.next
    · rw [hjoins, hlabel]
      exact List.forall_mem_append.mpr ⟨h.owners, List.forall_mem_singleton.mpr (.inl hlabel)⟩
    · rw [hlabel]
      intro k s hk
      rcases hmade k s hk with hold | ⟨rfl, rfl⟩
      · obtain ⟨hkeyed, hpast, hlater⟩ := h.made k s hold
        exact ⟨hkeyed, hpast.next, hlater⟩
      · exact ⟨hspec, h.past_next hfirst, h.later_next⟩
    · intro k s k' s' hk hk' hor
      rcases hmade k s hk with hold | ⟨rfl, rfl⟩ <;>
        rcases hmade k' s' hk' with hold' | ⟨rfl, rfl⟩
      · exact h.unique k s k' s' hold hold' hor
      · exact absurd hor (hother k s hold)
      · exact absurd (hor.imp hspec.same_symm Eq.symm) (hother k' s' hold')
      · rfl
  have haliases : w'.aliases = w.aliases.next.2 := hb.aliases
  rw [haliases]
  exact ⟨hsettled, hlabel, Nat.le_succ _, hkept,
    List.forall_mem_singleton.mpr ⟨hspec, j, spec, hown, hspec.same_self, rfl⟩⟩

end Work.Settles

/-! ### Steps -/

namespace Compile

variable {first : Aliases} {w : Work}

/-- A step that keeps what a context has and asks for joins. -/
abbrev Asks {α : Type} (first : Aliases) (x : Compile α) (w : Work) (calls : α → Calls) : Prop :=
  Leads x w fun a w' => w.Settles first w' (calls a)

theorem addJoin_asks (hfirst : first.Unrepeated) (h : w.Settled first) {spec : JoinSpec} (hspec : spec.Keyed) :
    Asks first (addJoin spec) w fun label => [(spec, label)] := by
  unfold Asks addJoin
  refine Meets.get ?_
  dsimp only
  split
  · rename_i j hj
    have hserves := List.find?_some hj
    obtain ⟨s, hmade, hs⟩ := Context.made_of_serves (List.mem_of_find?_eq_some hj) hserves
    refine Meets.pure { Work.Settles.refl h with calls := ?_ }
    exact List.forall_mem_singleton.mpr ⟨hspec, j, s, hmade, hs, rfl⟩
  · rename_i hnone
    have hnew : ∀ j ∈ w.context.joins, j.serves w.context.label spec = false := by
      simpa using hnone
    refine Meets.bind ?_
    have hconditions := joinConditions_binds (w := ⟨w.context, w.aliases.next.2, w.dropped⟩)
      w.aliases.next.1 spec.on
    refine Meets.bind (hconditions.mono fun on w₁ hb => ?_)
    exact Meets.bind (meets_modifyContext (Meets.pure (.join hfirst h hspec hnew hb on)))

theorem joinOperand_asks (h : w.Settled first) (o : JoinOperand) :
    Asks first (do return (← joinOperand o, [])) w Prod.snd :=
  Meets.bind ((joinOperand_binds o).mono fun _ _ hb => Meets.pure (.of_binds h hb))

mutual

theorem computedCalls_asks (hfirst : first.Unrepeated) : ∀ {w : Work} {c : Computed}, w.Settled first →
    c.EveryJoin JoinSpec.Keyed → Asks first (computedCalls c) w Prod.snd
  | _, .column name, h, _ => joinOperand_asks h (.column name)
  | _, .currentUserColumn name, h, _ => joinOperand_asks h (.currentUserColumn name)
  | _, .resolverArg name, h, _ => joinOperand_asks h (.resolverArg name)
  | _, .value j, h, _ => joinOperand_asks h (.value j)
  | _, .joinedColumn _ _, h, hj =>
      Meets.bind ((addJoin_asks hfirst h hj).mono fun _ _ h' => Meets.pure h')
  | _, .joinedRow _, h, hj =>
      Meets.bind ((addJoin_asks hfirst h hj).mono fun _ _ h' => Meets.pure h')
  | _, .call _ _, h, hj =>
      leads_lookup fun _ _ =>
        Meets.bind ((computedCallsAll_asks hfirst h hj).mono fun _ _ h' => Meets.pure h')
  | _, .binary _ _ _, h, hj => by
      refine Meets.bind ((computedCalls_asks hfirst h hj.1).mono fun l w₁ h₁ => ?_)
      refine Meets.bind ((computedCalls_asks hfirst h₁.settled hj.2).mono fun r w₂ h₂ => ?_)
      exact Meets.pure (h₁.trans h₂)
  | _, .isNull e, h, hj =>
      Meets.bind ((computedCalls_asks (c := e) hfirst h hj).mono fun _ _ h' => Meets.pure h')

theorem computedCallsAll_asks (hfirst : first.Unrepeated) : ∀ {w : Work} {cs : List Computed}, w.Settled first →
    Computed.EveryJoinAll JoinSpec.Keyed cs → Asks first (computedCallsAll cs) w Prod.snd
  | _, [], h, _ => Meets.pure (.refl h)
  | _, _ :: _, h, hj => by
      refine Meets.bind ((computedCalls_asks hfirst h hj.1).mono fun a w₁ h₁ => ?_)
      refine Meets.bind ((computedCallsAll_asks hfirst h₁.settled hj.2).mono fun as w₂ h₂ => ?_)
      exact Meets.pure (h₁.trans h₂)

end

theorem setCurrentUser_asks (h : w.Settled first) (user : Option User) :
    Asks first (setCurrentUser user) w fun _ => [] := by
  unfold Asks Leads Meets setCurrentUser
  cases hc : w.context.setCurrentUser user with
  | error e => trivial
  | ok c =>
      obtain rfl := Context.setCurrentUser_ok hc
      refine Work.Settles.of_added h _ w.dropped rfl rfl ?_
      exact List.forall_mem_singleton.mpr (.inl ⟨rfl, rfl⟩)

end Compile

namespace Session

/-- The joins that are asked for repeat no column and no key. -/
def Op.Keyed : Op → Prop
  | .computed c => c.EveryJoin JoinSpec.Keyed
  | .join spec => spec.Keyed
  | _ => True

theorem Op.run_asks {first : Aliases} (hfirst : first.Unrepeated) {w : Work} (h : w.Settled first)
    {op : Op} (hop : op.Keyed) : Compile.Asks first op.run w id := by
  cases op with
  | bind value => exact Work.Settles.of_binds h (.bind w value)
  | resolverArg name => exact Work.Settles.of_binds h (.resolverArg w name)
  | row => exact Work.Settles.of_joins h _ rfl rfl
  | column name => exact Work.Settles.of_joins h _ rfl rfl
  | named name e => exact Work.Settles.of_joins h _ rfl rfl
  | currentUser user =>
      exact Meets.bind ((Compile.setCurrentUser_asks h user).mono fun _ _ h' => Meets.pure h')
  | computed c =>
      exact Meets.bind ((Compile.computedCalls_asks hfirst h hop).mono fun _ _ h' => Meets.pure h')
  | join spec =>
      exact Meets.bind ((Compile.addJoin_asks hfirst h hop).mono fun _ _ h' => Meets.pure h')

/-- What holds of a context of the session: the joins it was asked for are among those it made. -/
structure Slot.Settled (first aliases : Aliases) (slot : Slot) : Prop where
  context : Work.Settled first ⟨slot.context, aliases, []⟩
  calls : ∀ call ∈ slot.calls, call.1.Keyed ∧ slot.context.Registered call.1 call.2

/-- It still holds when more aliases are drawn. -/
theorem Slot.Settled.mono {first aliases aliases' : Aliases} {slot : Slot}
    (h : slot.Settled first aliases) (hname : aliases'.name = aliases.name)
    (hdrawn : aliases.drawn ≤ aliases'.drawn) : slot.Settled first aliases' := by
  refine ⟨⟨hname.trans h.context.names, Nat.le_trans h.context.drawn hdrawn,
    h.context.label.mono hname hdrawn, h.context.owners, fun j spec hj => ?_, h.context.unique⟩,
    h.calls⟩
  obtain ⟨hkeyed, hpast, hlater⟩ := h.context.made j spec hj
  exact ⟨hkeyed, hpast.mono hname hdrawn, hlater⟩

/-- After a step on the context of a slot. -/
theorem Slot.Settled.after {first aliases : Aliases} {slot : Slot} (h : slot.Settled first aliases)
    {w : Work} {calls : Calls} (hw : Work.Settles first ⟨slot.context, aliases, []⟩ w calls) :
    Slot.Settled first w.aliases ⟨w.context, slot.calls ++ calls⟩ where
  context := ⟨hw.settled.names, hw.settled.drawn, hw.settled.label, hw.settled.owners,
    hw.settled.made, hw.settled.unique⟩
  calls := by
    refine List.forall_mem_append.mpr ⟨fun call hcall => ?_, hw.calls⟩
    obtain ⟨hkeyed, hr⟩ := h.calls call hcall
    exact ⟨hkeyed, hw.registered hr⟩

/-- An alias that was answered does not come again, and it was drawn after that of the context. -/
theorem Slot.Settled.answer {first aliases : Aliases} {slot : Slot} (h : slot.Settled first aliases)
    {label : String} (hlabel : label ∈ slot.answers) :
    aliases.Past label ∧ first.Later slot.context.label label := by
  obtain ⟨call, hcall, rfl⟩ := List.mem_map.mp hlabel
  obtain ⟨-, j, s, hj, -, hl⟩ := h.calls call hcall
  rw [← hl]
  exact (h.context.made j s hj).2

/-- A nested context starts without joins. -/
theorem Slot.Settled.nest {first aliases : Aliases} {slot : Slot} (h : slot.Settled first aliases)
    (table : NamedTable) {label : String} (hlabel : label ∈ slot.answers) :
    Slot.Settled first aliases ⟨slot.context.child table label, []⟩ := by
  have hnone : ∀ j spec, ¬ (slot.context.child table label).Made j spec :=
    fun j spec hj => List.not_mem_nil hj.mem
  refine ⟨⟨h.context.names, h.context.drawn, (h.answer hlabel).1, List.forall_mem_nil _, ?_, ?_⟩,
    List.forall_mem_nil _⟩
  · exact fun j spec hj => absurd hj (hnone j spec)
  · exact fun j s k t hj => absurd hj (hnone j s)

/-- It holds of all contexts of the session. -/
def Settled (first : Aliases) (s : Session) : Prop :=
  ∀ slot ∈ s.slots, slot.Settled first s.aliases

/-- Asking for joins that are keyed. -/
def Action.Keyed : Action → Prop
  | .on _ op => op.Keyed
  | _ => True

section sessions

variable {first : Aliases} {s s' : Session}

/-- The context at `i` is replaced, and aliases may have been drawn for it. -/
theorem Settled.set (h : s.Settled first) {slot : Slot} {i : Nat} {w : Work} {calls : Calls}
    (hslot : s.slots[i]? = some slot) (hw : Work.Settles first (s.work slot.context) w calls) :
    Settled first ⟨s.slots.set i ⟨w.context, slot.calls ++ calls⟩, w.aliases⟩ := by
  have hold := h slot (List.mem_of_getElem? hslot)
  have hname : w.aliases.name = s.aliases.name := hw.settled.names.trans hold.context.names.symm
  intro other hother
  rcases List.mem_or_eq_of_mem_set hother with hmem | rfl
  · exact (h other hmem).mono hname hw.drawn
  · exact hold.after hw

/-- One step keeps it. -/
theorem Settled.step (hfirst : first.Unrepeated) (h : s.Settled first) {a : Action} (ha : a.Keyed)
    (hstep : s.step a = some s') : s'.Settled first := by
  cases a with
  | on i op =>
      obtain ⟨slot, hslot, hrest⟩ := Option.bind_eq_some_iff.mp hstep
      have hsettled := (h slot (List.mem_of_getElem? hslot)).context
      split at hrest
      · rename_i calls w hrun
        cases hrest
        have hasks : Compile.Asks first op.run (s.work slot.context) id :=
          Op.run_asks hfirst hsettled ha
        exact h.set hslot (hasks.of_ok hrun)
      · cases hrest
  | nest i table label =>
      obtain ⟨slot, hslot, hrest⟩ := Option.bind_eq_some_iff.mp hstep
      split at hrest
      · rename_i hlabel
        cases hrest
        refine List.forall_mem_append.mpr ⟨h, List.forall_mem_singleton.mpr ?_⟩
        exact (h slot (List.mem_of_getElem? hslot)).nest table hlabel
      · cases hrest
  | fold i k name =>
      obtain ⟨slot, hslot, hrest⟩ := Option.bind_eq_some_iff.mp hstep
      obtain ⟨child, hchild, hrest⟩ := Option.bind_eq_some_iff.mp hrest
      have hsettled := h slot (List.mem_of_getElem? hslot)
      split at hrest
      · rename_i hlabel
        split at hrest
        · rename_i w hrun
          cases hrest
          obtain rfl := Compile.aggregate_ok hrun
          have hfold := Work.Settles.fold hsettled.context
            (h child (List.mem_of_getElem? hchild)).context (hsettled.answer hlabel).2 name
          have hset := h.set hslot hfold
          rw [List.append_nil] at hset
          exact fun other hother => hset other (List.mem_of_mem_eraseIdx hother)
        · cases hrest
      · cases hrest

/-- So does every run. -/
theorem Settled.run (hfirst : first.Unrepeated) (h : s.Settled first) {actions : List Action}
    (hactions : ∀ a ∈ actions, a.Keyed) (hrun : s.run actions = some s') : s'.Settled first := by
  induction actions generalizing s with
  | nil =>
      cases hrun
      exact h
  | cons a rest ih =>
      obtain ⟨s₁, hstep, hrest⟩ := Option.bind_eq_some_iff.mp hrun
      rw [List.forall_mem_cons] at hactions
      exact ih (h.step hfirst hactions.1 hstep) hactions.2 hrest

theorem settled_start {c : Context} {aliases : Aliases} (hlabel : aliases.Past c.label)
    (hjoins : c.joins = []) : (start c aliases).Settled aliases := by
  have hnone : ∀ j spec, ¬ c.Made j spec := by
    intro j spec hj
    have hmem := hj.mem
    rw [hjoins] at hmem
    cases hmem
  refine List.forall_mem_singleton.mpr ⟨⟨rfl, Nat.le_refl _, hlabel, ?_, ?_, ?_⟩,
    List.forall_mem_nil _⟩
  · rw [hjoins]
    exact List.forall_mem_nil _
  · exact fun j spec hj => absurd hj (hnone j spec)
  · exact fun j s k t hj => absurd hj (hnone j s)

end sessions

/-- **Within a context, equal aliases mean equal joins.**  Start with a context that has no joins
and a sequence of aliases that does not repeat itself and does not contain that of the context.
After any actions, two joins that a context was asked for were answered with the same alias exactly
if they are equal.  If it is asked for a join that is equal to one of them, it answers the same
alias, and nothing changes. -/
theorem answers_equal_iff {c : Context} {aliases : Aliases} (haliases : aliases.Unrepeated)
    (hlabel : aliases.Past c.label) (hjoins : c.joins = []) {actions : List Action}
    (hactions : ∀ a ∈ actions, a.Keyed) {s : Session}
    (hrun : (start c aliases).run actions = some s) :
    ∀ slot ∈ s.slots,
      (∀ x ∈ slot.calls, ∀ y ∈ slot.calls, x.2 = y.2 ↔ x.1.Equal y.1) ∧
      ∀ x ∈ slot.calls, ∀ spec : JoinSpec, spec.Keyed → x.1.Equal spec →
        Compile.addJoin spec (s.work slot.context) = .ok x.2 (s.work slot.context) := by
  intro slot hslot
  have h := (settled_start hlabel hjoins).run haliases hactions hrun slot hslot
  refine ⟨fun x hx y hy => ?_, fun x hx spec hspec hequal => ?_⟩
  · obtain ⟨hxkeyed, hxr⟩ := h.calls x hx
    obtain ⟨hykeyed, hyr⟩ := h.calls y hy
    rw [h.context.label_eq_iff hxkeyed hykeyed hxr hyr]
    exact ⟨JoinSpec.equal_of_same hxkeyed.columns, fun hequal => hequal.same hykeyed.columns⟩
  · obtain ⟨hxkeyed, j, t, hj, ht, hl⟩ := h.calls x hx
    have hxt : x.1.same t = true := (h.context.made j t hj).1.same_symm ht
    have hts : t.same spec = true := hxkeyed.same_of_same hxt (hequal.same hspec.columns)
    exact h.context.addJoin_registered hspec ⟨j, t, hj, hts, hl⟩

end Session

namespace Sample

/-- A person, found by two conditions. -/
def person : JoinSpec :=
  ⟨"Users", .left, [("_id", .column "authorId"), ("kind", .value (.str "person"))]⟩

/-- The same conditions the other way round. -/
def personSwapped : JoinSpec :=
  ⟨"Users", .left, [("kind", .value (.str "person")), ("_id", .column "authorId")]⟩

def namesake : JoinSpec := ⟨"Users", .left, [("_id", .column "title")]⟩

/-- The aliases `a`, `b`, `j1`, `j2` and so on. -/
def letters : Aliases where
  name
    | 0 => "a"
    | 1 => "b"
    | n + 2 => Aliases.sequential.name n
  drawn := 0

theorem sequential_ne {label : String} (h : label.toList.length = 1) (n : Nat) :
    Aliases.sequential.name n ≠ label := by
  intro heq
  rw [← heq, Aliases.toList_sequential, List.length_cons] at h
  exact Nat.toDigits_ne_nil (List.length_eq_zero_iff.mp (Nat.succ.inj h))

theorem unrepeated_letters : letters.Unrepeated := by
  have hlong : ∀ n k, k < 2 → letters.name (n + 2) ≠ letters.name k := by
    intro n k hk
    obtain rfl | rfl : k = 0 ∨ k = 1 := by omega
    · exact sequential_ne rfl n
    · exact sequential_ne rfl n
  intro i k _ _ h
  rcases Nat.lt_or_ge i 2 with hi | hi <;> rcases Nat.lt_or_ge k 2 with hk | hk
  · obtain ⟨rfl | rfl, rfl | rfl⟩ : (i = 0 ∨ i = 1) ∧ (k = 0 ∨ k = 1) := by omega
    · rfl
    · exact absurd h (by decide)
    · exact absurd h (by decide)
    · rfl
  · obtain ⟨k, rfl⟩ := Nat.exists_eq_add_of_le' hk
    exact absurd h.symm (hlong k i hi)
  · obtain ⟨i, rfl⟩ := Nat.exists_eq_add_of_le' hi
    exact absurd h (hlong i k hk)
  · obtain ⟨i, rfl⟩ := Nat.exists_eq_add_of_le' hi
    obtain ⟨k, rfl⟩ := Nat.exists_eq_add_of_le' hk
    rw [(Aliases.clear_sequential "").inj i k h]

/-- A post, under the alias `p`. -/
def postContext : Context := (Context.root ⟨"Users", users⟩ "Users" []).child ⟨"Posts", posts⟩ "p"

theorem past_postContext : letters.Past postContext.label := by
  intro n _
  rcases Nat.lt_or_ge n 2 with hn | hn
  · obtain rfl | rfl : n = 0 ∨ n = 1 := by omega
    · decide
    · decide
  · obtain ⟨n, rfl⟩ := Nat.exists_eq_add_of_le' hn
    exact sequential_ne rfl n

/-- A computed field asks for someone, and then the author of a post is joined, shown with posts of
their own, and joined again. -/
def visit : List Session.Action :=
  [.on 0 (.computed (.isNull (.joinedColumn namesake "_id"))), .on 0 (.join person),
    .nest 0 ⟨"Users", users⟩ "b", .on 1 (.join ⟨"Posts", .left, [("authorId", .column "_id")]⟩),
    .fold 0 1 "author", .on 0 (.join personSwapped)]

theorem run_visit :
    ((Session.start postContext letters).run visit).map (fun s => s.slots.map Session.Slot.calls) =
      some [[(namesake, "a"), (person, "b"), (personSwapped, "b")]] := rfl

theorem keyed_person : person.Keyed :=
  ⟨by decide, List.forall_mem_cons.mpr ⟨trivial, List.forall_mem_singleton.mpr trivial⟩⟩

theorem keyed_visit : ∀ a ∈ visit, a.Keyed := by
  have hswapped : personSwapped.Keyed :=
    ⟨by decide, List.forall_mem_cons.mpr ⟨trivial, List.forall_mem_singleton.mpr trivial⟩⟩
  have hone : ∀ (table column name : String),
      JoinSpec.Keyed ⟨table, .left, [(column, .column name)]⟩ :=
    fun _ _ _ => ⟨List.nodup_singleton _, List.forall_mem_singleton.mpr trivial⟩
  simp only [visit, List.forall_mem_cons]
  exact ⟨hone _ _ _, keyed_person, trivial, hone _ _ _, trivial, hswapped, List.forall_mem_nil _⟩

end Sample

namespace Session

/-- The author is joined once, whichever way round the conditions are asked for, and the join that
came in with the author's posts does not matter. -/
theorem answers_equal_iff_sample :
    ∃ s slot, (start Sample.postContext Sample.letters).run Sample.visit = some s ∧ slot ∈ s.slots ∧
      slot.answers = ["a", "b", "b"] ∧ Sample.person.Equal Sample.personSwapped ∧
      ¬ Sample.namesake.Equal Sample.person ∧
      Compile.addJoin Sample.person (s.work slot.context) = .ok "b" (s.work slot.context) := by
  obtain ⟨s, hrun, hslots⟩ := Option.map_eq_some_iff.mp Sample.run_visit
  obtain ⟨slot, hslot, hcalls⟩ := List.map_eq_singleton_iff.mp hslots
  have hmem : slot ∈ s.slots := hslot ▸ List.mem_singleton_self _
  obtain ⟨hequal, hagain⟩ := answers_equal_iff Sample.unrepeated_letters Sample.past_postContext rfl
    Sample.keyed_visit hrun slot hmem
  have hnamesake : (Sample.namesake, "a") ∈ slot.calls := by simp [hcalls]
  have hperson : (Sample.person, "b") ∈ slot.calls := by simp [hcalls]
  have hswapped : (Sample.personSwapped, "b") ∈ slot.calls := by simp [hcalls]
  refine ⟨s, slot, hrun, hmem, by simp [Slot.answers, hcalls], ?_, fun h => ?_, ?_⟩
  · exact (hequal _ hperson _ hswapped).mp rfl
  · have hlabels : "a" = "b" := (hequal _ hnamesake _ hperson).mpr h
    exact absurd hlabels (by decide)
  · exact hagain _ hperson _ Sample.keyed_person ((hequal _ hperson _ hperson).mp rfl)

end Session

end ShapedQuery
