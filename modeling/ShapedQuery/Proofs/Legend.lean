import ShapedQuery.Proofs.Projecting

/-! # What is written for a field

A field of the metadata refers to arguments of the request, to tables that are joined and to related
rows.  A `Legend` says what stands for each of these in a statement.  Under a legend,
`Computed.Written` says which expressions may be written for a computed field, `Join.MadeFor` what
a join looks like, and `Output.Written` what is shown of a row and of the rows related to it.

None of this knows the compiler.  What is written under a legend is also written under one that
admits more (`Output.Written.mono`). -/

namespace ShapedQuery

/-- What stands for the things that fields refer to. -/
structure Legend where
  /-- What is written for an argument of the request. -/
  argument : String → Expr Placeholder → Prop
  /-- The alias of a join that was made from the row under another alias. -/
  joined : String → JoinSpec → String → Prop
  /-- What is written for the row under an alias, of which something is shown. -/
  row : String → Output → Expr Placeholder → Prop

/-- What the first legend admits, the second does. -/
structure Legend.Within (L L' : Legend) : Prop where
  argument : ∀ {name e}, L.argument name e → L'.argument name e
  joined : ∀ {owner spec label}, L.joined owner spec label → L'.joined owner spec label
  row : ∀ {label o e}, L.row label o e → L'.row label o e

/-! ### Joins -/

/-- What a column of a joined table is compared with, from the row under `owner`. -/
def JoinOperand.Written (argument : String → Expr Placeholder → Prop) (owner : String) :
    JoinOperand → Expr Placeholder → Prop
  | .column name, e => e = .columnOf owner name
  | .currentUserColumn name, e => e = .columnOf currentUserAlias name
  | .resolverArg name, e => argument name e
  | .value j, e => ∃ p : Placeholder, p.value = .ofJson j ∧ e = .bound p

/-- A condition of a join under `label`. -/
def JoinOperand.Compared (argument : String → Expr Placeholder → Prop) (owner label : String)
    (entry : String × JoinOperand) (e : Expr Placeholder) : Prop :=
  ∃ x, entry.2.Written argument owner x ∧ e = .binary (.columnOf label entry.1) .eq x

/-- The join is written as one that was made for `spec`, from the row under `owner`. -/
def Join.MadeFor (argument : String → Expr Placeholder → Prop) (owner : String) (spec : JoinSpec)
    (j : Join Placeholder) : Prop :=
  ∃ on, List.Forall₂ (JoinOperand.Compared argument owner j.label) spec.on on ∧
    j.map Placeholder.index = Join.map Placeholder.index ⟨spec.kind, spec.table, j.label, on⟩

section joins

variable {A B : String → Expr Placeholder → Prop} {owner : String}

theorem JoinOperand.Written.mono (hAB : ∀ name e, A name e → B name e) {o : JoinOperand}
    {e : Expr Placeholder} (h : o.Written A owner e) : o.Written B owner e := by
  cases o with
  | resolverArg name => exact hAB name e h
  | column name => exact h
  | currentUserColumn name => exact h
  | value j => exact h

theorem Join.MadeFor.mono (hAB : ∀ name e, A name e → B name e) {spec : JoinSpec}
    {j : Join Placeholder} (h : j.MadeFor A owner spec) : j.MadeFor B owner spec := by
  obtain ⟨on, hon, hj⟩ := h
  refine ⟨on, hon.imp ?_, hj⟩
  rintro entry e ⟨x, hx, he⟩
  exact ⟨x, hx.mono hAB, he⟩

/-- It does not matter which of two joins that are written alike is looked at. -/
theorem Join.MadeFor.congr {spec : JoinSpec} {j k : Join Placeholder}
    (h : j.MadeFor A owner spec) (hk : k.map Placeholder.index = j.map Placeholder.index) :
    k.MadeFor A owner spec := by
  have hlabel : k.label = j.label := congrArg (fun i : Join Nat => i.label) hk
  obtain ⟨on, hon, hj⟩ := h
  refine ⟨on, ?_, ?_⟩
  · rw [hlabel]
    exact hon
  · rw [hk, hj, hlabel]

/-- Among the joins there is one under the alias that was made for `spec`, or for one that is the
same, and that meets `S`. -/
def JoinedBy (S : JoinSpec → Prop) (argument : String → Expr Placeholder → Prop)
    (joins : List (Join Placeholder)) (owner : String) (spec : JoinSpec) (label : String) : Prop :=
  ∃ j ∈ joins, j.label = label ∧
    ∃ s, S s ∧ (s = spec ∨ s.same spec = true) ∧ j.MadeFor argument owner s

/-- The legend of a statement with these joins.  A related row is an object, or null if its key
is; if the object starts from a row, it is that one. -/
def Legend.of (S : JoinSpec → Prop) (argument : String → Expr Placeholder → Prop)
    (joins : List (Join Placeholder)) : Legend where
  argument := argument
  joined := JoinedBy S argument joins
  row label o e :=
    (∀ l, o.row = some l → l = label) ∧ e = .relatedRow label primaryKey o.row o.entries

/-- More arguments, and joins that are written like those there were. -/
theorem Legend.of_within {S T : JoinSpec → Prop} (hST : ∀ s, S s → T s)
    (hAB : ∀ name e, A name e → B name e) {joins joins' : List (Join Placeholder)}
    (hjoins : ∀ j ∈ joins, ∃ k ∈ joins', k.map Placeholder.index = j.map Placeholder.index) :
    (Legend.of S A joins).Within (Legend.of T B joins') where
  argument := hAB _ _
  joined := by
    rintro owner spec label ⟨j, hj, rfl, s, hs, hspec, hmade⟩
    obtain ⟨k, hk, hsame⟩ := hjoins j hj
    have hlabel : k.label = j.label := congrArg (fun i : Join Nat => i.label) hsame
    exact ⟨k, hk, hlabel, s, hST s hs, hspec, (hmade.congr hsame).mono hAB⟩
  row := id

end joins

/-! ### Computed fields -/

mutual

/-- What is written for a computed field of the row under `owner`. -/
def Computed.Written (L : Legend) (owner : String) : Computed → Expr Placeholder → Prop
  | .column name, e => (JoinOperand.column name).Written L.argument owner e
  | .currentUserColumn name, e => (JoinOperand.currentUserColumn name).Written L.argument owner e
  | .resolverArg name, e => (JoinOperand.resolverArg name).Written L.argument owner e
  | .value j, e => (JoinOperand.value j).Written L.argument owner e
  | .joinedColumn join name, e => ∃ label, L.joined owner join label ∧ e = .columnOf label name
  | .joinedRow join, e => ∃ label, L.joined owner join label ∧ L.row label ⟨some label, []⟩ e
  | .call name arguments, e => ∃ f es, Function.ofName name = .ok f ∧
      WrittenAll L owner arguments es ∧ e = .call f es
  | .binary left operator right, e => ∃ l r, left.Written L owner l ∧ right.Written L owner r ∧
      e = .binary l operator.op r
  | .isNull c, e => ∃ a, c.Written L owner a ∧ e = .test a .null

def Computed.WrittenAll (L : Legend) (owner : String) :
    List Computed → List (Expr Placeholder) → Prop
  | [], es => es = []
  | c :: cs, es => ∃ a as, c.Written L owner a ∧ WrittenAll L owner cs as ∧ es = a :: as

end

mutual

theorem Computed.Written.mono {L L' : Legend} (hL : L.Within L') {owner : String} :
    ∀ {c : Computed} {e : Expr Placeholder}, c.Written L owner e → c.Written L' owner e
  | .column _, _, h => h
  | .currentUserColumn _, _, h => h
  | .resolverArg _, _, h => hL.argument h
  | .value _, _, h => h
  | .joinedColumn _ _, _, ⟨label, hj, he⟩ => ⟨label, hL.joined hj, he⟩
  | .joinedRow _, _, ⟨label, hj, he⟩ => ⟨label, hL.joined hj, hL.row he⟩
  | .call _ _, _, ⟨f, es, hf, hes, he⟩ => ⟨f, es, hf, WrittenAll.mono hL hes, he⟩
  | .binary _ _ _, _, ⟨l, r, hl, hr, he⟩ => ⟨l, r, Written.mono hL hl, Written.mono hL hr, he⟩
  | .isNull _, _, ⟨a, ha, he⟩ => ⟨a, Written.mono hL ha, he⟩

theorem Computed.WrittenAll.mono {L L' : Legend} (hL : L.Within L') {owner : String} :
    ∀ {cs : List Computed} {es : List (Expr Placeholder)}, WrittenAll L owner cs es →
      WrittenAll L' owner cs es
  | [], _, h => h
  | _ :: _, _, ⟨a, as, ha, has, he⟩ => ⟨a, as, Written.mono hL ha, WrittenAll.mono hL has, he⟩

end

/-! ### What is shown of a row -/

/-- The columns that come first: none if the whole row is shown, else the key, and if nothing
else is asked for the other columns that the user may read. -/
def Demand.first (env : Env) (t : Table) (d : Demand) : List String :=
  if Compile.readsWholeRow env t then []
  else primaryKey :: match d with
    | .columns => (Compile.readableColumns env t).filter fun name => name != primaryKey
    | .fields _ _ => []

def Demand.selections : Demand → List Selection
  | .columns => []
  | .fields _ selections => selections

section shown

variable (env : Env) (L : Legend)

/-- The entries that show a field which may be read; `below` says what is shown of a related
row. -/
def FieldKind.Written (below : Demand → String → String → Output → Prop) (t : Table)
    (owner : String) (s : Selection) (es : List (String × Expr Placeholder)) : FieldKind → Prop
  | .column _ => es =
      if !Compile.readsWholeRow env t && s.name != primaryKey then
        [(s.name, .columnOf owner s.name)]
      else []
  | .computed c => ∃ e, c.Written L owner e ∧ es = [(s.name, e)]
  | .relation join => ∃ label o e, L.joined owner join label ∧ L.row label o e ∧
      below (s.demand env.metadata) join.table label o ∧ es = [(s.name, e)]

/-- The entries that show a selection: none if the user may not read the field. -/
def Selection.Written (below : Demand → String → String → Output → Prop) (t : Table)
    (owner : String) (s : Selection) (es : List (String × Expr Placeholder)) : Prop :=
  ∃ field, t.fields.get? s.name = some field ∧
    if canRead env.user field.rules then field.kind.Written env L below t owner s es else es = []

/-- The entries that show some selections, in order. -/
def Selection.WrittenAll (below : Demand → String → String → Output → Prop) (t : Table)
    (owner : String) : List Selection → List (String × Expr Placeholder) → Prop
  | [], es => es = []
  | s :: rest, es => ∃ first more, s.Written env L below t owner first ∧
      WrittenAll below t owner rest more ∧ es = first ++ more

/-- What is shown of the row under an alias, and of the rows related to it down to a depth. -/
def Output.Written : Nat → Demand → String → String → Output → Prop
  | 0, _, _, _, _ => False
  | depth + 1, d, table, owner, o =>
    ∃ t es, env.metadata.tables.get? table = some t ∧
      o.row = (if Compile.readsWholeRow env t then some owner else none) ∧
      Selection.WrittenAll env L (Written depth) t owner d.selections es ∧
      o.entries = Compile.columnEntries owner (d.first env t) ++ es

end shown

section mono

variable {env : Env} {L L' : Legend} {below below' : Demand → String → String → Output → Prop}
  {t : Table} {owner : String} {es : List (String × Expr Placeholder)}

theorem Selection.Written.mono (hL : L.Within L')
    (hbelow : ∀ d n l o, below d n l o → below' d n l o) {s : Selection}
    (h : s.Written env L below t owner es) : s.Written env L' below' t owner es := by
  obtain ⟨⟨kind, rules⟩, hfield, hes⟩ := h
  refine ⟨⟨kind, rules⟩, hfield, ?_⟩
  dsimp only at hes ⊢
  split at hes
  · rw [if_pos ‹_›]
    cases kind with
    | column c => exact hes
    | computed c =>
        obtain ⟨e, he, hes⟩ := hes
        exact ⟨e, he.mono hL, hes⟩
    | relation join =>
        obtain ⟨label, o, e, hjoined, hrow, ho, hes⟩ := hes
        exact ⟨label, o, e, hL.joined hjoined, hL.row hrow, hbelow _ _ _ _ ho, hes⟩
  · rw [if_neg ‹_›]
    exact hes

theorem Selection.WrittenAll.mono (hL : L.Within L')
    (hbelow : ∀ d n l o, below d n l o → below' d n l o) {ss : List Selection}
    (h : WrittenAll env L below t owner ss es) : WrittenAll env L' below' t owner ss es := by
  induction ss generalizing es with
  | nil => exact h
  | cons s rest ih =>
      obtain ⟨first, more, hfirst, hmore, hes⟩ := h
      exact ⟨first, more, hfirst.mono hL hbelow, ih hmore, hes⟩

/-- A legend that admits more, down to any depth. -/
theorem Output.Written.mono (hL : L.Within L') {depth : Nat} {d : Demand} {table : String}
    {o : Output} (h : Output.Written env L depth d table owner o) :
    Output.Written env L' depth d table owner o := by
  induction depth generalizing d table owner o with
  | zero => exact h
  | succ depth ih =>
      obtain ⟨t, es, ht, hrow, hes, hentries⟩ := h
      exact ⟨t, es, ht, hrow, hes.mono hL fun _ _ _ _ => ih, hentries⟩

/-- If anything starts from a whole row, it is the one that is shown. -/
theorem Output.Written.row_eq {depth : Nat} {d : Demand} {table : String} {o : Output}
    (h : Output.Written env L depth d table owner o) (l : String) (hl : o.row = some l) :
    l = owner := by
  cases depth with
  | zero => exact h.elim
  | succ depth =>
      obtain ⟨t, es, -, hrow, -⟩ := h
      rw [hrow] at hl
      split at hl
      · exact (Option.some.inj hl).symm
      · cases hl

end mono

end ShapedQuery
