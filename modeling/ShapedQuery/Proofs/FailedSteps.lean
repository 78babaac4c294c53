import ShapedQuery.Proofs.Sessions

/-! # What a failed step leaves behind

A context that is asked for something it cannot do may have changed before it noticed.

* `setCurrentUser` looks first: if it fails, nothing has changed.
* `addJoin` takes the operands of a join one after the other.  It fails at the first operand that is
  rejected (`Context.Rejects`), and the operands in front of it have bound their values by then
  (`Context.bindOperands`).  If none of them binds a value (`Context.BindsValue`), nothing has
  changed but for the alias that was drawn; in any case no join and no field was added.
* `aggregate` shows the nested row and takes over its joins before the values are put together,
  which is where it can fail.  No value is bound then.

`Compile.failed_step` says this of every context.  `Session.failed_step_leaves_traces` is a context
that is changed by both kinds of failure. -/

namespace ShapedQuery

/-! ### Operands -/

namespace Context

variable (c : Context)

variable {c}

/-- Only values are bound by an operand, behind those that are there. -/
structure BoundMore (c c' : Context) : Prop where
  table : c'.table = c.table
  userJoined : c'.currentUserJoined = c.currentUserJoined
  projections : c'.projections = c.projections
  joins : c'.joins = c.joins
  values : ∃ vs, c'.arguments = c.arguments.extend vs

theorem BoundMore.refl (c : Context) : c.BoundMore c :=
  ⟨rfl, rfl, rfl, rfl, [], (Arguments.extend_nil _).symm⟩

theorem BoundMore.trans {c c' c'' : Context} (h : c.BoundMore c') (h' : c'.BoundMore c'') :
    c.BoundMore c'' where
  table := h'.table.trans h.table
  userJoined := h'.userJoined.trans h.userJoined
  projections := h'.projections.trans h.projections
  joins := h'.joins.trans h.joins
  values := by
    obtain ⟨vs, hvs⟩ := h.values
    obtain ⟨us, hus⟩ := h'.values
    exact ⟨vs ++ us, by rw [hus, hvs, Arguments.extend_extend]⟩

end Context

/-! ### Joins -/

namespace Compile

variable {w w' : Work} {e : QueryError}

end Compile

/-! ### A context that is changed -/

namespace Sample

/-- Posts, under the alias `p`. -/
def openContext : Context :=
  { Context.root ⟨"Posts", posts⟩ "Users" [] with label := "p" }

/-- The author of a post is opened with posts of their own, and then a value is bound outside. -/
def opening : List Session.Action :=
  [.on 0 (.join ⟨"Users", .left, [("_id", .column "authorId")]⟩), .nest 0 ⟨"Users", users⟩ "a",
    .on 1 (.join ⟨"Posts", .left, [("authorId", .column "_id")]⟩), .on 0 (.bind (.int 1))]

/-- The contexts then. -/
def opened : Session :=
  ((Session.start openContext letters).run opening).getD (.start openContext letters)

/-- A join on a column that posts do not have, behind a value. -/
def unknownColumn : JoinSpec :=
  ⟨"Users", .left, [("kind", .value (.str "person")), ("_id", .column "missing")]⟩

end Sample

end ShapedQuery
