import ShapedQuery.Query.Context

/-! # What a step leads to

`Meets x s E Q` says of a step `x` that starts from the state `s`: if it succeeds, `Q` holds of its
result and of the state it leaves, and if it fails, `E` holds of the error.  It is the weakest
condition of that kind, so a sequence of steps is taken apart from the front (`Meets.bind`), and
what is known at one point is carried to the next.  `Gives x E P` is the case where neither the
first state nor the last matters. -/

namespace ShapedQuery

section meets

variable {ε σ α β : Type}

/-- From the state `s`, the step ends with `Q` or fails with `E`. -/
def Meets (x : EStateM ε σ α) (s : σ) (E : ε → Prop) (Q : α → σ → Prop) : Prop :=
  match x s with
  | .ok a s' => Q a s'
  | .error e _ => E e

variable {x : EStateM ε σ α} {s : σ} {E : ε → Prop} {Q R : α → σ → Prop}

theorem Meets.of_ok {a : α} {s' : σ} (h : Meets x s E Q) (hx : x s = .ok a s') : Q a s' := by
  unfold Meets at h
  rwa [hx] at h

theorem Meets.of_error {e : ε} {s' : σ} (h : Meets x s E Q) (hx : x s = .error e s') : E e := by
  unfold Meets at h
  rwa [hx] at h

theorem Meets.pure {a : α} (h : Q a s) : Meets (Pure.pure a) s E Q := h

theorem Meets.throw {e : ε} (h : E e) : Meets (MonadExcept.throw e) s E Q := h

theorem Meets.mono (h : Meets x s E Q) (hQ : ∀ a s', Q a s' → R a s') : Meets x s E R := by
  unfold Meets at h ⊢
  split
  · rename_i hx
    rw [hx] at h
    exact hQ _ _ h
  · rename_i hx
    rwa [hx] at h

/-- What is known of a result, and that it did come about. -/
theorem Meets.with_ok (h : Meets x s E Q) : Meets x s E fun a s' => Q a s' ∧ x s = .ok a s' := by
  unfold Meets at h ⊢
  split
  · rename_i hx
    rw [hx] at h
    exact ⟨h, hx⟩
  · rename_i hx
    rwa [hx] at h

/-- What is known of an error, and that it did come about. -/
theorem Meets.with_error {E' : ε → Prop} (h : Meets x s E Q)
    (hE : ∀ e s', E e → x s = .error e s' → E' e) : Meets x s E' Q := by
  unfold Meets at h ⊢
  split
  · rename_i hx
    rwa [hx] at h
  · rename_i hx
    rw [hx] at h
    exact hE _ _ h hx

/-- Two steps one after the other. -/
theorem Meets.bind {k : α → EStateM ε σ β} {Q : β → σ → Prop}
    (h : Meets x s E fun a s' => Meets (k a) s' E Q) : Meets (x >>= k) s E Q := by
  unfold Meets at h
  show Meets (EStateM.bind x k) s E Q
  unfold Meets EStateM.bind
  split at h
  · rename_i hx
    rw [hx]
    exact h
  · rename_i hx
    rw [hx]
    exact h

/-- Look at the state. -/
theorem Meets.get {k : σ → EStateM ε σ α} (h : Meets (k s) s E Q) :
    Meets (MonadState.get >>= k) s E Q := h

theorem Meets.ite {p : Prop} [Decidable p] {y : EStateM ε σ α} (h : p → Meets x s E Q)
    (h' : ¬ p → Meets y s E Q) : Meets (if p then x else y) s E Q := by
  split
  · exact h ‹_›
  · exact h' ‹_›

/-- Whatever state it starts from, the step gives a result with `P` or fails with `E`. -/
def Gives (x : EStateM ε σ α) (E : ε → Prop) (P : α → Prop) : Prop :=
  ∀ s, Meets x s E fun a _ => P a

variable {P : α → Prop}

theorem Gives.pure {a : α} (h : P a) : Gives (Pure.pure a : EStateM ε σ α) E P := fun _ => h

theorem Gives.throw {e : ε} (h : E e) : Gives (MonadExcept.throw e : EStateM ε σ α) E P :=
  fun _ => h

theorem Gives.bind {k : α → EStateM ε σ β} {P' : β → Prop} (h : Gives x E P)
    (hk : ∀ a, P a → Gives (k a) E P') : Gives (x >>= k) E P' :=
  fun s => Meets.bind ((h s).mono fun a s' ha => hk a ha s')

theorem Gives.ite {p : Prop} [Decidable p] {y : EStateM ε σ α} (h : Gives x E P)
    (h' : Gives y E P) : Gives (if p then x else y) E P :=
  fun s => Meets.ite (fun _ => h s) fun _ => h' s

end meets

namespace Compile

variable {α β : Type} {w : Work} {E : QueryError → Prop}

theorem meets_onContext {f : Context → α × Context} {Q : α → Work → Prop}
    (h : Q (f w.context).1 { w with context := (f w.context).2 }) : Meets (onContext f) w E Q := h

theorem meets_modifyContext {f : Context → Context} {Q : Unit → Work → Prop}
    (h : Q () { w with context := f w.context }) : Meets (modifyContext f) w E Q := h

theorem meets_onArguments {x : EStateM QueryError Arguments α} {Q : α → Work → Prop}
    (h : Meets x w.context.arguments E fun a args =>
      Q a { w with context := { w.context with arguments := args } }) :
    Meets (onArguments x) w E Q := by
  unfold Meets at h
  unfold Meets onArguments
  cases hx : x w.context.arguments with
  | ok a args =>
      rw [hx] at h
      exact h
  | error e args =>
      rw [hx] at h
      exact h

/-- Something is looked up. -/
theorem meets_ofExcept {r : Except QueryError α} {Q : α → Work → Prop}
    (hok : ∀ a, r = .ok a → Q a w) (herror : ∀ e, r = .error e → E e) :
    Meets (ofExcept r) w E Q := by
  cases r with
  | ok a => exact hok a rfl
  | error e => exact herror e rfl

/-- Something is looked up and used. -/
theorem meets_lookup {r : Except QueryError α} {k : α → Compile β} {Q : β → Work → Prop}
    (hok : ∀ a, r = .ok a → Meets (k a) w E Q) (herror : ∀ e, r = .error e → E e) :
    Meets (ofExcept r >>= k) w E Q :=
  Meets.bind (meets_ofExcept hok herror)

end Compile

end ShapedQuery
