import ShapedQuery.Proofs.Meaning

/-! # Comments in a filter

`uncommented` deletes the comments of a filter: at the top, in the filters under `$and` and `$or`,
and in the objects that stand for such filters.  What remains is accepted wherever the filter was,
binds the same values, and says no less.  It says the same if no `$or` takes an object with a
comment (`Target.filter_uncommented`).

An object under `$or` is a list of filters with one entry each.  A comment in it is a filter that
says nothing, so that it holds, and the whole `$or` with it (`Target.truth_or_of_comment`).

The truth before and after is compared by a relation that "and" and "or" keep (`Truth.Kept`), and
the induction is done once for all of them.  Equality is one; the order of truths is another. -/

namespace ShapedQuery

/-! ### Filters without their comments -/

mutual

/-- The value of an entry without the comments of the filters in it. -/
def uncommentedValue (key : String) (v : Json) : Json :=
  if key = "$and" ∨ key = "$or" then
    match v with
    | .arr items => .arr (uncommentedItems items)
    | .obj es => .obj (uncommented es)
    | _ => v
  else v

def uncommentedItems : List Json → List Json
  | [] => []
  | v :: rest =>
    (match v with
      | .obj es => .obj (uncommented es)
      | _ => v) :: uncommentedItems rest

/-- A filter without its comments. -/
def uncommented : List (String × Json) → List (String × Json)
  | [] => []
  | (key, v) :: rest =>
    if key = "$comment" then uncommented rest
    else (key, uncommentedValue key v) :: uncommented rest

end

theorem uncommentedValue_of_scalar {v : Json} (h : v.isContainer = false) (key : String) :
    uncommentedValue key v = v := by
  cases v with
  | arr items => cases h
  | obj es => cases h
  | _ => simp [uncommentedValue]

/-- Is there a comment among the entries themselves? -/
def hasComment (es : List (String × Json)) : Bool := es.any (·.1 == "$comment")

mutual

/-- Does no `$or` in an entry take an object with a comment? -/
def entryOrsClear (key : String) (v : Json) : Bool :=
  if key = "$and" ∨ key = "$or" then
    match v with
    | .arr items => itemsOrsClear items
    | .obj es => (key == "$and" || !hasComment es) && orsClear es
    | _ => true
  else true

def itemsOrsClear : List Json → Bool
  | [] => true
  | v :: rest =>
    (match v with
      | .obj es => orsClear es
      | _ => true) && itemsOrsClear rest

/-- Does no `$or` in a filter take an object with a comment? -/
def orsClear : List (String × Json) → Bool
  | [] => true
  | (key, v) :: rest => entryOrsClear key v && orsClear rest

end

theorem hasComment_cons (k : String × Json) (es : List (String × Json)) :
    hasComment (k :: es) = (k.1 == "$comment" || hasComment es) := rfl

/-! ### Relations between truths -/

/-- A relation that is kept when truths are joined. -/
structure Truth.Kept (rel : Truth → Truth → Prop) : Prop where
  refl (a : Truth) : rel a a
  and {a b c d : Truth} : rel a b → rel c d → rel (a.and c) (b.and d)
  or {a b c d : Truth} : rel a b → rel c d → rel (a.or c) (b.or d)

theorem Truth.kept_eq : Truth.Kept Eq where
  refl _ := rfl
  and hab hcd := by rw [hab, hcd]
  or hab hcd := by rw [hab, hcd]

theorem Truth.kept_le : Truth.Kept (· ≤ ·) where
  refl := Truth.le_refl
  and := Truth.and_le_and
  or := Truth.or_le_or

/-- The truth of conditions, taken together, against that of others. -/
def Compared (rel : Truth → Truth → Prop) (join : List Truth → Truth)
    (cs fs : List (Expr Placeholder)) : Prop :=
  ∀ v, rel (join (fs.map (Expr.truth v))) (join (cs.map (Expr.truth v)))

/-- A way to join truths, one after the other. -/
structure Truth.Joins (rel : Truth → Truth → Prop) (join : List Truth → Truth) : Prop where
  nil : rel (join []) (join [])
  cons {a b : Truth} {as bs : List Truth} : rel a b → rel (join as) (join bs) →
    rel (join (a :: as)) (join (b :: bs))

/-- How a connective joins its filters. -/
def joinOf (key : String) : List Truth → Truth := if key = "$and" then .all else .any

section kept

variable {rel : Truth → Truth → Prop} (hrel : Truth.Kept rel)
include hrel

theorem Truth.Kept.all : Truth.Joins rel Truth.all where
  nil := hrel.refl _
  cons := hrel.and

theorem Truth.Kept.any : Truth.Joins rel Truth.any where
  nil := hrel.refl _
  cons := hrel.or

theorem Truth.Kept.joinOf (key : String) : Truth.Joins rel (joinOf key) := by
  unfold ShapedQuery.joinOf
  split
  · exact hrel.all
  · exact hrel.any

end kept

namespace Target

/-! ### Entries -/

section entries

variable {t : Target} {rel : Truth → Truth → Prop} (hrel : Truth.Kept rel)

/-- What an entry says without its comments.  Either nothing is above what holds, or there is no
`$or` that a comment makes true. -/
def EntryKeeps (rel : Truth → Truth → Prop) (t : Target) (v : Json) : Prop :=
  ∀ key, key ≠ "$comment" → (∀ a, rel a .yes) ∨ entryOrsClear key v = true →
    Tracks (fun e e' => Compared rel Truth.all e.toList e'.toList)
      (t.entry key v) (t.entry key (uncommentedValue key v))

theorem entry_comment (v : Json) : t.entry "$comment" v = pure none := by
  rw [entry_eq]
  rfl

include hrel in
theorem entries_keeps_of {es : List (String × Json)} (h : ∀ k ∈ es, EntryKeeps rel t k.2)
    (hclear : (∀ a, rel a .yes) ∨ orsClear es = true) :
    Tracks (Compared rel Truth.all) (t.entries es) (t.entries (uncommented es)) := by
  induction es with
  | nil =>
      unfold uncommented
      exact .pure fun v => hrel.refl _
  | cons k es ih =>
      rw [List.forall_mem_cons] at h
      rw [orsClear, Bool.and_eq_true] at hclear
      have hrest := ih h.2 (hclear.imp_right And.right)
      unfold uncommented
      split
      · rename_i hkey
        have hcons : t.entries (k :: es) = t.entries es := by
          rw [entries, hkey, entry_comment]
          simp
        rw [hcons]
        exact hrest
      · rename_i hkey
        rw [entries, entries]
        refine (h.1 k.1 hkey (hclear.imp_right And.left)).bind fun e e' he => ?_
        refine hrest.map (e.toList ++ ·) (e'.toList ++ ·) fun cs fs hcs v => ?_
        rw [List.map_append, List.map_append, Truth.all_append, Truth.all_append]
        exact hrel.and (he v) (hcs v)

include hrel in
theorem filter_keeps_of {es : List (String × Json)} (h : ∀ k ∈ es, EntryKeeps rel t k.2)
    (hclear : (∀ a, rel a .yes) ∨ orsClear es = true) :
    Tracks (fun e e' => ∀ v, rel (e'.truth v) (e.truth v))
      (t.filter es) (t.filter (uncommented es)) := by
  unfold filter
  refine (entries_keeps_of hrel h hclear).map Expr.allOf Expr.allOf fun cs fs hcs v => ?_
  rw [Expr.truth_allOf, Expr.truth_allOf]
  exact hcs v

/-! The filters of a connective are joined by `join`, which is "all" or "any". -/

variable {join : List Truth → Truth} (hjoin : Truth.Joins rel join)
include hjoin

include hrel in
theorem filters_keeps_of (connective : String) {items : List Json}
    (h : ∀ j ∈ items, ∀ es, j = .obj es → ∀ k ∈ es, EntryKeeps rel t k.2)
    (hclear : (∀ a, rel a .yes) ∨ itemsOrsClear items = true) :
    Tracks (Compared rel join) (t.filters connective items)
      (t.filters connective (uncommentedItems items)) := by
  induction items with
  | nil =>
      unfold uncommentedItems
      exact .pure fun v => hjoin.nil
  | cons j items ih =>
      rw [List.forall_mem_cons] at h
      by_cases hj : ∃ es, j = .obj es
      · obtain ⟨es, rfl⟩ := hj
        rw [itemsOrsClear, Bool.and_eq_true] at hclear
        unfold uncommentedItems
        rw [filters_cons_obj, filters_cons_obj]
        refine (filter_keeps_of hrel (h.1 es rfl) (hclear.imp_right And.left)).bind
          fun e e' he => ?_
        have hrest := ih h.2 (hclear.imp_right And.right)
        exact hrest.map (e :: ·) (e' :: ·) fun cs fs hcs v => hjoin.cons (he v) (hcs v)
      · obtain ⟨e, he⟩ := t.filters_cons_throw connective items (not_exists.mp hj)
        rw [he]
        exact .throw _ _

/-- Entries as filters of their own.  The filter of a comment always holds, so `join` has to keep
the relation when it is dropped. -/
theorem singles_keeps_of {es : List (String × Json)} (h : ∀ k ∈ es, EntryKeeps rel t k.2)
    (hclear : (∀ a, rel a .yes) ∨ orsClear es = true)
    (hdrop : hasComment es = true → ∀ as bs, rel (join as) (join bs) →
      rel (join as) (join (.yes :: bs))) :
    Tracks (Compared rel join) (t.singles es) (t.singles (uncommented es)) := by
  induction es with
  | nil =>
      unfold uncommented
      exact .pure fun v => hjoin.nil
  | cons k es ih =>
      rw [List.forall_mem_cons] at h
      rw [orsClear, Bool.and_eq_true] at hclear
      rw [hasComment_cons, Bool.or_eq_true] at hdrop
      have hrest := ih h.2 (hclear.imp_right And.right) fun hes => hdrop (.inr hes)
      unfold uncommented
      split
      · rename_i hkey
        rw [singles, hkey, entry_comment, pure_bind, ← bind_pure (t.singles (uncommented es))]
        refine hrest.map (Expr.allOf [] :: ·) id fun cs fs hcs v => ?_
        exact hdrop (.inl (beq_iff_eq.mpr hkey)) _ _ (hcs v)
      · rename_i hkey
        rw [singles, singles]
        refine (h.1 k.1 hkey (hclear.imp_right And.left)).bind fun e e' he => ?_
        refine hrest.map (Expr.allOf e.toList :: ·) (Expr.allOf e'.toList :: ·)
          fun cs fs hcs v => hjoin.cons ?_ (hcs v)
        rw [Expr.truth_allOf, Expr.truth_allOf]
        exact he v

omit hjoin

/-- A filter that holds can be dropped under `$and`.  Under `$or`, all holds where it stands. -/
theorem drop_yes {key : String} {es : List (String × Json)}
    (hclear : (∀ a, rel a .yes) ∨ (key == "$and" || !hasComment es) = true)
    (hes : hasComment es = true) (as bs : List Truth)
    (h : rel (joinOf key as) (joinOf key bs)) :
    rel (joinOf key as) (joinOf key (.yes :: bs)) := by
  by_cases hand : key = "$and"
  · rw [joinOf, if_pos hand] at h ⊢
    rwa [Truth.all, Truth.yes_and]
  · rcases hclear with habove | hclear
    · rw [joinOf, if_neg hand, Truth.any, Truth.yes_or]
      exact habove _
    · simp [hand, hes] at hclear

/-- A connective, given what its filters say without their comments. -/
theorem entry_keeps_of {key : String} {v v' : Json} (hkey : key = "$and" ∨ key = "$or")
    (h : Tracks (Compared rel (joinOf key)) (t.operands key v) (t.operands key v')) :
    Tracks (fun e e' => Compared rel Truth.all e.toList e'.toList)
      (t.entry key v) (t.entry key v') := by
  have htruth (fs : List (Expr Placeholder)) (w : Expr Placeholder → Truth) :
      Expr.truth w (if key = "$and" then .allOf fs else .anyOf fs) =
        joinOf key (fs.map (Expr.truth w)) := by
    unfold joinOf
    split
    · exact Expr.truth_allOf w fs
    · exact Expr.truth_anyOf w fs
  rw [entry_eq, entry_eq, if_pos hkey, if_pos hkey]
  refine h.map _ _ fun cs fs hcs w => ?_
  rw [Option.toList_some, Option.toList_some, List.map_singleton, List.map_singleton,
    Truth.all_singleton, Truth.all_singleton, htruth, htruth]
  exact hcs w

include hrel

/-- An entry that is no connective has no filters in it. -/
theorem entry_keeps_self {key : String} {v : Json} (hv : uncommentedValue key v = v) :
    Tracks (fun e e' => Compared rel Truth.all e.toList e'.toList)
      (t.entry key v) (t.entry key (uncommentedValue key v)) := by
  rw [hv]
  exact fun args e args' he => ⟨e, he, fun w => hrel.refl _⟩

/-- What an entry says without its comments, by induction over its value: a connective takes an
array of objects, or an object, whose entries are entries again. -/
theorem entry_keeps (v : Json) : EntryKeeps rel t v := by
  induction v using Json.filter_induct with
  | scalar v hv => exact fun key _ _ => entry_keeps_self hrel (uncommentedValue_of_scalar hv key)
  | arr items ih =>
      intro key _ hclear
      by_cases hkey : key = "$and" ∨ key = "$or"
      · unfold entryOrsClear at hclear
        unfold uncommentedValue
        rw [if_pos hkey] at hclear ⊢
        exact entry_keeps_of hkey (filters_keeps_of hrel (hrel.joinOf key) key ih hclear)
      · exact entry_keeps_self hrel (by unfold uncommentedValue; rw [if_neg hkey])
  | obj es ih =>
      intro key _ hclear
      by_cases hkey : key = "$and" ∨ key = "$or"
      · unfold entryOrsClear at hclear
        unfold uncommentedValue
        rw [if_pos hkey] at hclear ⊢
        rw [Bool.and_eq_true] at hclear
        refine entry_keeps_of hkey
          (singles_keeps_of (hrel.joinOf key) ih (hclear.imp_right And.right) ?_)
        exact drop_yes (hclear.imp_right And.left)
      · exact entry_keeps_self hrel (by unfold uncommentedValue; rw [if_neg hkey])

theorem filter_keeps {es : Entries Json} (hclear : (∀ a, rel a .yes) ∨ orsClear es = true) :
    Tracks (fun e e' => ∀ v, rel (e'.truth v) (e.truth v))
      (t.filter es) (t.filter (uncommented es)) :=
  filter_keeps_of hrel (fun k _ => entry_keeps hrel k.2) hclear

end entries

/-! ### A comment under `$or` -/

section either

variable {t : Target}

/-- Of entries with a comment among them, taken as filters of their own, one always holds. -/
theorem singles_of_comment {es : List (String × Json)} (hes : hasComment es = true) :
    Tracks (fun fs _ => ∀ v, Truth.any (fs.map (Expr.truth v)) = .yes)
      (t.singles es) (t.singles es) := by
  induction es with
  | nil => cases hes
  | cons k es ih =>
      rw [hasComment_cons, Bool.or_eq_true, beq_iff_eq] at hes
      rw [singles]
      rcases hes with hkey | hes
      · rw [hkey, entry_comment, pure_bind]
        exact (Tracks.refl (t.singles es)).map (Expr.allOf [] :: ·) (Expr.allOf [] :: ·)
          fun cs fs _ v => rfl
      · refine (Tracks.refl (t.entry k.1 k.2)).bind fun e e' he => ?_
        subst he
        refine (ih hes).map (Expr.allOf e.toList :: ·) (Expr.allOf e.toList :: ·)
          fun cs fs hcs v => ?_
        rw [List.map_cons, Truth.any, hcs v, Truth.or_yes]

/-- **A comment makes an `$or` true** if the `$or` takes an object. -/
theorem truth_or_of_comment {es : Entries Json} (hes : hasComment es = true)
    {args args' : Arguments} {e : Expr Placeholder}
    (h : t.filter [("$or", .obj es)] args = .ok e args') (v : Expr Placeholder → Truth) :
    e.truth v = .yes := by
  have htrue : Tracks (fun e _ => ∀ v, e.truth v = .yes) (t.filter [("$or", .obj es)])
      (t.filter [("$or", .obj es)]) := by
    rw [filter_connective (.inr rfl)]
    refine (singles_of_comment hes).map Expr.anyOf Expr.anyOf fun cs fs hcs v => ?_
    rw [Expr.truth_anyOf, hcs v]
  obtain ⟨-, -, hyes⟩ := htrue args e args' h
  exact hyes v

end either

/-- **Comments are ignored, but for one place.**  Without its comments, an accepted filter is
accepted and binds the same values, and where it holds, the filter held.  The two say the same
unless some `$or` takes an object with a comment. -/
theorem filter_uncommented {t : Target} {es : Entries Json} {args args' : Arguments}
    {e : Expr Placeholder} (h : t.filter es args = .ok e args') :
    ∃ e', t.filter (uncommented es) args = .ok e' args' ∧ (∀ v, e'.truth v ≤ e.truth v) ∧
      (orsClear es = true → ∀ v, e'.truth v = e.truth v) := by
  obtain ⟨e', he', hle⟩ := filter_keeps Truth.kept_le (.inl Truth.le_yes) args e args' h
  refine ⟨e', he', hle, fun hclear v => ?_⟩
  obtain ⟨e'', he'', heq⟩ := filter_keeps Truth.kept_eq (.inr hclear) args e args' h
  cases he'.symm.trans he''
  exact heq v

end Target

namespace Sample

/-- A score above one and one of two titles, with comments. -/
def annotated : Entries Json :=
  [("$comment", .str "popular"),
    ("$and", .obj [("$comment", .str "score"), ("score", .obj [("$gt", .int 1)])]),
    ("$or", .arr [.obj [("title", .str "a")], .obj [("$comment", .str "b"), ("title", .str "b")]])]

/-- One condition, with a comment, under `$or`. -/
def either : Entries Json := [("$or", .obj [("$comment", .str "x"), ("title", .int 1)])]

end Sample

theorem Target.filter_uncommented_sample :
    ∃ e e', Sample.catalogue.filter Sample.annotated .empty =
        .ok e ⟨0, [.int 1, .str "a", .str "b"]⟩ ∧
      Sample.catalogue.filter [("$and", .obj [("score", .obj [("$gt", .int 1)])]),
        ("$or", .arr [.obj [("title", .str "a")], .obj [("title", .str "b")]])] .empty =
        .ok e' ⟨0, [.int 1, .str "a", .str "b"]⟩ ∧
      orsClear Sample.annotated = true ∧ ∀ v, e'.truth v = e.truth v := by
  obtain ⟨e, h⟩ : ∃ e, Sample.catalogue.filter Sample.annotated .empty =
      .ok e ⟨0, [.int 1, .str "a", .str "b"]⟩ := ⟨_, rfl⟩
  have hclear : orsClear Sample.annotated = true := by decide
  obtain ⟨e', he', -, hsame⟩ := filter_uncommented h
  exact ⟨e, e', h, he', hclear, hsame hclear⟩

/-- The comment makes the filter true where its only condition is not. -/
theorem Target.filter_uncommented_ne :
    ∃ e e' v, Sample.catalogue.filter Sample.either .empty = .ok e ⟨0, [.int 1]⟩ ∧
      Sample.catalogue.filter (uncommented Sample.either) .empty = .ok e' ⟨0, [.int 1]⟩ ∧
      e.truth v = .yes ∧ e'.truth v = .no := by
  obtain ⟨e, h⟩ : ∃ e, Sample.catalogue.filter Sample.either .empty = .ok e ⟨0, [.int 1]⟩ :=
    ⟨_, rfl⟩
  exact ⟨e, _, fun _ => .no, h, rfl, truth_or_of_comment rfl h _, rfl⟩

end ShapedQuery
