/-! # Entries in order

Values under names, kept in the order in which the names first appeared.  `Entries.insert`
replaces the value of a known name where it stands and adds a new name at the end, so the last
value written wins and the first position stays.  `Entries.insertSorted` keeps the names in
increasing order instead. -/

namespace ShapedQuery

/-- Values under names, in order. -/
abbrev Entries (α : Type) := List (String × α)

namespace Entries

variable {α : Type}

/-- The names, in order. -/
def keys (es : Entries α) : List String := es.map Prod.fst

/-- The value of the first entry under the name. -/
def get? : Entries α → String → Option α
  | [], _ => none
  | (k, v) :: es, key => if k = key then some v else get? es key

/-- Is there an entry under the name? -/
def has (es : Entries α) (key : String) : Bool := (es.get? key).isSome

/-- Set the value of a name: in place when the name is known, else at the end. -/
def insert : Entries α → String → α → Entries α
  | [], key, value => [(key, value)]
  | (k, v) :: es, key, value =>
    if k = key then (key, value) :: es else (k, v) :: insert es key value

/-- Set the value of a name among names in increasing order. -/
def insertSorted : Entries α → String → α → Entries α
  | [], key, value => [(key, value)]
  | (k, v) :: es, key, value =>
    if k = key then (key, value) :: es
    else if key < k then (key, value) :: (k, v) :: es
    else (k, v) :: insertSorted es key value

/-! ### What setting a name does -/

@[simp] theorem get?_nil (key : String) : get? ([] : Entries α) key = none := rfl

theorem get?_insert (es : Entries α) (key k : String) (value : α) :
    (es.insert key value).get? k = if k = key then some value else es.get? k := by
  induction es with
  | nil => simp only [insert, get?, eq_comm]
  | cons e es ih =>
    obtain ⟨k', v'⟩ := e
    simp only [insert]
    by_cases h : k' = key
    · subst h
      simp only [if_pos, get?, eq_comm]
      split <;> simp_all
    · simp only [h, if_false, get?, ih]
      by_cases h' : k' = k
      · subst h'; simp [h]
      · simp [h']

theorem keys_insert (es : Entries α) (key : String) (value : α) :
    (es.insert key value).keys = if key ∈ es.keys then es.keys else es.keys ++ [key] := by
  induction es with
  | nil => simp [insert, keys]
  | cons e es ih =>
    obtain ⟨k', v'⟩ := e
    simp only [insert, keys, List.map_cons, List.mem_cons] at ih ⊢
    by_cases h : k' = key
    · subst h; simp
    · simp only [h, if_false, List.map_cons, Ne.symm h, false_or, ih]
      split <;> simp_all

end Entries

end ShapedQuery
