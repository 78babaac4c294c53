import Mathlib.Data.List.Basic
import ShapedQuery.Proofs.SelectorValues

/-! # Argument lists side by side

Several argument lists may exist at once, each continuing the numbering of the one it was made from,
and values are bound in them in any order.  So two lists may well hand out the same number, and only
the comparison of offsets in `Arguments.absorb` keeps such numbers apart.

A `Forest` holds the lists of a run together with a record of the calls: what each list has
obtained, which list it was made from and when, and which list gained a value at what time.
`Forest.Kept` ties this record to the lists, every call keeps it (`Forest.Kept.call`), and so it
holds after any calls in any order.  `Forest.run_keeps` reads off it that no value is lost or
misnumbered, and when a list can be absorbed. -/

namespace ShapedQuery

/-- A call on argument lists, which are known by number. -/
inductive ArgumentCall where
  /-- A list of its own, after `offset` values. -/
  | start (offset : Nat)
  /-- A list that continues the numbering of another one. -/
  | nested (list : Nat)
  | bind (list : Nat) (value : Param)
  | absorb (list child : Nat)

/-- An argument list, and what the calls say about it. -/
structure Member where
  args : Arguments
  /-- Values and the numbers of their placeholders: those that the list returned itself, and those
  that were obtained by the lists it has absorbed. -/
  obtained : List (Param × Nat)
  /-- The list that it was made from, and how many values all lists had gained by then. -/
  origin : Option (Nat × Nat)

/-- A list that has absorbed another one, with the values of both. -/
def Member.joined (m : Member) (args : Arguments) (child : Member) : Member :=
  { m with args := args, obtained := m.obtained ++ child.obtained }

/-- The argument lists of a run.  A list that was handed over to be absorbed is gone. -/
structure Forest where
  members : List (Option Member)
  /-- The lists that gained a value, one entry for each value, in order of time. -/
  gains : List Nat

namespace Forest

def empty : Forest := ⟨[], []⟩

/-- The list with a number, unless it is gone. -/
def member? (f : Forest) (i : Nat) : Option Member := f.members[i]?.join

/-- One more list. -/
def add (f : Forest) (m : Member) : Forest := { f with members := f.members ++ [some m] }

/-- A list is gone. -/
def remove (f : Forest) (i : Nat) : Forest := { f with members := f.members.set i none }

/-- A list that gains values becomes `m`. -/
def grow (f : Forest) (i : Nat) (m : Member) (values : Nat) : Forest where
  members := f.members.set i (some m)
  gains := f.gains ++ List.replicate values i

/-- What a call does.  A call on a list that is not there does nothing, and a list is not absorbed
into itself. -/
def call (f : Forest) : ArgumentCall → Forest
  | .start offset => f.add ⟨.startingAt offset, [], none⟩
  | .nested i =>
    match f.member? i with
    | none => f
    | some m => f.add ⟨m.args.nested, [], some (i, f.gains.length)⟩
  | .bind i value =>
    match f.member? i with
    | none => f
    | some m =>
      let (p, args) := m.args.bind value
      f.grow i { m with args := args, obtained := m.obtained ++ [(value, p.index)] } 1
  | .absorb i j =>
    match f.member? i, f.member? j with
    | some m, some k =>
      if i = j then f
      else match m.args.absorb k.args with
        | .error _ => f.remove j
        | .ok args => (f.remove j).grow i (m.joined args k) k.args.values.length
    | _, _ => f

/-- The lists after some calls, in order. -/
def run (calls : List ArgumentCall) : Forest := calls.foldl call empty

/-! ### Finding a list -/

section members

variable {f : Forest} {i j : Nat} {m k : Member}

theorem lt_of_member? (h : f.member? i = some m) : i < f.members.length := by
  by_contra hge
  have hnone : f.members[i]? = none := List.getElem?_eq_none (by omega)
  rw [member?, hnone] at h
  cases h

theorem member?_add (f : Forest) (m : Member) (j : Nat) :
    (f.add m).member? j = if j = f.members.length then some m else f.member? j := by
  unfold member? add
  by_cases hj : j = f.members.length
  · rw [if_pos hj, hj]
    simp
  · rw [if_neg hj]
    rcases Nat.lt_or_gt_of_ne hj with hlt | hgt
    · rw [List.getElem?_append_left hlt]
    · have hbehind : (f.members ++ [some m])[j]? = none := by
        apply List.getElem?_eq_none
        simp only [List.length_append, List.length_singleton]
        omega
      rw [hbehind, List.getElem?_eq_none (Nat.le_of_lt hgt)]

theorem member?_remove (f : Forest) (i j : Nat) :
    (f.remove i).member? j = if j = i then none else f.member? j := by
  unfold member? remove
  by_cases hj : j = i
  · rw [if_pos hj, hj]
    by_cases hi : i < f.members.length
    · rw [List.getElem?_set_self hi]
      rfl
    · rw [List.getElem?_eq_none (by simpa using hi)]
      rfl
  · rw [if_neg hj, List.getElem?_set_ne (Ne.symm hj)]

theorem member?_grow (hi : i < f.members.length) (values : Nat) (j : Nat) :
    (f.grow i m values).member? j = if j = i then some m else f.member? j := by
  unfold member? grow
  by_cases hj : j = i
  · rw [if_pos hj, hj, List.getElem?_set_self hi]
    rfl
  · rw [if_neg hj, List.getElem?_set_ne (Ne.symm hj)]

/-! Absorbing a list that is there. -/

theorem call_absorb_ok (hm : f.member? i = some m) (hk : f.member? j = some k) (hij : i ≠ j)
    {args : Arguments} (h : m.args.absorb k.args = .ok args) :
    f.call (.absorb i j) = (f.remove j).grow i (m.joined args k) k.args.values.length := by
  simp only [call, hm, hk, if_neg hij, h]

theorem call_absorb_error (hm : f.member? i = some m) (hk : f.member? j = some k) (hij : i ≠ j)
    {e : OffsetMismatch} (h : m.args.absorb k.args = .error e) :
    f.call (.absorb i j) = f.remove j := by
  simp only [call, hm, hk, if_neg hij, h]

end members

/-! ### What all calls keep -/

/-- The record agrees with the lists: what a list has obtained are its values, numbered in order
behind its offset; it gained as many values as it has; and it starts behind the values that the list
it was made from had then. -/
structure Kept (f : Forest) : Prop where
  numbered : ∀ i m, f.member? i = some m →
    m.obtained = m.args.values.zipIdx (m.args.offset + 1)
  gained : ∀ i m, f.member? i = some m → f.gains.count i = m.args.values.length
  known : ∀ i ∈ f.gains, i < f.members.length
  origin : ∀ j k i n, f.member? j = some k → k.origin = some (i, n) →
    i < j ∧ n ≤ f.gains.length ∧
      ∀ m, f.member? i = some m → k.args.offset = m.args.offset + (f.gains.take n).count i

theorem kept_empty : Kept empty := by
  have hnone : ∀ i, empty.member? i = none := fun i => rfl
  constructor
  · intro i m h
    rw [hnone] at h
    cases h
  · intro i m h
    rw [hnone] at h
    cases h
  · exact List.forall_mem_nil _
  · intro j k i n h
    rw [hnone] at h
    cases h

namespace Kept

variable {f : Forest} (hf : f.Kept) {i j : Nat} {m k : Member}
include hf

/-- A new list is empty, and it starts behind the values of the list it was made from. -/
theorem add (hvalues : m.args.values = []) (hobtained : m.obtained = [])
    (horigin : ∀ i n, m.origin = some (i, n) →
      n = f.gains.length ∧ ∃ p, f.member? i = some p ∧ m.args.offset = p.args.size) :
    (f.add m).Kept := by
  have hcount : f.gains.count f.members.length = 0 := by
    rw [List.count_eq_zero]
    intro hmem
    exact Nat.lt_irrefl _ (hf.known _ hmem)
  constructor
  · intro i k hk
    rw [member?_add] at hk
    split at hk
    · cases hk
      rw [hobtained, hvalues]
      rfl
    · exact hf.numbered i k hk
  · intro i k hk
    rw [member?_add] at hk
    split at hk
    · rename_i hi
      cases hk
      rw [hi, hvalues]
      exact hcount
    · exact hf.gained i k hk
  · intro i hi
    have hlt := hf.known i hi
    simp only [Forest.add, List.length_append, List.length_singleton]
    omega
  · intro j k i n hk hn
    rw [member?_add] at hk
    split at hk
    · rename_i hj
      cases hk
      obtain ⟨rfl, p, hp, hoffset⟩ := horigin i n hn
      have hlt := lt_of_member? hp
      refine ⟨by omega, Nat.le_refl _, fun q hq => ?_⟩
      rw [member?_add, if_neg (by omega), hp, Option.some.injEq] at hq
      subst hq
      have hgained := hf.gained i p hp
      show m.args.offset = p.args.offset + (f.gains.take f.gains.length).count i
      rw [List.take_length, hgained]
      exact hoffset
    · obtain ⟨hij, hle, hoffset⟩ := hf.origin j k i n hk hn
      have hlt := lt_of_member? hk
      refine ⟨hij, hle, fun q hq => ?_⟩
      rw [member?_add, if_neg (by omega)] at hq
      exact hoffset q hq

theorem remove (i : Nat) : (f.remove i).Kept := by
  have hstill : ∀ {j k}, (f.remove i).member? j = some k → f.member? j = some k := by
    intro j k hk
    rw [member?_remove] at hk
    split at hk
    · cases hk
    · exact hk
  constructor
  · exact fun j k hk => hf.numbered j k (hstill hk)
  · exact fun j k hk => hf.gained j k (hstill hk)
  · intro j hj
    have hlt := hf.known j hj
    simpa [Forest.remove] using hlt
  · intro j k p n hk hn
    obtain ⟨hp, hle, hoffset⟩ := hf.origin j k p n (hstill hk) hn
    exact ⟨hp, hle, fun q hq => hoffset q (hstill hq)⟩

/-- A list gains values behind its own, and obtains them with the numbers that follow. -/
theorem grow (hm : f.member? i = some m) (values : List Param)
    (hargs : k.args = m.args.extend values)
    (hobtained : k.obtained = m.obtained ++ values.zipIdx (m.args.size + 1))
    (horigin : k.origin = m.origin) : (f.grow i k values.length).Kept := by
  have hi := lt_of_member? hm
  have hoffset : k.args.offset = m.args.offset := by rw [hargs]; rfl
  have hvalues : k.args.values = m.args.values ++ values := by rw [hargs]; rfl
  -- a list that is made from another one does not notice later gains of it
  have htake : ∀ {n}, n ≤ f.gains.length →
      (f.grow i k values.length).gains.take n = f.gains.take n :=
    fun hn => List.take_append_of_le_length hn
  constructor
  · intro j p hp
    rw [member?_grow hi] at hp
    split at hp
    · cases hp
      have hplace : m.args.size + 1 = m.args.offset + 1 + m.args.values.length := by
        simp only [Arguments.size]
        omega
      rw [hobtained, hf.numbered i m hm, hoffset, hvalues, List.zipIdx_append, hplace]
    · exact hf.numbered j p hp
  · intro j p hp
    rw [member?_grow hi] at hp
    simp only [Forest.grow, List.count_append, List.count_replicate]
    split at hp
    · rename_i hj
      cases hp
      rw [hj, hvalues, List.length_append, hf.gained i m hm]
      simp
    · rename_i hj
      have hne : (i == j) = false := by simpa using Ne.symm hj
      rw [hf.gained j p hp, hne]
      simp
  · intro j hj
    simp only [Forest.grow, List.length_set]
    rcases List.mem_append.mp hj with hj | hj
    · exact hf.known j hj
    · rw [List.eq_of_mem_replicate hj]
      exact hi
  · have hbefore : ∀ {j p}, (f.grow i k values.length).member? j = some p →
        ∃ q, f.member? j = some q ∧ q.origin = p.origin ∧ q.args.offset = p.args.offset := by
      intro j p hp
      rw [member?_grow hi] at hp
      split at hp
      · rename_i hj
        cases hp
        exact ⟨m, hj ▸ hm, horigin.symm, hoffset.symm⟩
      · exact ⟨p, hp, rfl, rfl⟩
    intro j p l n hp hn
    obtain ⟨q, hq, hqorigin, hqoffset⟩ := hbefore hp
    obtain ⟨hlj, hle, hcount⟩ := hf.origin j q l n hq (hqorigin.trans hn)
    refine ⟨hlj, ?_, fun r hr => ?_⟩
    · simp only [Forest.grow, List.length_append]
      omega
    · obtain ⟨s, hs, -, hsoffset⟩ := hbefore hr
      rw [htake hle, ← hqoffset, ← hsoffset]
      exact hcount s hs

/-- A list absorbs another one: its numbers go on where those of the list end. -/
theorem absorbed (hm : f.member? i = some m) (hk : f.member? j = some k) (hij : i ≠ j)
    {args : Arguments} (habsorb : m.args.absorb k.args = .ok args) :
    ((f.remove j).grow i (m.joined args k) k.args.values.length).Kept := by
  obtain ⟨hmeet, hoffset, hvalues⟩ := Arguments.absorb_eq_ok habsorb
  have hmember : (f.remove j).member? i = some m := by
    rw [member?_remove, if_neg hij]
    exact hm
  refine (hf.remove j).grow hmember k.args.values ?_ ?_ rfl
  · show args = ⟨m.args.offset, m.args.values ++ k.args.values⟩
    rw [← hoffset, ← hvalues]
  · show m.obtained ++ k.obtained = m.obtained ++ k.args.values.zipIdx (m.args.size + 1)
    rw [hf.numbered j k hk, hmeet]

/-- **What one call keeps.** -/
theorem call (c : ArgumentCall) : (f.call c).Kept := by
  cases c with
  | start offset =>
      apply hf.add rfl rfl
      intro i n hn
      cases hn
  | nested i =>
      cases hm : f.member? i with
      | none => simpa only [Forest.call, hm] using hf
      | some m =>
          simp only [Forest.call, hm]
          apply hf.add rfl rfl
          intro j n hn
          cases hn
          exact ⟨rfl, m, hm, rfl⟩
  | bind i value =>
      cases hm : f.member? i with
      | none => simpa only [Forest.call, hm] using hf
      | some m =>
          simp only [Forest.call, hm]
          exact hf.grow hm [value] rfl rfl rfl
  | absorb i j =>
      cases hm : f.member? i with
      | none => simpa only [Forest.call, hm] using hf
      | some m =>
          cases hk : f.member? j with
          | none => simpa only [Forest.call, hm, hk] using hf
          | some k =>
              by_cases hij : i = j
              · simpa only [Forest.call, hm, hk, if_pos hij] using hf
              · cases habsorb : m.args.absorb k.args with
                | error e =>
                    rw [call_absorb_error hm hk hij habsorb]
                    exact hf.remove j
                | ok args =>
                    rw [call_absorb_ok hm hk hij habsorb]
                    exact hf.absorbed hm hk hij habsorb

end Kept

/-- **What all calls keep**, in any order. -/
theorem kept_run (calls : List ArgumentCall) : (run calls).Kept := by
  have hfold : ∀ (calls : List ArgumentCall) (f : Forest), f.Kept → (calls.foldl call f).Kept := by
    intro calls
    induction calls with
    | nil => exact fun f hf => hf
    | cons c calls ih => exact fun f hf => ih (f.call c) (hf.call c)
  exact hfold calls empty kept_empty

/-! ### Numbers and values -/

section obtained

variable {m : Member} (h : m.obtained = m.args.values.zipIdx (m.args.offset + 1))
include h

/-- A number that was obtained is one of the list's own, and its value is still there. -/
theorem found_of_obtained {r : Param × Nat} (hr : r ∈ m.obtained) :
    m.args.offset < r.2 ∧ r.2 ≤ m.args.size ∧
      m.args.values[r.2 - m.args.offset - 1]? = some r.1 := by
  obtain ⟨value, p⟩ := r
  rw [h, List.mk_mem_zipIdx_iff_le_and_getElem?_sub] at hr
  obtain ⟨hle, hvalue⟩ := hr
  have hlt := (List.getElem?_eq_some_iff.mp hvalue).1
  have hsub : p - m.args.offset - 1 = p - (m.args.offset + 1) := by omega
  refine ⟨by omega, ?_, ?_⟩
  · simp only [Arguments.size]
    omega
  · rw [hsub]
    exact hvalue

/-- No number was obtained twice. -/
theorem nodup_obtained : (m.obtained.map Prod.snd).Nodup := by
  rw [h, List.zipIdx_map_snd]
  exact List.nodup_range'

end obtained

/-! ### Absorbing -/

section absorb

variable {f : Forest} (hf : f.Kept) {i j n : Nat} {m k : Member} (hm : f.member? i = some m)
  (hk : f.member? j = some k) (horigin : k.origin = some (i, n))
include hf hm hk horigin

/-- A list starts where the one it was made from ends, as long as that one has gained nothing. -/
theorem meets_iff : k.args.offset = m.args.size ↔ i ∉ f.gains.drop n := by
  obtain ⟨-, -, hoffset⟩ := hf.origin j k i n hk horigin
  have hstart := hoffset m hm
  have hgained := hf.gained i m hm
  have hsplit : f.gains.count i = (f.gains.take n).count i + (f.gains.drop n).count i := by
    rw [← List.count_append, List.take_append_drop]
  rw [← List.count_eq_zero, Arguments.size]
  omega

theorem absorb_of_not_mem (h : i ∉ f.gains.drop n) :
    m.args.absorb k.args = .ok (m.args.extend k.args.values) :=
  if_pos ((meets_iff hf hm hk horigin).mpr h)

theorem absorb_of_mem (h : i ∈ f.gains.drop n) :
    m.args.absorb k.args = .error ⟨m.args.size, k.args.offset⟩ :=
  if_neg fun hmeet => (meets_iff hf hm hk horigin).mp hmeet h

end absorb

/-- **Argument lists never lose or misnumber a value.**  After any calls in any order, each number
that a list has obtained is behind its offset and not behind its end, and the value it was obtained
for is still in its place; no number was obtained twice.  A list can be absorbed by the one it was
made from exactly if that one has gained no value since, and otherwise that one stays as it is. -/
theorem run_keeps (calls : List ArgumentCall) :
    (∀ i m, (run calls).member? i = some m →
      (∀ r ∈ m.obtained, m.args.offset < r.2 ∧ r.2 ≤ m.args.size ∧
        m.args.values[r.2 - m.args.offset - 1]? = some r.1) ∧
      (m.obtained.map Prod.snd).Nodup) ∧
    ∀ i j m k n, (run calls).member? i = some m → (run calls).member? j = some k →
      k.origin = some (i, n) →
      ((∃ args, m.args.absorb k.args = .ok args) ↔ i ∉ (run calls).gains.drop n) ∧
      ((run calls).call (.absorb i j)).member? i = some
        (if i ∈ (run calls).gains.drop n then m else m.joined (m.args.extend k.args.values) k) := by
  have hkept := kept_run calls
  constructor
  · intro i m hm
    have hnumbered := hkept.numbered i m hm
    exact ⟨fun r hr => found_of_obtained hnumbered hr, nodup_obtained hnumbered⟩
  · intro i j m k n hm hk horigin
    have hij : i ≠ j := Nat.ne_of_lt (hkept.origin j k i n hk horigin).1
    by_cases hgained : i ∈ (run calls).gains.drop n
    · have hfails := absorb_of_mem hkept hm hk horigin hgained
      constructor
      · rw [hfails]
        refine iff_of_false ?_ (not_not_intro hgained)
        rintro ⟨args, h⟩
        cases h
      · rw [if_pos hgained, call_absorb_error hm hk hij hfails, member?_remove, if_neg hij]
        exact hm
    · have hjoins := absorb_of_not_mem hkept hm hk horigin hgained
      constructor
      · exact iff_of_true ⟨_, hjoins⟩ hgained
      · have hlt : i < ((run calls).remove j).members.length := by
          simpa [remove] using lt_of_member? hm
        rw [if_neg hgained, call_absorb_ok hm hk hij hjoins, member?_grow hlt, if_pos rfl]

/-- Two lists are made from one and bind a value each, with the same number.  The first is absorbed
together with a list of its own; after that the second cannot be. -/
def twins : List ArgumentCall :=
  [.start 0, .bind 0 (.str "a"), .nested 0, .nested 0, .bind 1 (.str "b"), .bind 2 (.str "c"),
    .nested 1, .bind 3 (.str "d"), .absorb 1 3, .absorb 0 1]

theorem run_keeps_twins : ∃ m k, (run twins).member? 0 = some m ∧ (run twins).member? 2 = some k ∧
    m.obtained = [(.str "a", 1), (.str "b", 2), (.str "d", 3)] ∧ k.obtained = [(.str "c", 2)] ∧
    (∀ r ∈ m.obtained, m.args.values[r.2 - 0 - 1]? = some r.1) ∧
    (m.obtained.map Prod.snd).Nodup ∧
    ¬ (∃ args, m.args.absorb k.args = .ok args) ∧
    ((run twins).call (.absorb 0 2)).member? 0 = some m := by
  obtain ⟨hsound, habsorb⟩ := run_keeps twins
  have hm : (run twins).member? 0 = some ⟨⟨0, [.str "a", .str "b", .str "d"]⟩,
      [(.str "a", 1), (.str "b", 2), (.str "d", 3)], none⟩ := rfl
  have hk : (run twins).member? 2 = some ⟨⟨1, [.str "c"]⟩, [(.str "c", 2)], some (0, 1)⟩ := rfl
  have hgains : (run twins).gains = [0, 1, 2, 3, 1, 0, 0] := rfl
  have hgained : 0 ∈ (run twins).gains.drop 1 := by rw [hgains]; decide
  obtain ⟨hfound, hdistinct⟩ := hsound 0 _ hm
  obtain ⟨hsucceeds, hafter⟩ := habsorb 0 2 _ _ 1 hm hk rfl
  refine ⟨_, _, hm, hk, rfl, rfl, fun r hr => (hfound r hr).2.2, hdistinct, ?_, ?_⟩
  · rw [hsucceeds]
    exact not_not_intro hgained
  · rw [if_pos hgained] at hafter
    exact hafter

end Forest

end ShapedQuery
