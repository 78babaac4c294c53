import Mathlib.Data.List.Basic
import ShapedQuery.Proofs.SelectorGrammar
import ShapedQuery.Proofs.Spelling

/-! # The names of fields

What becomes of a dotted name when it is split.  A path is written as a name again by putting dots
between the column and its steps, with positions in decimal (`FieldPath.text`).  That gives back the
name, unless a step of it is a position that is not written in the shortest way, behind a plus sign
or with zeros in front (`FieldPath.Canonical`).  What comes out is then another name for the same
path (`FieldPath.split_text_split`), so that two names have the same path exactly if they are
written back alike. -/

namespace ShapedQuery

/-- What a list is split at is in none of the parts. -/
theorem not_mem_of_mem_splitOn {α : Type} [DecidableEq α] (a : α) {l m : List α}
    (h : m ∈ l.splitOn a) : a ∉ m := by
  induction l generalizing m with
  | nil =>
      rw [List.splitOn_nil, List.mem_singleton] at h
      rw [h]
      exact List.not_mem_nil
  | cons b l ih =>
      rw [List.splitOn, List.splitOnP_cons_eq_if_modifyHead, ← List.splitOn] at h
      split at h
      · rcases List.mem_cons.mp h with rfl | h
        · exact List.not_mem_nil
        · exact ih h
      · rename_i hb
        have hne : a ≠ b := by
          rintro rfl
          exact hb (beq_self_eq_true a)
        cases hsplit : l.splitOn a with
        | nil => exact absurd hsplit (List.splitOn_ne_nil a l)
        | cons n ns =>
            rw [hsplit] at h ih
            rcases List.mem_cons.mp h with rfl | h
            · exact List.not_mem_cons_of_ne_of_not_mem hne (ih List.mem_cons_self)
            · exact ih (List.mem_cons_of_mem _ h)

/-- A step, as it stands in a dotted name. -/
def PathStep.text : PathStep → String
  | .key name => name
  | .index n => toString n

namespace FieldPath

/-- The dotted name of a path. -/
def text (p : FieldPath) : String := ".".intercalate (p.column :: p.steps.map PathStep.text)

/-- A position in an array that is not written in the shortest way. -/
def Padded (cs : List Char) : Prop :=
  (index? cs).isSome = true ∧ (cs.head? = some '+' ∨ cs.head? = some '0' ∧ 1 < cs.length)

instance (cs : List Char) : Decidable (Padded cs) := inferInstanceAs (Decidable (_ ∧ _))

/-- A name in which every position is written in the shortest way. -/
def Canonical (f : String) : Prop := ∀ s ∈ (segments f.toList).tail, ¬ Padded s

instance (f : String) : Decidable (Canonical f) := inferInstanceAs (Decidable (∀ s ∈ _, ¬ Padded s))

/-! ### Segments -/

theorem segments_eq (cs : List Char) : segments cs = cs.splitOn '.' := by
  induction cs with
  | nil => rfl
  | cons c cs ih =>
      obtain ⟨rest, hsegments, -⟩ := exists_segments cs
      rw [List.splitOn, List.splitOnP_cons_eq_if_modifyHead, ← List.splitOn, ← ih]
      by_cases hc : c = '.'
      · simp [segments, hc]
      · simp [segments, hc, hsegments]

theorem not_mem_of_mem_segments {cs s : List Char} (hs : s ∈ segments cs) : '.' ∉ s := by
  rw [segments_eq] at hs
  exact not_mem_of_mem_splitOn '.' hs

/-- Segments with dots between them are cut there again. -/
theorem segments_intercalate {ss : List (List Char)} (hss : ss ≠ []) (h : ∀ s ∈ ss, '.' ∉ s) :
    segments (['.'].intercalate ss) = ss := by
  rw [segments_eq]
  exact List.splitOn_intercalate '.' h hss

/-! ### Positions -/

/-- The position that a row of digits stands for, if it is one. -/
def unsigned? (ds : List Char) : Option Nat :=
  if !ds.isEmpty && ds.all Char.isDigit then
    if Nat.ofDigitChars 10 ds 0 ≤ maxIndex then some (Nat.ofDigitChars 10 ds 0) else none
  else none

theorem unsigned?_eq_some_iff {ds : List Char} {n : Nat} : unsigned? ds = some n ↔
    ds ≠ [] ∧ (∀ c ∈ ds, c.isDigit = true) ∧ Nat.ofDigitChars 10 ds 0 = n ∧ n ≤ maxIndex := by
  simp only [unsigned?, Option.ite_none_right_eq_some, Bool.and_eq_true, Bool.not_eq_true',
    List.isEmpty_eq_false_iff, List.all_eq_true, Option.some.injEq, and_assoc]
  refine and_congr_right fun _ => and_congr_right fun _ => ?_
  constructor
  · rintro ⟨hmax, rfl⟩
    exact ⟨rfl, hmax⟩
  · rintro ⟨rfl, hmax⟩
    exact ⟨hmax, rfl⟩

theorem index?_plus (ds : List Char) : index? ('+' :: ds) = unsigned? ds := by
  simp only [index?, unsigned?, foldl_digits]

theorem index?_of_ne {cs : List Char} (h : ∀ ds, cs ≠ '+' :: ds) : index? cs = unsigned? cs := by
  unfold index?
  split
  · exact absurd rfl (h _)
  · simp only [unsigned?, foldl_digits]

theorem index?_eq_some_iff {cs : List Char} {n : Nat} : index? cs = some n ↔
    ∃ ds, (cs = ds ∨ cs = '+' :: ds) ∧ ds ≠ [] ∧ (∀ c ∈ ds, c.isDigit = true) ∧
      Nat.ofDigitChars 10 ds 0 = n ∧ n ≤ maxIndex := by
  by_cases hcs : ∃ ds, cs = '+' :: ds
  · obtain ⟨ds, rfl⟩ := hcs
    rw [index?_plus, unsigned?_eq_some_iff]
    refine ⟨fun h => ⟨ds, .inr rfl, h⟩, ?_⟩
    rintro ⟨es, rfl | hes, h⟩
    · exact absurd (h.2.1 '+' List.mem_cons_self) (by decide)
    · rw [(List.cons.inj hes).2]
      exact h
  · have hne : ∀ ds, cs ≠ '+' :: ds := fun ds hds => hcs ⟨ds, hds⟩
    rw [index?_of_ne hne, unsigned?_eq_some_iff]
    refine ⟨fun h => ⟨cs, .inl rfl, h⟩, ?_⟩
    rintro ⟨es, rfl | hes, h⟩
    · exact h
    · exact absurd hes (hne es)

theorem index?_toDigits {n : Nat} (h : n ≤ maxIndex) : index? (Nat.toDigits 10 n) = some n :=
  index?_eq_some_iff.mpr ⟨_, .inl rfl, Nat.toDigits_ne_nil,
    fun _ => isDigit_of_mem_toDigits, Nat.ofDigitChars_ten_toDigits, h⟩

/-! ### Steps -/

theorem step_of_none {cs : List Char} (h : index? cs = none) :
    step cs = .key (String.ofList cs) := by
  rw [step, h]

theorem step_of_some {cs : List Char} {n : Nat} (h : index? cs = some n) : step cs = .index n := by
  rw [step, h]

/-- A step is written back as it was, unless it is a padded position. -/
theorem text_step_eq_iff (cs : List Char) : (step cs).text.toList = cs ↔ ¬ Padded cs := by
  cases hindex : index? cs with
  | none =>
      rw [step_of_none hindex, Padded, hindex]
      exact iff_of_true (String.toList_ofList) fun h => by cases h.1
  | some n =>
      rw [step_of_some hindex, Padded, hindex]
      show (toString n).toList = cs ↔ _
      rw [toList_toString_nat]
      obtain ⟨ds, hcs, hne, hdigits, rfl, -⟩ := index?_eq_some_iff.mp hindex
      rcases hcs with rfl | rfl
      · cases cs with
        | nil => exact absurd rfl hne
        | cons c cs =>
            have hplus : c ≠ '+' := by
              rintro rfl
              exact absurd (hdigits '+' List.mem_cons_self) (by decide)
            rw [toDigits_ofDigitChars_iff hdigits]
            simp [hplus, List.length_pos_iff]
      · refine iff_of_false (fun h => ?_) fun h => h ⟨rfl, .inl rfl⟩
        have hplus : '+' ∈ Nat.toDigits 10 (Nat.ofDigitChars 10 ds 0) := h ▸ List.mem_cons_self
        exact absurd (isDigit_of_mem_toDigits hplus) (by decide)

/-- Written back, a step is read as before. -/
theorem step_text_step (cs : List Char) : step (step cs).text.toList = step cs := by
  cases hindex : index? cs with
  | none =>
      have hkey := step_of_none hindex
      rw [hkey, PathStep.text, String.toList_ofList, hkey]
  | some n =>
      obtain ⟨ds, -, -, -, -, hmax⟩ := index?_eq_some_iff.mp hindex
      rw [step_of_some hindex]
      show step (toString n).toList = .index n
      rw [toList_toString_nat]
      exact step_of_some (index?_toDigits hmax)

theorem not_mem_text_step {cs : List Char} (h : '.' ∉ cs) : '.' ∉ (step cs).text.toList := by
  cases hindex : index? cs with
  | none =>
      rw [step_of_none hindex, PathStep.text, String.toList_ofList]
      exact h
  | some n =>
      rw [step_of_some hindex]
      show '.' ∉ (toString n).toList
      rw [toList_toString_nat]
      intro hdot
      exact absurd (isDigit_of_mem_toDigits hdot) (by decide)

/-! ### Names -/

/-- The segments of a name that is written back. -/
theorem segments_text {f : String} {column : List Char} {rest : List (List Char)}
    (h : segments f.toList = column :: rest) : segments (FieldPath.split f).text.toList =
      column :: rest.map fun s => (step s).text.toList := by
  have hdots : ∀ s ∈ column :: rest, '.' ∉ s := by
    rw [← h]
    exact fun s hs => not_mem_of_mem_segments hs
  rw [List.forall_mem_cons] at hdots
  have htext : (FieldPath.split f).text.toList =
      ['.'].intercalate (column :: rest.map fun s => (step s).text.toList) := by
    simp only [FieldPath.split, h, text, String.toList_intercalate, List.map_cons, List.map_map,
      String.toList_ofList]
    rfl
  rw [htext]
  refine segments_intercalate (List.cons_ne_nil _ _) (List.forall_mem_cons.mpr ⟨hdots.1, ?_⟩)
  rintro s hs
  obtain ⟨r, hr, rfl⟩ := List.mem_map.mp hs
  exact not_mem_text_step (hdots.2 r hr)

theorem eq_of_segments_eq {f g : String} (h : segments f.toList = segments g.toList) : f = g := by
  rw [segments_eq, segments_eq] at h
  have hchars := congrArg ['.'].intercalate h
  rw [List.intercalate_splitOn, List.intercalate_splitOn] at hchars
  exact String.toList_inj.mp hchars

/-- A name is written back as it was exactly if none of its steps is a padded position. -/
theorem text_split_eq_iff (f : String) : (FieldPath.split f).text = f ↔ Canonical f := by
  obtain ⟨rest, hsegments, -⟩ := exists_segments f.toList
  have htext := segments_text hsegments
  have hname : (FieldPath.split f).text = f ↔
      rest.map (fun s => (step s).text.toList) = rest.map id := by
    rw [List.map_id]
    constructor
    · intro h
      rw [h, hsegments] at htext
      exact (List.cons.inj htext).2.symm
    · intro h
      rw [h, ← hsegments] at htext
      exact eq_of_segments_eq htext
  rw [hname, List.map_inj_left, Canonical, hsegments, List.tail_cons]
  exact forall₂_congr fun s _ => text_step_eq_iff s

/-- Written back, a name has the same column and the same steps. -/
theorem split_text_split (f : String) :
    FieldPath.split (FieldPath.split f).text = FieldPath.split f := by
  obtain ⟨rest, hsegments, -⟩ := exists_segments f.toList
  conv_lhs => rw [FieldPath.split]
  simp only [segments_text hsegments, List.map_map]
  simp only [FieldPath.split, hsegments]
  congr 1
  exact List.map_congr_left fun s _ => step_text_step s

theorem split_eq_split_iff (f g : String) : FieldPath.split f = FieldPath.split g ↔
    (FieldPath.split f).text = (FieldPath.split g).text := by
  constructor
  · intro h
    rw [h]
  · intro h
    rw [← split_text_split f, h, split_text_split]

end FieldPath

end ShapedQuery
