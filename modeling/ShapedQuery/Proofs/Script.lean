import Mathlib.Data.List.Infix
import ShapedQuery.Proofs.Lexer

/-! # Texts that can be read in one way only

A `Script` is a way to write values of a type: the text of each value, the values that are written
at all, and the texts that may stand behind one.  A value is *legible* in a script if its text
tells it from all others: where its text begins, no other value can be read, and it is clear where
its text ends (`Script.Legible`).

Legible values can be put one behind the other (`Legible.pair`, `Legible.many`) and into lists
with a separator and a closing text (`Legible.list`).  Quoted texts, numbers and the words of a
finite vocabulary are legible. -/

namespace ShapedQuery

/-! ### Texts that exclude each other -/

/-- No text begins with both. -/
def Apart (u v : List Char) : Prop := ∀ r s, u ++ r ≠ v ++ s

theorem apart_iff {u v : List Char} : Apart u v ↔ ¬ u <+: v ∧ ¬ v <+: u := by
  constructor
  · intro h
    constructor
    · rintro ⟨t, ht⟩
      exact h t [] (by rw [ht, List.append_nil])
    · rintro ⟨t, ht⟩
      exact h [] t (by rw [ht, List.append_nil])
  · rintro ⟨h, h'⟩ r s he
    have hu : u <+: v ++ s := ⟨r, he⟩
    rcases List.prefix_or_prefix_of_prefix hu (List.prefix_append v s) with hp | hp
    · exact h hp
    · exact h' hp

instance (u v : List Char) : Decidable (Apart u v) := decidable_of_iff _ apart_iff.symm

/-- Where a run of characters of one class ends is clear. -/
theorem append_inj_of_class (p : Char → Bool) {x y r s : List Char} (hx : ∀ c ∈ x, p c = true)
    (hy : ∀ c ∈ y, p c = true) (hr : ∀ c ∈ r.head?, p c = false)
    (hs : ∀ c ∈ s.head?, p c = false) (h : x ++ r = y ++ s) : x = y ∧ r = s := by
  induction x generalizing y with
  | nil =>
      cases y with
      | nil => exact ⟨rfl, h⟩
      | cons d y =>
          rw [List.nil_append] at h
          have hd := hr d (by rw [h]; rfl)
          rw [hy d List.mem_cons_self] at hd
          cases hd
  | cons c x ih =>
      cases y with
      | nil =>
          rw [List.nil_append] at h
          have hc := hs c (by rw [← h]; rfl)
          rw [hx c List.mem_cons_self] at hc
          cases hc
      | cons d y =>
          rw [List.forall_mem_cons] at hx hy
          rw [List.cons_append, List.cons_append, List.cons.injEq] at h
          obtain ⟨hxy, hrs⟩ := ih hx.2 hy.2 h.2
          exact ⟨by rw [h.1, hxy], hrs⟩

/-! ### Scripts -/

/-- A way to write values. -/
structure Script (α : Type) where
  write : α → List Char
  /-- The values that are written. -/
  valid : α → Prop
  /-- What may stand behind a value. -/
  ends : List Char → Prop

namespace Script

variable {α β : Type}

/-- The text of a value tells it from all others, and where it ends. -/
def Legible (S : Script α) (a : α) : Prop :=
  ∀ b r s, S.valid b → S.ends r → S.ends s → S.write a ++ r = S.write b ++ s → a = b ∧ r = s

/-- A value and another one behind it. -/
def pair (S : Script α) (T : Script β) : Script (α × β) where
  write p := S.write p.1 ++ T.write p.2
  valid p := S.valid p.1 ∧ T.valid p.2
  ends := T.ends

/-- Values behind a fixed text. -/
def behind (text : List Char) (S : Script α) : Script α where
  write a := text ++ S.write a
  valid := S.valid
  ends := S.ends

/-- Values one behind the other, as many as there are. -/
def many (S : Script α) : Script (List α) where
  write as := as.flatMap S.write
  valid as := ∀ a ∈ as, S.valid a
  ends r := S.ends r ∧ ∀ b s, S.valid b → r ≠ S.write b ++ s

/-- What follows the first value of a list. -/
def tail (S : Script α) (separator closing : List Char) : List α → List Char
  | [] => closing
  | a :: as => separator ++ (S.write a ++ S.tail separator closing as)

/-- Values with a separator between them and a closing text behind the last. -/
def list (S : Script α) (separator closing : List Char) : Script (List α) where
  write
    | [] => closing
    | a :: as => S.write a ++ S.tail separator closing as
  valid as := ∀ a ∈ as, S.valid a
  ends _ := True

variable {S : Script α} {T : Script β}

theorem Legible.pair {a : α} {b : β} (ha : S.Legible a) (hb : T.Legible b) (hv : T.valid b)
    (hends : ∀ b r, T.valid b → T.ends r → S.ends (T.write b ++ r)) :
    (S.pair T).Legible (a, b) := by
  rintro ⟨a', b'⟩ r s ⟨hva, hvb⟩ hr hs h
  simp only [Script.pair, List.append_assoc] at h hr hs
  obtain ⟨rfl, hrest⟩ := ha a' _ _ hva (hends b r hv hr) (hends b' s hvb hs) h
  obtain ⟨rfl, hrs⟩ := hb b' r s hvb hr hs hrest
  exact ⟨rfl, hrs⟩

theorem Legible.behind {text : List Char} {a : α} (ha : S.Legible a) :
    (S.behind text).Legible a := by
  intro b r s hv hr hs h
  simp only [Script.behind, List.append_assoc] at h
  exact ha b r s hv hr hs (List.append_cancel_left h)

theorem Legible.many {as : List α} (hends : ∀ b r, S.valid b → S.ends (S.write b ++ r))
    (hv : ∀ a ∈ as, S.valid a) (h : ∀ a ∈ as, S.Legible a) : S.many.Legible as := by
  have hmany : ∀ {bs : List α} {r}, (∀ b ∈ bs, S.valid b) → S.ends r →
      S.ends (bs.flatMap S.write ++ r) := by
    intro bs r hbs hr
    cases bs with
    | nil => exact hr
    | cons b bs =>
        rw [List.flatMap_cons, List.append_assoc]
        exact hends b _ (hbs b List.mem_cons_self)
  induction as with
  | nil =>
      intro bs r s hbs hr hs he
      cases bs with
      | nil => exact ⟨rfl, he⟩
      | cons b bs =>
          refine absurd ?_ (hr.2 b (bs.flatMap S.write ++ s) (hbs b List.mem_cons_self))
          simpa [Script.many] using he
  | cons a as ih =>
      intro bs r s hbs hr hs he
      rw [List.forall_mem_cons] at hv h
      cases bs with
      | nil =>
          refine absurd ?_ (hs.2 a (as.flatMap S.write ++ r) hv.1)
          simpa [Script.many] using he.symm
      | cons b bs =>
          simp only [Script.many, List.flatMap_cons, List.append_assoc] at he
          obtain ⟨hvb, hvbs⟩ := List.forall_mem_cons.mp hbs
          obtain ⟨rfl, hrest⟩ := h.1 b _ _ hvb (hmany hv.2 hr.1) (hmany hvbs hs.1) he
          obtain ⟨rfl, hrs⟩ := ih hv.2 h.2 bs r s hvbs hr hs hrest
          exact ⟨rfl, hrs⟩

/-- A value is legible if it can be read off any text that begins with it. -/
theorem legible_of_read {a : α} (read : List Char → Option α) (hv : S.valid a)
    (h : ∀ b r, S.valid b → S.ends r → read (S.write b ++ r) = some b) : S.Legible a := by
  intro b r s hvb hr hs he
  have hab : some a = some b := by rw [← h a r hv hr, he, h b s hvb hs]
  cases hab
  exact ⟨rfl, List.append_cancel_left he⟩

/-- A separator and a closing text that suit a script. -/
structure Separated (S : Script α) (separator closing : List Char) : Prop where
  separator_ends : ∀ r, S.ends (separator ++ r)
  closing_ends : ∀ r, S.ends (closing ++ r)
  apart : Apart separator closing
  /-- No value begins with the closing text. -/
  opens : ∀ a r, S.valid a → S.ends r → ∀ s, S.write a ++ r ≠ closing ++ s

namespace Separated

variable {separator closing : List Char} (hsep : S.Separated separator closing)
include hsep

theorem tail_ends (as : List α) (r : List Char) : S.ends (S.tail separator closing as ++ r) := by
  cases as with
  | nil => exact hsep.closing_ends r
  | cons a as =>
      rw [tail, List.append_assoc]
      exact hsep.separator_ends _

theorem tail_inj {as bs : List α} {r s : List Char} (h : ∀ a ∈ as, S.Legible a)
    (hbs : ∀ b ∈ bs, S.valid b)
    (he : S.tail separator closing as ++ r = S.tail separator closing bs ++ s) :
    as = bs ∧ r = s := by
  induction as generalizing bs with
  | nil =>
      cases bs with
      | nil => exact ⟨rfl, List.append_cancel_left he⟩
      | cons b bs =>
          rw [tail, tail, List.append_assoc] at he
          exact absurd he.symm (hsep.apart _ _)
  | cons a as ih =>
      cases bs with
      | nil =>
          rw [tail, tail, List.append_assoc] at he
          exact absurd he (hsep.apart _ _)
      | cons b bs =>
          rw [List.forall_mem_cons] at h hbs
          simp only [tail, List.append_assoc] at he
          obtain ⟨rfl, hrest⟩ := h.1 b _ _ hbs.1 (hsep.tail_ends _ _) (hsep.tail_ends _ _)
            (List.append_cancel_left he)
          obtain ⟨rfl, hrs⟩ := ih h.2 hbs.2 hrest
          exact ⟨rfl, hrs⟩

theorem legible_list {as : List α} (hv : ∀ a ∈ as, S.valid a) (h : ∀ a ∈ as, S.Legible a) :
    (S.list separator closing).Legible as := by
  intro bs r s hbs _ _ he
  cases as with
  | nil =>
      cases bs with
      | nil => exact ⟨rfl, List.append_cancel_left he⟩
      | cons b bs =>
          simp only [list, List.append_assoc] at he
          exact absurd he.symm (hsep.opens b _ (hbs b List.mem_cons_self) (hsep.tail_ends _ _) _)
  | cons a as =>
      cases bs with
      | nil =>
          simp only [list, List.append_assoc] at he
          exact absurd he (hsep.opens a _ (hv a List.mem_cons_self) (hsep.tail_ends _ _) _)
      | cons b bs =>
          obtain ⟨hvb, hvbs⟩ := List.forall_mem_cons.mp hbs
          rw [List.forall_mem_cons] at h
          simp only [list, List.append_assoc] at he
          obtain ⟨rfl, hrest⟩ := h.1 b _ _ hvb (hsep.tail_ends _ _) (hsep.tail_ends _ _) he
          obtain ⟨rfl, hrs⟩ := hsep.tail_inj h.2 hvbs hrest
          exact ⟨rfl, hrs⟩

end Separated

/-- How a list is written, piece by piece. -/
theorem write_list (f : α → List Piece) (hf : ∀ a, S.write a = (f a).flatMap Piece.chars)
    (separator closing : String) (as : List α) :
    (S.list separator.toList closing.toList).write as =
      (Piece.separated separator (as.map f) ++ [Piece.plain closing]).flatMap Piece.chars := by
  have htail : ∀ as : List α, as ≠ [] → ∀ a, S.write a ++ S.tail separator.toList closing.toList as =
      (f a ++ Piece.plain separator :: Piece.separated separator (as.map f) ++
        [Piece.plain closing]).flatMap Piece.chars := by
    intro as
    induction as with
    | nil => exact fun h => absurd rfl h
    | cons b bs ih =>
        intro _ a
        cases bs with
        | nil => simp [tail, hf, Piece.separated, Piece.chars]
        | cons c cs =>
            have hb := ih (List.cons_ne_nil _ _) b
            simp only [tail, hf, Piece.separated, List.map_cons, List.flatMap_append,
              List.flatMap_cons, List.flatMap_nil, List.append_assoc, List.append_nil,
              List.cons_append, Piece.chars] at hb ⊢
            rw [hb]
  cases as with
  | nil => simp [list, Piece.separated, Piece.chars]
  | cons a as =>
      cases as with
      | nil => simp [list, tail, hf, Piece.separated, Piece.chars]
      | cons b bs =>
          show S.write a ++ S.tail separator.toList closing.toList (b :: bs) = _
          rw [htail (b :: bs) (List.cons_ne_nil _ _) a]
          rfl

/-! ### Quoted texts and numbers -/

/-- A text between quotes. -/
def quoted (q : Char) : Script String where
  write := Piece.quotedBy q
  valid _ := True
  ends r := q ∉ r.head?

/-- A number in decimal. -/
def digits : Script Nat where
  write := Nat.toDigits 10
  valid _ := True
  ends r := ∀ c ∈ r.head?, c.isDigit = false

theorem doubled_inj {q : Char} {xs ys r s : List Char} (hr : q ∉ r.head?) (hs : q ∉ s.head?)
    (h : Piece.doubled q xs ++ q :: r = Piece.doubled q ys ++ q :: s) : xs = ys ∧ r = s := by
  induction xs generalizing ys with
  | nil =>
      cases ys with
      | nil =>
          rw [List.append_cancel_left_eq, List.cons.injEq] at h
          exact ⟨rfl, h.2⟩
      | cons y ys =>
          simp only [Piece.doubled, List.nil_append] at h
          split at h
          · -- the quote that ends the one text is the first of two in the other
            rw [List.cons_append, List.cons_append, List.cons.injEq] at h
            rw [h.2] at hr
            exact absurd rfl hr
          · rename_i hy
            rw [List.cons_append, List.cons.injEq] at h
            exact absurd h.1.symm hy
  | cons x xs ih =>
      cases ys with
      | nil =>
          simp only [Piece.doubled, List.nil_append] at h
          split at h
          · rw [List.cons_append, List.cons_append, List.cons.injEq] at h
            rw [← h.2] at hs
            exact absurd rfl hs
          · rename_i hx
            rw [List.cons_append, List.cons.injEq] at h
            exact absurd h.1 hx
      | cons y ys =>
          simp only [Piece.doubled] at h
          by_cases hx : x = q <;> by_cases hy : y = q
          · rw [if_pos hx, if_pos hy, List.cons_append, List.cons_append, List.cons_append,
              List.cons_append, List.cons.injEq, List.cons.injEq] at h
            obtain ⟨rfl, hrs⟩ := ih h.2.2
            exact ⟨by rw [hx, hy], hrs⟩
          · rw [if_pos hx, if_neg hy, List.cons_append, List.cons_append, List.cons_append,
              List.cons.injEq] at h
            exact absurd h.1.symm hy
          · rw [if_neg hx, if_pos hy, List.cons_append, List.cons_append, List.cons_append,
              List.cons.injEq] at h
            exact absurd h.1 hx
          · rw [if_neg hx, if_neg hy, List.cons_append, List.cons_append, List.cons.injEq] at h
            obtain ⟨rfl, hrs⟩ := ih h.2
            exact ⟨by rw [h.1], hrs⟩

theorem quoted_legible (q : Char) (text : String) : (quoted q).Legible text := by
  intro text' r s _ hr hs h
  simp only [quoted, Piece.quotedBy, List.cons_append, List.append_assoc, List.cons.injEq,
    List.nil_append, true_and] at h
  obtain ⟨ht, hrs⟩ := doubled_inj hr hs h
  exact ⟨String.toList_inj.mp ht, hrs⟩

theorem digits_legible (n : Nat) : digits.Legible n := by
  intro m r s _ hr hs h
  obtain ⟨hd, hrs⟩ := append_inj_of_class Char.isDigit (fun _ => isDigit_of_mem_toDigits)
    (fun _ => isDigit_of_mem_toDigits) hr hs h
  exact ⟨toDigits_inj hd, hrs⟩

end Script

end ShapedQuery
