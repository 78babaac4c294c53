/-! # Decimal digits

Numbers are written in decimals in statements, in JSON texts and in the steps of a path.  A reader
that takes the digits one after the other gets `Nat.ofDigitChars` of them (`foldl_digits`).

A row of digits is the decimal form of the number it is read as, unless it begins with a zero that
says nothing (`toDigits_ofDigitChars_iff`). -/

namespace ShapedQuery

/-! ### The digits of a number -/

theorem isDigit_of_mem_toDigits {n : Nat} {c : Char} (h : c ∈ Nat.toDigits 10 n) :
    c.isDigit = true :=
  Nat.isDigit_of_mem_toDigits (by decide) (by decide) h

theorem exists_toDigits (n : Nat) : ∃ c cs, Nat.toDigits 10 n = c :: cs ∧ c.isDigit = true := by
  cases hd : Nat.toDigits 10 n with
  | nil => exact absurd hd Nat.toDigits_ne_nil
  | cons c cs =>
      refine ⟨c, cs, rfl, isDigit_of_mem_toDigits (n := n) ?_⟩
      rw [hd]
      exact List.mem_cons_self

theorem toDigits_inj {n m : Nat} (h : Nat.toDigits 10 n = Nat.toDigits 10 m) : n = m := by
  rw [← Nat.ofDigitChars_ten_toDigits (n := n), h, Nat.ofDigitChars_ten_toDigits]

/-- No decimal form begins with a zero, but that of zero. -/
theorem eq_zero_of_toDigits {n : Nat} {ds : List Char} (h : Nat.toDigits 10 n = '0' :: ds) :
    n = 0 := by
  induction n using Nat.strongRecOn generalizing ds with
  | _ n ih =>
      rw [Nat.toDigits_eq_if (by decide)] at h
      split at h
      · rename_i hlt
        have hchar : n.digitChar = '0' := (List.cons.inj h).1
        have hnat := Nat.toNat_digitChar_of_lt_ten hlt
        rw [hchar] at hnat
        have hzero : '0'.toNat = 48 := rfl
        omega
      · obtain ⟨c, front, hfront, -⟩ := exists_toDigits (n / 10)
        rw [hfront, List.cons_append] at h
        rw [(List.cons.inj h).1] at hfront
        have hdiv := ih (n / 10) (by omega) hfront
        omega

theorem toList_toString_nat (n : Nat) : (toString n).toList = Nat.toDigits 10 n := Nat.toList_repr

theorem toList_toString_negSucc (n : Nat) :
    (toString (Int.negSucc n)).toList = '-' :: Nat.toDigits 10 (n + 1) := by
  show ("-" ++ (n + 1).repr).toList = _
  rw [String.toList_append, Nat.toList_repr]
  rfl

/-! ### The number of a row of digits -/

theorem foldl_digits (ds : List Char) (n : Nat) :
    ds.foldl (fun n c => n * 10 + (c.toNat - '0'.toNat)) n = Nat.ofDigitChars 10 ds n := by
  simp only [Nat.ofDigitChars_eq_foldl, Nat.mul_comm]

theorem digit_lt_ten {c : Char} (hc : c.isDigit = true) : c.toNat - '0'.toNat < 10 := by
  simp only [Char.isDigit, Bool.and_eq_true, decide_eq_true_eq, ge_iff_le, UInt32.le_iff_toNat_le]
    at hc
  have hlow : 48 ≤ c.toNat := hc.1
  have hhigh : c.toNat ≤ 57 := hc.2
  show c.toNat - 48 < 10
  omega

/-- A digit is the decimal form of its value. -/
theorem toDigits_digit {c : Char} (hc : c.isDigit = true) :
    Nat.toDigits 10 (c.toNat - '0'.toNat) = [c] := by
  have hlt := digit_lt_ten hc
  simp only [Char.isDigit, Bool.and_eq_true, decide_eq_true_eq, ge_iff_le, UInt32.le_iff_toNat_le]
    at hc
  have hlow : 48 ≤ c.toNat := hc.1
  rw [Nat.toDigits_of_lt_base hlt, List.singleton_inj, ← Char.toNat_inj,
    Nat.toNat_digitChar_of_lt_ten hlt]
  show 48 + (c.toNat - 48) = c.toNat
  omega

/-- Digits behind a number that is not zero go on with its decimal form. -/
theorem toDigits_ofDigitChars {ds : List Char} (hds : ∀ c ∈ ds, c.isDigit = true) {n : Nat}
    (hn : 0 < n) : Nat.toDigits 10 (Nat.ofDigitChars 10 ds n) = Nat.toDigits 10 n ++ ds := by
  induction ds generalizing n with
  | nil => rw [Nat.ofDigitChars_nil, List.append_nil]
  | cons c ds ih =>
      rw [List.forall_mem_cons] at hds
      have happend : Nat.toDigits 10 (10 * n + (c.toNat - '0'.toNat)) =
          Nat.toDigits 10 n ++ [c] := by
        rw [← toDigits_digit hds.1,
          Nat.toDigits_append_toDigits (by decide) hn (digit_lt_ten hds.1)]
      rw [Nat.ofDigitChars_cons, ih hds.2 (by omega), happend, List.append_assoc]
      rfl

/-- A row of digits is the decimal form of its number, unless it begins with a zero that says
nothing. -/
theorem toDigits_ofDigitChars_iff {c : Char} {ds : List Char}
    (hdigits : ∀ d ∈ c :: ds, d.isDigit = true) :
    Nat.toDigits 10 (Nat.ofDigitChars 10 (c :: ds) 0) = c :: ds ↔ ¬ (c = '0' ∧ ds ≠ []) := by
  rw [List.forall_mem_cons] at hdigits
  have hdigit := toDigits_digit hdigits.1
  constructor
  · rintro h ⟨rfl, hds⟩
    rw [eq_zero_of_toDigits h, Nat.toDigits_zero] at h
    exact hds (List.cons.inj h).2.symm
  · intro h
    by_cases hc : c = '0'
    · have hds : ds = [] := Classical.byContradiction fun hds => h ⟨hc, hds⟩
      rw [hc, hds]
      rfl
    · have hpos : 0 < c.toNat - '0'.toNat := by
        refine Nat.pos_of_ne_zero fun hzero => hc ?_
        rw [hzero, Nat.toDigits_zero] at hdigit
        exact (List.cons.inj hdigit).1.symm
      rw [Nat.ofDigitChars_cons, Nat.mul_zero, Nat.zero_add, toDigits_ofDigitChars hdigits.2 hpos,
        hdigit]
      rfl

end ShapedQuery
