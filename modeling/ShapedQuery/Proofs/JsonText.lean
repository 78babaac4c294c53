import ShapedQuery.Json.Doc
import ShapedQuery.Json.Writer
import ShapedQuery.Proofs.Decimal
import ShapedQuery.Proofs.JsonShape

/-! # The tokens of a written value

An indented text is scanned as the tokens of the value it was written for (`Json.emits`).  The
scanner looks at the character behind a number to know where it ends, so what comes after a value
must not go on with a number (`Token.stops`); in an indented text it is a comma, a line break or the
end of the text.

The values are those whose numbers are whole and in range (`Json.Whole`).  One double counts as
whole: `-0` is a whole number as it is written and the negative zero as it is read. -/

namespace ShapedQuery

/-- The negative zero. -/
def Double.negZero : Double := ⟨0x8000000000000000⟩

namespace Json

mutual

/-- All numbers are whole and in range. -/
def Whole : Json → Prop
  | .int n => IntRange n
  | .float x => x = .negZero
  | .arr items => WholeItems items
  | .obj entries => WholeEntries entries
  | _ => True

def WholeItems : List Json → Prop
  | [] => True
  | j :: js => j.Whole ∧ WholeItems js

def WholeEntries : List (String × Json) → Prop
  | [] => True
  | (_, j) :: es => j.Whole ∧ WholeEntries es

end

theorem wholeItems_iff {items : List Json} : WholeItems items ↔ ∀ j ∈ items, j.Whole := by
  induction items with
  | nil => simp [WholeItems]
  | cons j items ih => simp [WholeItems, ih]

theorem wholeEntries_iff {entries : List (String × Json)} :
    WholeEntries entries ↔ ∀ e ∈ entries, e.2.Whole := by
  induction entries with
  | nil => simp [WholeEntries]
  | cons e entries ih => simp [WholeEntries, ih]

end Json

/-! ### Numerals -/

namespace Numeral

/-- A whole number as it is written. -/
def ofInt (n : Int) : Numeral := ⟨decide (n < 0), Nat.toDigits 10 n.natAbs, none, none⟩

/-- The negative zero as it is written. -/
def negZero : Numeral := ⟨true, ['0'], some ['0'], none⟩

theorem natOfDigits_toDigits (n : Nat) : natOfDigits (Nat.toDigits 10 n) = n :=
  (foldl_digits _ 0).trans Nat.ofDigitChars_ten_toDigits

theorem value?_ofInt {n : Int} (h : Json.IntRange n) : (ofInt n).value? = some (.int n) := by
  unfold Json.IntRange at h
  unfold value? ofInt
  simp only [natOfDigits_toDigits, Option.isNone_none, Bool.and_self, if_true, maxWord]
  by_cases hneg : n < 0
  · have hrange : n.natAbs ≠ 0 ∧ n.natAbs ≤ 9223372036854775808 := by omega
    have hvalue : -(n.natAbs : Int) = n := by omega
    rw [if_pos (decide_eq_true hneg), if_pos hrange, hvalue]
  · have hrange : n.natAbs ≤ 18446744073709551615 := by omega
    have hvalue : (n.natAbs : Int) = n := by omega
    rw [if_neg (by simpa using hneg), if_pos hrange, hvalue]

theorem value?_negZero : negZero.value? = some (.float .negZero) := by decide

/-- The whole number that the digits before the point stand for. -/
def int (n : Numeral) : Int :=
  if n.negative then -(natOfDigits n.whole : Int) else (natOfDigits n.whole : Int)

/-- A numeral without fraction and exponent for a number in range. -/
def IsWhole (n : Numeral) : Prop :=
  n.fraction = none ∧ n.exponent = none ∧ Json.IntRange n.int

theorem gather_of_natOfDigits {cs : List Char} (h : natOfDigits cs = 0) : gather 0 cs = (0, 0) := by
  have hfold : ∀ n, cs.foldl (fun n c => n * 10 + digit c) n = 0 → n = 0 ∧ gather 0 cs = (0, 0) := by
    clear h
    induction cs with
    | nil => exact fun n h => ⟨h, rfl⟩
    | cons c cs ih =>
        intro n h
        obtain ⟨hzero, hgather⟩ := ih (n * 10 + digit c) h
        have hdigit : digit c = 0 := by omega
        refine ⟨by omega, ?_⟩
        rw [gather, hdigit]
        exact hgather
  exact (hfold 0 h).2

/-- A whole numeral has a whole value, or it is the negative zero. -/
theorem IsWhole.value? {n : Numeral} (h : n.IsWhole) :
    n.value? = some (.int n.int) ∨ n.value? = some (.float .negZero) := by
  obtain ⟨negative, whole, fraction, exponent⟩ := n
  obtain ⟨hfraction, hexponent, hrange⟩ := h
  cases hfraction
  cases hexponent
  unfold Json.IntRange int at hrange
  cases negative with
  | false =>
      have hle : natOfDigits whole ≤ maxWord := by
        simp only [Bool.false_eq_true, if_false] at hrange
        rw [maxWord]
        omega
      left
      simp [Numeral.value?, int, hle]
  | true =>
      simp only [if_true] at hrange
      by_cases hzero : natOfDigits whole = 0
      · right
        have hdouble : double? ⟨true, whole, none, none⟩ = some .negZero := by
          simp only [double?, gather_of_natOfDigits hzero, Option.getD_none, power]
          decide
        simp [Numeral.value?, hzero, hdouble]
      · left
        have hle : natOfDigits whole ≤ 9223372036854775808 := by omega
        simp [Numeral.value?, int, hzero, hle]

end Numeral

/-- A number, if it is one, is whole and in range. -/
def Token.Whole : Token → Prop
  | .number n => n.IsWhole
  | _ => True

/-! ### Tokens -/

namespace Json

mutual

/-- The tokens of a value; its doubles are taken to be the negative zero. -/
def tokens : Json → List Token
  | .null => [.null]
  | .bool b => [.bool b]
  | .int n => [.number (.ofInt n)]
  | .float _ => [.number .negZero]
  | .str s => [.str (.ok s)]
  | .arr [] => [.openArr, .closeArr]
  | .arr (j :: js) => .openArr :: (j.tokens ++ itemTokens js)
  | .obj [] => [.openObj, .closeObj]
  | .obj ((k, j) :: es) => .openObj :: .str (.ok k) :: .colon :: (j.tokens ++ entryTokens es)

/-- The tokens of the further items of an array and of its end. -/
def itemTokens : List Json → List Token
  | [] => [.closeArr]
  | j :: js => .comma :: (j.tokens ++ itemTokens js)

/-- The tokens of the further entries of an object and of its end. -/
def entryTokens : List (String × Json) → List Token
  | [] => [.closeObj]
  | (k, j) :: es => .comma :: .str (.ok k) :: .colon :: (j.tokens ++ entryTokens es)

end

end Json

namespace Token

/-- The text does not go on with a number that ends before it. -/
def stops : List Char → Bool
  | [] => false
  | c :: _ => !(isDigit c || c == '.' || c == 'e' || c == 'E')

theorem stops_append {cs : List Char} (h : stops cs = true) (rest : List Char) :
    stops (cs ++ rest) = true := by
  cases cs with
  | nil => cases h
  | cons c cs => exact h

/-- Wherever the text stands, the scanner makes it these tokens and is then between tokens. -/
def Emits (cs : List Char) (ts : List Token) : Prop :=
  ∀ line rest, stops rest = true → ∃ (ps : List Placed) (line' : Nat),
    scanFrom line .between (cs ++ rest) = ps ++ scanFrom line' .between rest ∧
      ps.map Placed.token = ts

theorem emits_nil : Emits [] [] := fun line _ _ => ⟨[], line, rfl, rfl⟩

theorem Emits.append {cs cs' : List Char} {ts ts' : List Token} (h : Emits cs ts)
    (h' : Emits cs' ts') (hstops : stops cs' = true) : Emits (cs ++ cs') (ts ++ ts') := by
  intro line rest hrest
  obtain ⟨ps, mid, hps, hts⟩ := h line (cs' ++ rest) (stops_append hstops rest)
  obtain ⟨ps', line', hps', hts'⟩ := h' mid rest hrest
  refine ⟨ps ++ ps', line', ?_, ?_⟩
  · rw [List.append_assoc, hps, hps', List.append_assoc]
  · rw [List.map_append, hts, hts']

/-- A character that is a token, and what comes after it. -/
theorem Emits.cons {c : Char} {t : Token} (hstart : ∀ line, start line c = ([⟨line, t⟩], .between))
    {cs : List Char} {ts : List Token} (h : Emits cs ts) : Emits (c :: cs) (t :: ts) := by
  intro line rest hrest
  obtain ⟨ps, line', hps, hts⟩ := h (if c == '\n' then line + 1 else line) rest hrest
  refine ⟨⟨line, t⟩ :: ps, line', ?_, ?_⟩
  · rw [List.cons_append, scanFrom, Mode.step, hstart]
    exact congrArg (⟨line, t⟩ :: ·) hps
  · rw [List.map_cons, hts]

theorem Emits.blank {c : Char} (hc : isBlank c = true) {cs : List Char} {ts : List Token}
    (h : Emits cs ts) : Emits (c :: cs) ts := by
  intro line rest hrest
  obtain ⟨ps, line', hps, hts⟩ := h (if c == '\n' then line + 1 else line) rest hrest
  refine ⟨ps, line', ?_, hts⟩
  rw [List.cons_append, scanFrom, Mode.step, start, if_pos hc]
  exact hps

theorem Emits.newline (level : Nat) {cs : List Char} {ts : List Token} (h : Emits cs ts) :
    Emits (Json.newline level ++ cs) ts := by
  have hblanks : ∀ n, Emits (List.replicate n ' ' ++ cs) ts := by
    intro n
    induction n with
    | zero => exact h
    | succ n ih => exact Emits.blank (by decide) ih
  exact Emits.blank (by decide) (hblanks _)

/-! ### Words -/

theorem emits_null : Emits ['n', 'u', 'l', 'l'] [.null] :=
  fun line _ _ => ⟨[⟨line, .null⟩], line, rfl, rfl⟩

theorem emits_word (b : Bool) : Emits (Json.word b) [.bool b] := by
  cases b
  · exact fun line _ _ => ⟨[⟨line, .bool false⟩], line, rfl, rfl⟩
  · exact fun line _ _ => ⟨[⟨line, .bool true⟩], line, rfl, rfl⟩

/-! ### Strings -/

theorem hexDigit?_hexChar : ∀ k < 16,
    hexDigit? (Json.hexChar k) = some k ∧ (Json.hexChar k == '\n') = false := by
  decide

/-- A control character is written with its number. -/
theorem scan_control {c : Char} (hc : c.toNat < 0x20) (line : Nat) (t : Text) (rest : List Char) :
    scanFrom line (.text t) (['\\', 'u', '0', '0', Json.hexChar (c.toNat / 16),
      Json.hexChar (c.toNat % 16)] ++ rest) = scanFrom line (.text (t.push c)) rest := by
  obtain ⟨hhigh, hhigh'⟩ := hexDigit?_hexChar (c.toNat / 16) (by omega)
  obtain ⟨hlow, hlow'⟩ := hexDigit?_hexChar (c.toNat % 16) (by omega)
  have hvalue : c.toNat / 16 * 16 + c.toNat % 16 = c.toNat := by omega
  have hnotHigh : isHighSurrogate c.toNat = false := by
    simp [isHighSurrogate]
    omega
  have hnotLow : isLowSurrogate c.toNat = false := by
    simp [isLowSurrogate]
    omega
  have hzero : hexDigit? '0' = some 0 := by decide
  simp [scanFrom, Mode.step, inText, inEscape, hzero, hhigh, hhigh', hlow, hlow', hvalue, unicode,
    hnotHigh, hnotLow]

/-- What stands for a character in a string is read as the character. -/
theorem scan_escapeChar (c : Char) (line : Nat) (t : Text) (rest : List Char) :
    scanFrom line (.text t) (Json.escapeChar c ++ rest) = scanFrom line (.text (t.push c)) rest := by
  unfold Json.escapeChar
  by_cases h₁ : c == '"'
  · rw [if_pos h₁, eq_of_beq h₁]
    rfl
  rw [if_neg h₁]
  by_cases h₂ : c == '\\'
  · rw [if_pos h₂, eq_of_beq h₂]
    rfl
  rw [if_neg h₂]
  by_cases h₃ : c == '\x08'
  · rw [if_pos h₃, eq_of_beq h₃]
    rfl
  rw [if_neg h₃]
  by_cases h₄ : c == '\t'
  · rw [if_pos h₄, eq_of_beq h₄]
    rfl
  rw [if_neg h₄]
  by_cases h₅ : c == '\n'
  · rw [if_pos h₅, eq_of_beq h₅]
    rfl
  rw [if_neg h₅]
  by_cases h₆ : c == '\x0c'
  · rw [if_pos h₆, eq_of_beq h₆]
    rfl
  rw [if_neg h₆]
  by_cases h₇ : c == '\r'
  · rw [if_pos h₇, eq_of_beq h₇]
    rfl
  rw [if_neg h₇]
  by_cases h₈ : c.toNat < 0x20
  · rw [if_pos h₈]
    exact scan_control h₈ line t rest
  rw [if_neg h₈]
  simp [scanFrom, Mode.step, inText, h₁, h₂, h₅, h₈]

theorem scan_escaped (cs : List Char) (line : Nat) (t : Text) (rest : List Char) :
    scanFrom line (.text t) (cs.flatMap Json.escapeChar ++ rest) =
      scanFrom line (.text { t with chars := cs.reverse ++ t.chars }) rest := by
  induction cs generalizing t with
  | nil => rfl
  | cons c cs ih =>
      rw [List.flatMap_cons, List.append_assoc, scan_escapeChar, ih]
      simp [Text.push]

theorem emits_quoted (s : String) : Emits (Json.quoted s) [.str (.ok s)] := by
  intro line rest _
  refine ⟨[⟨line, .str (.ok s)⟩], line, ?_, rfl⟩
  have hopen : scanFrom line .between (Json.quoted s ++ rest) =
      scanFrom line (.text ⟨line, [], none⟩) (s.toList.flatMap Json.escapeChar ++ '"' :: rest) := by
    rw [Json.quoted, List.cons_append, List.append_assoc]
    rfl
  have hclose : ∀ chars, scanFrom line (.text ⟨line, chars, none⟩) ('"' :: rest) =
      ⟨line, .str (.ok (String.ofList chars.reverse))⟩ :: scanFrom line .between rest :=
    fun _ => rfl
  rw [hopen, scan_escaped, hclose]
  simp

/-! ### Numbers -/

theorem beq_of_isDigit {c c' : Char} (h : isDigit c = true) (h' : isDigit c' = false) :
    (c == c') = false := by
  rw [beq_eq_false_iff_ne]
  rintro rfl
  rw [h] at h'
  cases h'

/-- A number ends at a character that does not belong to it. -/
theorem scan_numberThen {first line : Nat} {n : Numeral} {mode : Mode} {rest : List Char}
    (hrest : stops rest = true)
    (hstep : ∀ next c, stops [c] = true → mode.step line next c = numberThen first n line c) :
    scanFrom line mode rest = ⟨first, .number n⟩ :: scanFrom line .between rest := by
  cases rest with
  | nil => cases hrest
  | cons c cs =>
      rw [scanFrom, hstep _ c hrest]
      rfl

/-- The digits of a number, by induction over those still to come. -/
theorem scan_whole {line first : Nat} {negative : Bool} {digits acc rest : List Char}
    (hdigits : ∀ c ∈ digits, isDigit c = true) (hrest : stops rest = true) :
    scanFrom line (.whole first negative acc) (digits ++ rest) =
      ⟨first, .number ⟨negative, acc.reverse ++ digits, none, none⟩⟩ ::
        scanFrom line .between rest := by
  induction digits generalizing acc with
  | nil =>
      rw [List.append_nil]
      refine scan_numberThen hrest fun next c hc => ?_
      simp only [stops, Bool.not_eq_true', Bool.or_eq_false_iff] at hc
      simp [Mode.step, wholeThen, hc]
  | cons c digits ih =>
      rw [List.forall_mem_cons] at hdigits
      have hline : (c == '\n') = false := beq_of_isDigit hdigits.1 (by decide)
      rw [List.cons_append, scanFrom, Mode.step, if_pos hdigits.1, hline]
      have hacc : (c :: acc).reverse ++ digits = acc.reverse ++ c :: digits := by simp
      rw [← hacc]
      exact ih hdigits.2

/-- A digit other than zero starts a number. -/
theorem start_digit {c : Char} (hdigit : isDigit c = true) (hzero : c ≠ '0') (line : Nat) :
    start line c = ([], .whole line false [c]) := by
  have hne : ∀ c' : Char, isDigit c' = false → (c == c') = false :=
    fun c' hc' => beq_of_isDigit hdigit hc'
  simp [start, isBlank, hne ' ' (by decide), hne '\t' (by decide), hne '\n' (by decide),
    hne '\r' (by decide), hne '{' (by decide), hne '}' (by decide), hne '[' (by decide),
    hne ']' (by decide), hne ',' (by decide), hne ':' (by decide), hne '"' (by decide),
    hne '-' (by decide), hzero, hdigit]

theorem emits_decimal (n : Int) : Emits (Json.decimal n) [.number (.ofInt n)] := by
  intro line rest hrest
  refine ⟨[⟨line, .number (.ofInt n)⟩], line, ?_, rfl⟩
  rw [List.singleton_append]
  by_cases hzero : n = 0
  · subst hzero
    have hopen : scanFrom line .between (Json.decimal 0 ++ rest) =
        scanFrom line (.zero line false) rest := rfl
    rw [hopen]
    refine scan_numberThen hrest fun next c hc => ?_
    simp only [stops, Bool.not_eq_true', Bool.or_eq_false_iff] at hc
    simp [Mode.step, wholeThen, hc, Numeral.ofInt]
  · obtain ⟨c, cs, hdigits, -⟩ := exists_toDigits n.natAbs
    have hc : c ≠ '0' := by
      rintro rfl
      exact hzero (Int.natAbs_eq_zero.mp (eq_zero_of_toDigits hdigits))
    have hall : ∀ d ∈ c :: cs, isDigit d = true := by
      intro d hd
      rw [← hdigits] at hd
      exact isDigit_of_mem_toDigits hd
    rw [List.forall_mem_cons] at hall
    have hline : (c == '\n') = false := beq_of_isDigit hall.1 (by decide)
    have hwhole : ∀ negative, scanFrom line (.whole line negative [c]) (cs ++ rest) =
        ⟨line, .number ⟨negative, c :: cs, none, none⟩⟩ :: scanFrom line .between rest :=
      fun negative => scan_whole hall.2 hrest
    by_cases hneg : n < 0
    · have hopen : scanFrom line .between (Json.decimal n ++ rest) =
          scanFrom line (.whole line true [c]) (cs ++ rest) := by
        rw [Json.decimal, if_pos hneg, hdigits]
        simp [scanFrom, Mode.step, start, isBlank, hc, hall.1, hline]
      rw [hopen, hwhole]
      simp [Numeral.ofInt, hneg, hdigits]
    · have hopen : scanFrom line .between (Json.decimal n ++ rest) =
          scanFrom line (.whole line false [c]) (cs ++ rest) := by
        rw [Json.decimal, if_neg hneg, hdigits]
        simp [scanFrom, Mode.step, start_digit hall.1 hc, hline]
      rw [hopen, hwhole]
      simp [Numeral.ofInt, hneg, hdigits]

theorem emits_negZero : Emits Double.negZero.text.toList [.number .negZero] := by
  intro line rest hrest
  refine ⟨[⟨line, .number .negZero⟩], line, ?_, rfl⟩
  have htext : Double.negZero.text.toList = ['-', '0', '.', '0'] := by decide
  rw [htext, List.singleton_append]
  have hopen : scanFrom line .between (['-', '0', '.', '0'] ++ rest) =
      scanFrom line (.fraction line ⟨true, ['0'], none, none⟩ ['0']) rest := rfl
  rw [hopen]
  refine scan_numberThen hrest fun next c hc => ?_
  simp only [stops, Bool.not_eq_true', Bool.or_eq_false_iff] at hc
  simp [Mode.step, hc, Numeral.negZero]

end Token

/-! ### Values -/

namespace Json

open Token

theorem stops_prettyItems (level : Nat) (js : List Json) : stops (prettyItems level js) = true := by
  cases js <;> rfl

theorem stops_prettyEntries (level : Nat) (es : List (String × Json)) :
    stops (prettyEntries level es) = true := by
  cases es <;> rfl

theorem emits_items {level : Nat} {js : List Json}
    (h : ∀ j ∈ js, Emits (prettyChars (level + 1) j) j.tokens) :
    Emits (prettyItems level js) (itemTokens js) := by
  induction js with
  | nil => exact Emits.newline level (emits_nil.cons fun _ => rfl)
  | cons j js ih =>
      rw [List.forall_mem_cons] at h
      have hrest := h.1.append (ih h.2) (stops_prettyItems level js)
      rw [prettyItems, itemTokens, List.append_assoc]
      exact (hrest.newline (level + 1)).cons fun _ => rfl

/-- A key, its value and what comes after them. -/
theorem emits_entry {level : Nat} {k : String} {j : Json} {cs : List Char} {ts : List Token}
    (h : Emits (prettyChars level j) j.tokens) (hrest : Emits cs ts) (hstops : stops cs = true) :
    Emits (newline level ++ quoted k ++ [':', ' '] ++ prettyChars level j ++ cs)
      (.str (.ok k) :: .colon :: (j.tokens ++ ts)) := by
  have hvalue : Emits (':' :: ' ' :: (prettyChars level j ++ cs)) (.colon :: (j.tokens ++ ts)) :=
    ((h.append hrest hstops).blank (by decide)).cons fun _ => rfl
  have hkey := ((emits_quoted k).append hvalue rfl).newline level
  simpa using hkey

theorem emits_entries {level : Nat} {es : List (String × Json)}
    (h : ∀ e ∈ es, Emits (prettyChars (level + 1) e.2) e.2.tokens) :
    Emits (prettyEntries level es) (entryTokens es) := by
  induction es with
  | nil => exact Emits.newline level (emits_nil.cons fun _ => rfl)
  | cons e es ih =>
      rw [List.forall_mem_cons] at h
      have hentry := emits_entry (k := e.1) h.1 (ih h.2) (stops_prettyEntries level es)
      exact hentry.cons fun _ => rfl

/-- The indented text of a value is scanned as its tokens. -/
theorem emits (j : Json) (h : j.Whole) (level : Nat) : Emits (prettyChars level j) j.tokens := by
  induction j using Json.induct generalizing level with
  | null => exact emits_null
  | bool b => exact emits_word b
  | int n => exact emits_decimal n
  | float x =>
      cases h
      exact emits_negZero
  | str s => exact emits_quoted s
  | arr items ih =>
      have hitems := wholeItems_iff.mp h
      cases items with
      | nil => exact (emits_nil.cons fun _ => rfl).cons fun _ => rfl
      | cons j js =>
          rw [List.forall_mem_cons] at ih hitems
          have hrest := emits_items fun j hj => ih.2 j hj (hitems.2 j hj) (level + 1)
          have hall := (ih.1 hitems.1 (level + 1)).append hrest (stops_prettyItems level js)
          rw [prettyChars, tokens, List.append_assoc]
          exact (hall.newline (level + 1)).cons fun _ => rfl
  | obj es ih =>
      have hentries := wholeEntries_iff.mp h
      cases es with
      | nil => exact (emits_nil.cons fun _ => rfl).cons fun _ => rfl
      | cons e es =>
          rw [List.forall_mem_cons] at ih hentries
          have hrest := emits_entries fun e he => ih.2 e he (hentries.2 e he) (level + 1)
          have hall := emits_entry (k := e.1) (ih.1 hentries.1 (level + 1)) hrest
            (stops_prettyEntries level es)
          exact hall.cons fun _ => rfl

/-- The tokens of an indented text that ends with a line break. -/
theorem scan_pretty {j : Json} (h : j.Whole) : ∃ (ps : List Placed) (line : Nat),
    Token.scan (j.pretty ++ "\n") = ps ++ [⟨line, .eof⟩] ∧ ps.map Placed.token = j.tokens := by
  obtain ⟨ps, line, hps, hts⟩ := j.emits h 0 1 ['\n'] rfl
  refine ⟨ps, line + 1, ?_, hts⟩
  have htext : (j.pretty ++ "\n").toList = j.prettyChars 0 ++ ['\n'] := by
    simp [pretty]
  rw [Token.scan, htext, hps]
  rfl

end Json

end ShapedQuery
