import ShapedQuery.Proofs.Decimal
import ShapedQuery.Sql.Piece

/-! # A lexer for SQL

A machine that reads SQL one character at a time and finds its tokens: quoted names and string
literals, in which a doubled quote stands for one; placeholders `$n`; words and numbers; and
single symbols.  White space separates tokens.  A comment begins with two dashes and ends at the
next line feed or carriage return, or stands between `/*` and `*/`.

`Lexer.tokens?` gives the tokens of a text, or nothing if the text ends inside a quote or a
comment.  Names, literals and placeholders are its *marks*: what a statement says beyond its own
fixed words.

The second half says how rows of pieces are read.  `Lexer.Reads ps ms` means that the marks of the
row `ps` are `ms`, both at the end of the text and in front of a character that cannot continue a
token, and `Lexer.Follows ps ms` that the row moreover begins with such a character;
`Reads.append` puts rows together. -/

namespace ShapedQuery

namespace Lexer

/-! ### Tokens -/

/-- What a statement names: a quoted name, a string literal or a placeholder. -/
inductive Mark where
  | name (text : String)
  | literal (text : String)
  | placeholder (index : Nat)
  deriving DecidableEq

inductive Token where
  | mark (m : Mark)
  /-- A keyword, the name of a function or type, or a number. -/
  | word (text : String)
  | symbol (c : Char)
  deriving DecidableEq

def Token.mark? : Token → Option Mark
  | .mark m => some m
  | _ => none

/-- The marks among the tokens, in order. -/
def marks (ts : List Token) : List Mark := ts.filterMap Token.mark?

/-- The two kinds of quotes: around names, and around literals. -/
inductive Quote where
  | double
  | single
  deriving DecidableEq

namespace Quote

def char : Quote → Char
  | .double => '"'
  | .single => '\x27'

/-- What stands between two quotes. -/
def mark (text : String) : Quote → Mark
  | .double => .name text
  | .single => .literal text

end Quote

/-! ### The machine -/

/-- Where the machine is.  What has been read of a token is kept, last character first. -/
inductive Mode where
  /-- Between tokens. -/
  | start
  | word (read : List Char)
  /-- Behind a dollar sign. -/
  | dollar
  /-- In the number of a placeholder. -/
  | digits (read : Nat)
  | quoted (q : Quote) (read : List Char)
  /-- Behind a quote inside quotes: the end, or the first of two. -/
  | quote (q : Quote) (read : List Char)
  | dash
  | slash
  | lineComment
  | comment
  /-- Behind a star in a comment. -/
  | commentStar
  deriving DecidableEq

/-- A letter, a digit or an underscore. -/
def isWordChar (c : Char) : Bool := c.isAlphanum || c == '_'

/-- The first character of a token. -/
def enter (c : Char) : Mode × List Token :=
  if c = '"' then (.quoted .double [], [])
  else if c = '\x27' then (.quoted .single [], [])
  else if c = '$' then (.dollar, [])
  else if c = '-' then (.dash, [])
  else if c = '/' then (.slash, [])
  else if isWordChar c then (.word [c], [])
  else if c.isWhitespace then (.start, [])
  else (.start, [.symbol c])

/-- The first character behind a token. -/
def leave (t : Token) (c : Char) : Mode × List Token := ((enter c).1, t :: (enter c).2)

def wordToken (read : List Char) : Token := .word (String.ofList read.reverse)

def quotedToken (q : Quote) (read : List Char) : Token :=
  .mark (q.mark (String.ofList read.reverse))

/-- Read one character: the next mode, and the tokens that are complete. -/
def step : Mode → Char → Mode × List Token
  | .start, c => enter c
  | .word read, c =>
    if isWordChar c || c == '$' then (.word (c :: read), []) else leave (wordToken read) c
  | .dollar, c =>
    if c.isDigit then (.digits (c.toNat - '0'.toNat), []) else leave (.symbol '$') c
  | .digits read, c =>
    if c.isDigit then (.digits (10 * read + (c.toNat - '0'.toNat)), [])
    else leave (.mark (.placeholder read)) c
  | .quoted q read, c => if c = q.char then (.quote q read, []) else (.quoted q (c :: read), [])
  | .quote q read, c =>
    if c = q.char then (.quoted q (c :: read), []) else leave (quotedToken q read) c
  | .dash, c => if c = '-' then (.lineComment, []) else leave (.symbol '-') c
  | .slash, c => if c = '*' then (.comment, []) else leave (.symbol '/') c
  | .lineComment, c => if c = '\n' ∨ c = '\r' then (.start, []) else (.lineComment, [])
  | .comment, c => if c = '*' then (.commentStar, []) else (.comment, [])
  | .commentStar, c =>
    if c = '/' then (.start, []) else if c = '*' then (.commentStar, []) else (.comment, [])

/-- The token that ends with the text; nothing inside a quote or a comment. -/
def finish : Mode → Option (List Token)
  | .start => some []
  | .word read => some [wordToken read]
  | .dollar => some [.symbol '$']
  | .digits read => some [.mark (.placeholder read)]
  | .quoted _ _ => none
  | .quote q read => some [quotedToken q read]
  | .dash => some [.symbol '-']
  | .slash => some [.symbol '/']
  | .lineComment => none
  | .comment => none
  | .commentStar => none

/-- Read characters one after the other. -/
def scan (m : Mode) : List Char → Mode × List Token
  | [] => (m, [])
  | c :: cs => ((scan (step m c).1 cs).1, (step m c).2 ++ (scan (step m c).1 cs).2)

/-- The tokens of a text, unless it ends inside a quote or a comment. -/
def tokens? (text : String) : Option (List Token) :=
  (finish (scan .start text.toList).1).map fun ts => (scan .start text.toList).2 ++ ts

example : (tokens? "SELECT \"a\"\"b\"->>'it''s' -- $1 '\n = $12").map marks =
    some [.name "a\"b", .literal "it's", .placeholder 12] := by decide

example : tokens? "SELECT 'a" = none := by decide

theorem scan_append (m : Mode) (cs ds : List Char) :
    scan m (cs ++ ds) =
      ((scan (scan m cs).1 ds).1, (scan m cs).2 ++ (scan (scan m cs).1 ds).2) := by
  induction cs generalizing m with
  | nil => rfl
  | cons c cs ih => simp only [List.cons_append, scan, ih, List.append_assoc]

/-! ### Tokens that are complete -/

/-- A character that can continue no token that is complete without it. -/
def breaks (c : Char) : Bool := !isWordChar c && c != '$' && c != '"' && c != '\x27'

/-- The machine has read all of a token, `ts`: the token is there at the end of the text, and in
front of a character that cannot continue it. -/
structure Settled (m : Mode) (ts : List Token) : Prop where
  finish : finish m = some ts
  step : ∀ c, breaks c = true → step m c = ((enter c).1, ts ++ (enter c).2)

theorem settled_start : Settled .start [] := ⟨rfl, fun _ _ => rfl⟩

theorem settled_word (read : List Char) : Settled (.word read) [wordToken read] := by
  refine ⟨rfl, fun c hc => ?_⟩
  simp only [breaks, Bool.and_eq_true, Bool.not_eq_true', bne_iff_ne] at hc
  obtain ⟨⟨⟨hw, hd⟩, -⟩, -⟩ := hc
  have hcont : (isWordChar c || c == '$') = false := by simp [hw, hd]
  simp only [Lexer.step, hcont]
  rfl

theorem settled_digits (n : Nat) : Settled (.digits n) [.mark (.placeholder n)] := by
  refine ⟨rfl, fun c hc => ?_⟩
  have hdigit : c.isDigit = false := by
    simp only [breaks, isWordChar, Char.isAlphanum, Bool.and_eq_true, Bool.not_eq_true',
      Bool.or_eq_false_iff] at hc
    exact hc.1.1.1.1.2
  simp only [Lexer.step, hdigit]
  rfl

theorem settled_quote (q : Quote) (read : List Char) :
    Settled (.quote q read) [quotedToken q read] := by
  refine ⟨rfl, fun c hc => ?_⟩
  have hq : c ≠ q.char := by
    simp only [breaks, Bool.and_eq_true, bne_iff_ne] at hc
    cases q with
    | double => exact hc.1.2
    | single => exact hc.2
  simp only [Lexer.step, if_neg hq]
  rfl

/-! ### Rows of pieces -/

/-- The marks of a row of pieces, which ends with a complete token. -/
def Reads (ps : List Piece) (ms : List Mark) : Prop :=
  ∃ ts, Settled (scan .start (ps.flatMap Piece.chars)).1 ts ∧
    marks ((scan .start (ps.flatMap Piece.chars)).2 ++ ts) = ms

/-- A row that is empty or begins with a character that continues no token. -/
def Opens (ps : List Piece) : Prop := (ps.flatMap Piece.chars).head?.all breaks = true

/-- The marks of a row that may stand behind a complete token. -/
structure Follows (ps : List Piece) (ms : List Mark) : Prop where
  reads : Reads ps ms
  opens : Opens ps

/-- A text that begins with a character that continues no token. -/
def BreaksOff (text : String) : Prop := text.toList.head?.any breaks = true

instance (text : String) : Decidable (BreaksOff text) := inferInstanceAs (Decidable (_ = true))

/-- A row behind which a new token begins, without marks. -/
def Closes (ps : List Piece) : Prop :=
  (scan .start (ps.flatMap Piece.chars)).1 = .start ∧
    marks (scan .start (ps.flatMap Piece.chars)).2 = []

instance (ps : List Piece) : Decidable (Closes ps) := inferInstanceAs (Decidable (_ ∧ _))

/-- A row that ends with a word or between tokens, without marks. -/
def Ends (ps : List Piece) : Prop :=
  (match (scan .start (ps.flatMap Piece.chars)).1 with
    | .start => true
    | .word _ => true
    | _ => false) = true ∧ marks (scan .start (ps.flatMap Piece.chars)).2 = []

instance (ps : List Piece) : Decidable (Ends ps) := inferInstanceAs (Decidable (_ ∧ _))

section rows

variable {ps qs : List Piece} {ms ns : List Mark}

theorem marks_append (ts us : List Token) : marks (ts ++ us) = marks ts ++ marks us :=
  List.filterMap_append

theorem Reads.tokens? (h : Reads ps ms) : (tokens? (Piece.text ps)).map marks = some ms := by
  obtain ⟨ts, hsettled, hmarks⟩ := h
  rw [Lexer.tokens?, Piece.text, String.toList_ofList, hsettled.finish, Option.map_some,
    Option.map_some, hmarks]

theorem reads_nil : Reads [] [] := ⟨[], settled_start, rfl⟩

/-- Two rows, the second of which cannot continue the last token of the first. -/
theorem Reads.append (h : Reads ps ms) (h' : Follows qs ns) : Reads (ps ++ qs) (ms ++ ns) := by
  obtain ⟨ts, hsettled, rfl⟩ := h
  obtain ⟨⟨us, hsettled', rfl⟩, ho⟩ := h'
  unfold Reads
  rw [List.flatMap_append, scan_append]
  unfold Opens at ho
  cases hq : qs.flatMap Piece.chars with
  | nil =>
      rw [hq] at hsettled'
      have hus : us = [] := Option.some.inj hsettled'.finish.symm
      subst hus
      exact ⟨ts, hsettled, by simp [scan, marks]⟩
  | cons c cs =>
      -- `c` ends the last token of the first row and is then read as if at the start
      rw [hq] at hsettled' ho
      have hstep := hsettled.step c ho
      have hstart : step .start c = enter c := rfl
      refine ⟨us, ?_, ?_⟩
      · simp only [scan, hstep, hstart] at hsettled' ⊢
        exact hsettled'
      · simp only [scan, hstep, hstart, List.append_assoc, marks_append]

/-- A row in front of which nothing is open. -/
theorem Reads.after (hp : Closes ps) (h : Reads qs ns) : Reads (ps ++ qs) ns := by
  obtain ⟨ts, hsettled, hmarks⟩ := h
  refine ⟨ts, ?_, ?_⟩
  · rwa [List.flatMap_append, scan_append, hp.1]
  · rw [List.flatMap_append, scan_append, hp.1, List.append_assoc, marks_append, hp.2]
    exact hmarks

theorem Ends.reads (h : Ends ps) : Reads ps [] := by
  obtain ⟨hmode, hmarks⟩ := h
  unfold Reads
  cases hm : (scan .start (ps.flatMap Piece.chars)).1 with
  | start => exact ⟨[], settled_start, by rw [List.append_nil, hmarks]⟩
  | word read => exact ⟨[wordToken read], settled_word read, by rw [marks_append, hmarks]; rfl⟩
  | _ =>
      rw [hm] at hmode
      cases hmode

theorem Opens.append (h : Opens ps) (h' : Opens qs) : Opens (ps ++ qs) := by
  unfold Opens at *
  rw [List.flatMap_append, List.head?_append]
  cases hp : (ps.flatMap Piece.chars).head? with
  | none => exact h'
  | some c =>
      rw [hp] at h
      exact h

theorem Opens.cons {text : String} (h : BreaksOff text) : Opens (.plain text :: qs) := by
  unfold BreaksOff at h
  unfold Opens
  rw [List.flatMap_cons, List.head?_append, Piece.chars]
  cases hp : text.toList.head? with
  | none =>
      rw [hp] at h
      cases h
  | some c =>
      rw [hp] at h
      exact h

theorem Reads.cons {p : Piece} (hp : Closes [p]) (h : Reads qs ns) : Reads (p :: qs) ns :=
  Reads.after hp h

/-- A row behind a plain text. -/
theorem Reads.behind (h : Reads qs ns) (text : String) (ho : BreaksOff text)
    (hc : Closes [.plain text]) : Follows (.plain text :: qs) ns :=
  ⟨h.cons hc, Opens.cons ho⟩

/-- Two rows with a plain text between them. -/
theorem Reads.between (h : Reads ps ms) (text : String) (ho : BreaksOff text)
    (hc : Closes [.plain text]) (h' : Reads qs ns) : Reads (ps ++ .plain text :: qs) (ms ++ ns) :=
  h.append (h'.behind text ho hc)

/-- A row in front of one without marks. -/
theorem Reads.trailed (h : Reads ps ms) {text : String} (ho : BreaksOff text)
    (he : Ends (.plain text :: qs)) : Reads (ps ++ .plain text :: qs) ms := by
  have := h.append ⟨he.reads, Opens.cons ho⟩
  rwa [List.append_nil] at this

/-- A row in front of a plain text. -/
theorem Reads.close (h : Reads ps ms) (text : String) (ho : BreaksOff text)
    (he : Ends [.plain text]) : Reads (ps ++ [.plain text]) ms :=
  h.trailed ho he

/-- A row between two plain texts. -/
theorem Reads.within (h : Reads ps ms) {opening closing : String} (hc : Closes [.plain opening])
    (ho : BreaksOff closing) (he : Ends [.plain closing]) :
    Reads (.plain opening :: (ps ++ [.plain closing])) ms :=
  (h.close closing ho he).cons hc

theorem reads_separated {α : Type} (text : String) (ho : BreaksOff text) (hc : Closes [.plain text])
    {f : α → List Piece} {g : α → List Mark} {xs : List α} (h : ∀ x ∈ xs, Reads (f x) (g x)) :
    Reads (Piece.separated text (xs.map f)) (xs.flatMap g) := by
  induction xs with
  | nil => exact reads_nil
  | cons x xs ih =>
      rw [List.forall_mem_cons] at h
      cases xs with
      | nil =>
          rw [List.flatMap_singleton]
          exact h.1
      | cons y ys => exact h.1.between text ho hc (ih h.2)

theorem follows_nil : Follows [] [] := ⟨reads_nil, rfl⟩

theorem follows_flatMap {α : Type} {f : α → List Piece} {g : α → List Mark} {xs : List α}
    (h : ∀ x ∈ xs, Follows (f x) (g x)) : Follows (xs.flatMap f) (xs.flatMap g) := by
  induction xs with
  | nil => exact follows_nil
  | cons x xs ih =>
      rw [List.forall_mem_cons] at h
      rw [List.flatMap_cons, List.flatMap_cons]
      exact ⟨h.1.reads.append (ih h.2), h.1.opens.append (ih h.2).opens⟩

end rows

/-! ### Single pieces -/

theorem enter_quote (q : Quote) : enter q.char = (.quoted q [], []) := by
  cases q <;> rfl

theorem scan_doubled (q : Quote) (read cs : List Char) :
    scan (.quoted q read) (Piece.doubled q.char cs) = (.quoted q (cs.reverse ++ read), []) := by
  induction cs generalizing read with
  | nil => rfl
  | cons c cs ih =>
      rw [Piece.doubled]
      split
      · rename_i hc
        subst hc
        simp [scan, step, ih]
      · rename_i hc
        simp [scan, step, hc, ih]

/-- What stands between quotes is read back as it was. -/
theorem reads_quoted {p : Piece} (q : Quote) {text : String}
    (hp : p.chars = Piece.quotedBy q.char text) : Reads [p] [q.mark text] := by
  have hscan : scan .start ([p].flatMap Piece.chars) = (.quote q text.toList.reverse, []) := by
    have hstart : step .start q.char = enter q.char := rfl
    rw [List.flatMap_singleton, hp, Piece.quotedBy, scan, hstart, enter_quote, scan_append,
      scan_doubled]
    simp [scan, step]
  refine ⟨[quotedToken q text.toList.reverse], ?_, ?_⟩
  · rw [hscan]
    exact settled_quote q _
  · rw [hscan]
    simp [marks, quotedToken, Token.mark?]

theorem reads_name (text : String) : Reads [.name text] [.name text] :=
  reads_quoted .double rfl

theorem reads_literal (text : String) : Reads [.literal text] [.literal text] :=
  reads_quoted .single rfl

theorem scan_digits (n : Nat) {cs : List Char} (h : ∀ c ∈ cs, c.isDigit = true) :
    scan (.digits n) cs = (.digits (Nat.ofDigitChars 10 cs n), []) := by
  induction cs generalizing n with
  | nil => rfl
  | cons c cs ih =>
      rw [List.forall_mem_cons] at h
      simp only [scan, step, h.1, if_true, ih _ h.2]
      rfl

theorem reads_placeholder (n : Nat) : Reads [.placeholder n] [.placeholder n] := by
  have hdigits : ∀ c ∈ Nat.toDigits 10 n, c.isDigit = true := fun _ => isDigit_of_mem_toDigits
  have hvalue := Nat.ofDigitChars_ten_toDigits (n := n)
  have hscan : scan .start ([Piece.placeholder n].flatMap Piece.chars) = (.digits n, []) := by
    rw [List.flatMap_singleton, Piece.chars]
    obtain ⟨c, cs, hd, hfirst⟩ := exists_toDigits n
    rw [hd] at hdigits hvalue ⊢
    rw [List.forall_mem_cons] at hdigits
    have hdollar : step .start '$' = (.dollar, []) := rfl
    have hstep : step .dollar c = (.digits (c.toNat - '0'.toNat), []) := by simp [step, hfirst]
    have hrest : Nat.ofDigitChars 10 cs (c.toNat - '0'.toNat) = n := by
      rw [Nat.ofDigitChars_cons, Nat.mul_zero, Nat.zero_add] at hvalue
      exact hvalue
    simp only [scan, hdollar, hstep, scan_digits _ hdigits.2, hrest, List.append_nil]
  refine ⟨[.mark (.placeholder n)], ?_, ?_⟩
  · rw [hscan]
    exact settled_digits n
  · rw [hscan]
    rfl

theorem scan_word (read : List Char) {cs : List Char} (h : ∀ c ∈ cs, isWordChar c = true) :
    scan (.word read) cs = (.word (cs.reverse ++ read), []) := by
  induction cs generalizing read with
  | nil => rfl
  | cons c cs ih =>
      rw [List.forall_mem_cons] at h
      simp [scan, step, h.1, ih _ h.2]

theorem enter_wordChar {c : Char} (h : isWordChar c = true) : enter c = (.word [c], []) := by
  have hne : ∀ d, isWordChar d = false → c ≠ d := by
    rintro d hd rfl
    rw [hd] at h
    cases h
  simp [enter, h, hne '"' (by decide), hne '\x27' (by decide), hne '$' (by decide),
    hne '-' (by decide), hne '/' (by decide)]

/-- A plain text that is a word. -/
theorem ends_word {text : String} (hne : text.toList ≠ [])
    (h : ∀ c ∈ text.toList, isWordChar c = true) : Ends [.plain text] := by
  obtain ⟨c, cs, ht⟩ := List.exists_cons_of_ne_nil hne
  rw [ht, List.forall_mem_cons] at h
  have hstart : step .start c = (.word [c], []) := enter_wordChar h.1
  unfold Ends
  rw [List.flatMap_singleton, Piece.chars, ht]
  simp only [scan, hstart, scan_word _ h.2]
  exact ⟨trivial, rfl⟩

/-- A plain text that is a word behind a minus sign. -/
theorem ends_minus_word {text : String} {cs : List Char} (ht : text.toList = '-' :: cs)
    (hne : cs ≠ []) (h : ∀ c ∈ cs, isWordChar c = true) : Ends [.plain text] := by
  obtain ⟨c, cs, rfl⟩ := List.exists_cons_of_ne_nil hne
  rw [List.forall_mem_cons] at h
  have hstart : step .start '-' = (.dash, []) := rfl
  have hc : c ≠ '-' := by
    rintro rfl
    cases h.1
  have hdash : step .dash c = (.word [c], [.symbol '-']) := by
    simp only [step, if_neg hc, leave, enter_wordChar h.1]
  unfold Ends
  rw [List.flatMap_singleton, Piece.chars, ht]
  simp only [scan, hstart, hdash, scan_word _ h.2]
  exact ⟨trivial, rfl⟩

theorem scan_comment (cs : List Char) :
    scan .lineComment (cs.map Piece.commentChar) = (.lineComment, []) := by
  induction cs with
  | nil => rfl
  | cons c cs ih =>
      have hc : ¬ (Piece.commentChar c = '\n' ∨ Piece.commentChar c = '\r') := by
        unfold Piece.commentChar
        split
        · decide
        · assumption
      simp only [List.map_cons, scan, step, if_neg hc, ih]
      rfl

/-- A comment is over with its line. -/
theorem closes_comment (text : String) : Closes [.comment text] := by
  have hopen : scan .start ['-', '-', ' '] = (.lineComment, []) := rfl
  have hscan : scan .start ([Piece.comment text].flatMap Piece.chars) = (.start, []) := by
    rw [List.flatMap_singleton, Piece.chars, scan_append, scan_append, hopen, scan_comment]
    rfl
  unfold Closes
  rw [hscan]
  exact ⟨rfl, rfl⟩

end Lexer

end ShapedQuery
