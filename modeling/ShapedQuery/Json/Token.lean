import ShapedQuery.Json.Number

/-! # JSON tokens

`Token.scan` cuts a text into tokens, each with the line it starts on.  The scanner is a machine
that takes one character at a time: `Mode.step` says what a character does in each mode, and
`scanFrom` runs it over the text.  A character that cannot go on with the token at hand ends the
scan with a `broken` token; what comes after it does not matter, since no reader passes it.

A text can be read for its value or only be passed over.  The second asks for less: a string may
hold half of a surrogate pair and a number may be too large.  So a token keeps apart what is
wrong with its value from what is wrong with its form. -/

namespace ShapedQuery

/-- A piece of JSON text.  A string without a value has the line at which the value breaks off;
a broken token has the line at which a reader notices, and a broken string also the line at
which a reader that only passes over it does. -/
inductive Token where
  | openArr
  | closeArr
  | openObj
  | closeObj
  | comma
  | colon
  | null
  | bool (b : Bool)
  | number (n : Numeral)
  | str (value : Except Nat String)
  | stray
  | broken (line : Nat)
  | brokenStr (line skipped : Nat)
  | eof
  deriving Inhabited

namespace Token

/-- A token and the line it starts on. -/
structure Placed where
  line : Nat
  token : Token
  deriving Inhabited

/-! ### Characters -/

/-- Space, tab, line feed and carriage return separate tokens. -/
def isBlank (c : Char) : Bool := c == ' ' || c == '\t' || c == '\n' || c == '\r'

def isDigit (c : Char) : Bool := '0' ≤ c && c ≤ '9'

/-- The value of a hexadecimal digit of either case. -/
def hexDigit? (c : Char) : Option Nat :=
  if isDigit c then some (c.toNat - '0'.toNat)
  else if 'a' ≤ c && c ≤ 'f' then some (c.toNat - 'a'.toNat + 10)
  else if 'A' ≤ c && c ≤ 'F' then some (c.toNat - 'A'.toNat + 10)
  else none

/-- The character a backslash and one letter stand for. -/
def escaped? (c : Char) : Option Char :=
  if c == '"' || c == '\\' || c == '/' then some c
  else if c == 'b' then some '\x08'
  else if c == 'f' then some '\x0c'
  else if c == 'n' then some '\n'
  else if c == 'r' then some '\r'
  else if c == 't' then some '\t'
  else none

def isHighSurrogate (n : Nat) : Bool := 0xD800 ≤ n && n ≤ 0xDBFF

def isLowSurrogate (n : Nat) : Bool := 0xDC00 ≤ n && n ≤ 0xDFFF

/-- The character of a surrogate pair. -/
def ofSurrogates (high low : Nat) : Char :=
  Char.ofNat ((high - 0xD800) * 0x400 + (low - 0xDC00) + 0x10000)

/-! ### The machine -/

/-- The string under way: its first line, the characters so far (last first), and the line at
which its value broke off, if it did. -/
structure Text where
  line : Nat
  chars : List Char
  failed : Option Nat
  deriving Inhabited

namespace Text

def push (t : Text) (c : Char) : Text := { t with chars := c :: t.chars }

/-- The value breaks off at a line; only the first time counts. -/
def fail (t : Text) (line : Nat) : Text := { t with failed := some (t.failed.getD line) }

/-- The finished string. -/
def token (t : Text) : Placed :=
  ⟨t.line, .str (match t.failed with
    | some line => .error line
    | none => .ok (String.ofList t.chars.reverse))⟩

/-- The string breaks off in its form. -/
def broken (t : Text) (line skipped : Nat) : Placed :=
  ⟨t.line, .brokenStr (t.failed.getD line) skipped⟩

end Text

/-- What the scanner is in the middle of. -/
inductive Mode where
  /-- Between tokens. -/
  | between
  /-- In a word that starts on `line`, with the letters still to come. -/
  | word (line : Nat) (rest : List Char) (token : Token)
  /-- In a string. -/
  | text (t : Text)
  /-- After a backslash. -/
  | escape (t : Text)
  /-- In the digits of an escape: how many are to come, and the value so far. -/
  | hex (t : Text) (left value : Nat)
  /-- After the first half of a surrogate pair. -/
  | high (t : Text) (half : Nat)
  /-- After the first half of a surrogate pair and a backslash. -/
  | highEscape (t : Text) (half : Nat)
  /-- In the digits of what should be the second half. -/
  | low (t : Text) (half left value : Nat)
  /-- After a minus sign. -/
  | minus (line : Nat)
  /-- After a leading zero. -/
  | zero (line : Nat) (negative : Bool)
  /-- In the digits before the point, last first. -/
  | whole (line : Nat) (negative : Bool) (digits : List Char)
  /-- After the point. -/
  | point (line : Nat) (n : Numeral)
  /-- In the digits after the point, last first. -/
  | fraction (line : Nat) (n : Numeral) (digits : List Char)
  /-- After the mark of the exponent. -/
  | mark (line : Nat) (n : Numeral)
  /-- After the sign of the exponent. -/
  | sign (line : Nat) (n : Numeral) (negative : Bool)
  /-- In the digits of the exponent, last first. -/
  | exponent (line : Nat) (n : Numeral) (negative : Bool) (digits : List Char)
  /-- After a broken token. -/
  | stopped
  deriving Inhabited

/-- What a character gives: tokens that are complete, and the next mode. -/
abbrev Outcome := List Placed × Mode

/-- A character that starts a token or stands between tokens. -/
def start (line : Nat) (c : Char) : Outcome :=
  if isBlank c then ([], .between)
  else if c == '{' then ([⟨line, .openObj⟩], .between)
  else if c == '}' then ([⟨line, .closeObj⟩], .between)
  else if c == '[' then ([⟨line, .openArr⟩], .between)
  else if c == ']' then ([⟨line, .closeArr⟩], .between)
  else if c == ',' then ([⟨line, .comma⟩], .between)
  else if c == ':' then ([⟨line, .colon⟩], .between)
  else if c == '"' then ([], .text ⟨line, [], none⟩)
  else if c == '-' then ([], .minus line)
  else if c == '0' then ([], .zero line false)
  else if isDigit c then ([], .whole line false [c])
  else if c == 'n' then ([], .word line ['u', 'l', 'l'] .null)
  else if c == 't' then ([], .word line ['r', 'u', 'e'] (.bool true))
  else if c == 'f' then ([], .word line ['a', 'l', 's', 'e'] (.bool false))
  else ([⟨line, .stray⟩], .stopped)

/-- A number is complete, and the character after it is looked at again. -/
def numberThen (first : Nat) (n : Numeral) (line : Nat) (c : Char) : Outcome :=
  let (tokens, mode) := start line c
  (⟨first, .number n⟩ :: tokens, mode)

/-- The digits before the point are complete: a point or an exponent may follow. -/
def wholeThen (first : Nat) (negative : Bool) (digits : List Char) (line : Nat) (c : Char) :
    Outcome :=
  let n : Numeral := ⟨negative, digits, none, none⟩
  if c == '.' then ([], .point first n)
  else if c == 'e' || c == 'E' then ([], .mark first n)
  else numberThen first n line c

/-- A token that starts on `first` breaks off. -/
def breakOff (first line : Nat) : Outcome := ([⟨first, .broken line⟩], .stopped)

/-- The character in a string at line `line`; `next` is the line after it. -/
def inText (t : Text) (line next : Nat) (c : Char) : Outcome :=
  if c == '"' then ([t.token], .between)
  else if c == '\\' then ([], .escape t)
  else if c.toNat < 0x20 then ([t.broken next line], .stopped)
  else ([], .text (t.push c))

/-- The character after a backslash. -/
def inEscape (t : Text) (next : Nat) (c : Char) : Outcome :=
  if c == 'u' then ([], .hex t 4 0)
  else match escaped? c with
    | some e => ([], .text (t.push e))
    | none => ([t.broken next next], .stopped)

/-- What the four digits of an escape stand for. -/
def unicode (t : Text) (line value : Nat) : Mode :=
  if isHighSurrogate value then .high t value
  else if isLowSurrogate value then .text (t.fail line)
  else .text (t.push (Char.ofNat value))

/-- One character in one mode, on line `line`; `next` is the line after it. -/
def Mode.step (line next : Nat) (c : Char) : Mode → Outcome
  | .between => start line c
  | .word first rest token =>
    match rest with
    | [] => start line c
    | [r] => if c == r then ([⟨first, token⟩], .between) else breakOff first next
    | r :: rest => if c == r then ([], .word first rest token) else breakOff first next
  | .text t => inText t line next c
  | .escape t => inEscape t next c
  | .hex t left value =>
    match hexDigit? c with
    | none => ([t.broken next next], .stopped)
    | some d =>
      if left ≤ 1 then ([], unicode t line (value * 16 + d))
      else ([], .hex t (left - 1) (value * 16 + d))
  | .high t half =>
    if c == '\\' then ([], .highEscape t half) else inText (t.fail next) line next c
  | .highEscape t half =>
    if c == 'u' then ([], .low t half 4 0) else inEscape (t.fail next) next c
  | .low t half left value =>
    match hexDigit? c with
    | none => ([t.broken next next], .stopped)
    | some d =>
      let value := value * 16 + d
      if left ≤ 1 then
        if isLowSurrogate value then ([], .text (t.push (ofSurrogates half value)))
        else ([], .text (t.fail line))
      else ([], .low t half (left - 1) value)
  | .minus first =>
    if c == '0' then ([], .zero first true)
    else if isDigit c then ([], .whole first true [c])
    else breakOff first next
  | .zero first negative =>
    if isDigit c then breakOff first next else wholeThen first negative ['0'] line c
  | .whole first negative digits =>
    if isDigit c then ([], .whole first negative (c :: digits))
    else wholeThen first negative digits.reverse line c
  | .point first n =>
    if isDigit c then ([], .fraction first n [c]) else breakOff first next
  | .fraction first n digits =>
    if isDigit c then ([], .fraction first n (c :: digits))
    else
      let n := { n with fraction := some digits.reverse }
      if c == 'e' || c == 'E' then ([], .mark first n) else numberThen first n line c
  | .mark first n =>
    if c == '+' then ([], .sign first n false)
    else if c == '-' then ([], .sign first n true)
    else if isDigit c then ([], .exponent first n false [c])
    else breakOff first next
  | .sign first n negative =>
    if isDigit c then ([], .exponent first n negative [c]) else breakOff first next
  | .exponent first n negative digits =>
    if isDigit c then ([], .exponent first n negative (c :: digits))
    else numberThen first { n with exponent := some (negative, digits.reverse) } line c
  | .stopped => ([], .stopped)

/-- The tokens still to come when the text ends on line `line`. -/
def Mode.finish (line : Nat) : Mode → List Placed
  | .between => [⟨line, .eof⟩]
  | .word first _ _ => [⟨first, .broken line⟩]
  | .text t => [t.broken line line]
  | .escape t => [t.broken line line]
  | .hex t _ _ => [t.broken line line]
  | .high t _ => [t.broken line line]
  | .highEscape t _ => [t.broken line line]
  | .low t _ _ _ => [t.broken line line]
  | .minus first => [⟨first, .broken line⟩]
  | .zero first negative => [⟨first, .number ⟨negative, ['0'], none, none⟩⟩, ⟨line, .eof⟩]
  | .whole first negative digits =>
    [⟨first, .number ⟨negative, digits.reverse, none, none⟩⟩, ⟨line, .eof⟩]
  | .point first _ => [⟨first, .broken line⟩]
  | .fraction first n digits =>
    [⟨first, .number { n with fraction := some digits.reverse }⟩, ⟨line, .eof⟩]
  | .mark first _ => [⟨first, .broken line⟩]
  | .sign first _ _ => [⟨first, .broken line⟩]
  | .exponent first n negative digits =>
    [⟨first, .number { n with exponent := some (negative, digits.reverse) }⟩, ⟨line, .eof⟩]
  | .stopped => []

/-- The tokens of the rest of a text. -/
def scanFrom (line : Nat) (mode : Mode) : List Char → List Placed
  | [] => mode.finish line
  | c :: cs =>
    let next := if c == '\n' then line + 1 else line
    let (tokens, mode) := mode.step line next c
    tokens ++ scanFrom next mode cs

/-- The tokens of a text, the end of the text included unless a token is broken. -/
def scan (text : String) : List Placed := scanFrom 1 .between text.toList

end Token

end ShapedQuery
