import ShapedQuery.Json.Number

/-! # Writing JSON

`Json.compact` writes a value without blanks; `Json.pretty` writes one item or entry per line,
indented by two spaces a level, with empty arrays and objects as `[]` and `{}`.  In strings only
the quote, the backslash and the control characters below the space are escaped. -/

namespace ShapedQuery

namespace Json

/-- A hexadecimal digit in lower case. -/
def hexChar (n : Nat) : Char := Nat.digitChar n

/-- A character inside a string. -/
def escapeChar (c : Char) : List Char :=
  if c == '"' then ['\\', '"']
  else if c == '\\' then ['\\', '\\']
  else if c == '\x08' then ['\\', 'b']
  else if c == '\t' then ['\\', 't']
  else if c == '\n' then ['\\', 'n']
  else if c == '\x0c' then ['\\', 'f']
  else if c == '\r' then ['\\', 'r']
  else if c.toNat < 0x20 then
    ['\\', 'u', '0', '0', hexChar (c.toNat / 16), hexChar (c.toNat % 16)]
  else [c]

/-- A string in quotes. -/
def quoted (s : String) : List Char := '"' :: (s.toList.flatMap escapeChar ++ ['"'])

/-- A whole number in decimal. -/
def decimal (n : Int) : List Char :=
  if n < 0 then '-' :: Nat.toDigits 10 n.natAbs else Nat.toDigits 10 n.natAbs

def word (b : Bool) : List Char :=
  if b then ['t', 'r', 'u', 'e'] else ['f', 'a', 'l', 's', 'e']

/-! ### Compact text -/

mutual

/-- The characters of a value without blanks. -/
def compactChars : Json → List Char
  | .null => ['n', 'u', 'l', 'l']
  | .bool b => word b
  | .int n => decimal n
  | .float x => x.text.toList
  | .str s => quoted s
  | .arr items => '[' :: compactItems items
  | .obj entries => '{' :: compactEntries entries

/-- The items of an array and its closing bracket. -/
def compactItems : List Json → List Char
  | [] => [']']
  | [j] => compactChars j ++ [']']
  | j :: js => compactChars j ++ ',' :: compactItems js

/-- The entries of an object and its closing brace. -/
def compactEntries : List (String × Json) → List Char
  | [] => ['}']
  | [(k, j)] => quoted k ++ ':' :: (compactChars j ++ ['}'])
  | (k, j) :: es => quoted k ++ ':' :: (compactChars j ++ ',' :: compactEntries es)

end

/-- A value without blanks. -/
def compact (j : Json) : String := String.ofList j.compactChars

/-! ### Indented text -/

/-- A new line, indented by `level` levels. -/
def newline (level : Nat) : List Char := '\n' :: List.replicate (2 * level) ' '

mutual

/-- The characters of a value whose first line is already indented. -/
def prettyChars (level : Nat) : Json → List Char
  | .null => ['n', 'u', 'l', 'l']
  | .bool b => word b
  | .int n => decimal n
  | .float x => x.text.toList
  | .str s => quoted s
  | .arr [] => ['[', ']']
  | .arr (j :: js) =>
    '[' :: (newline (level + 1) ++ prettyChars (level + 1) j ++ prettyItems level js)
  | .obj [] => ['{', '}']
  | .obj ((k, j) :: es) =>
    '{' :: (newline (level + 1) ++ quoted k ++ [':', ' '] ++ prettyChars (level + 1) j ++
      prettyEntries level es)

/-- The further items of an array and its closing bracket. -/
def prettyItems (level : Nat) : List Json → List Char
  | [] => newline level ++ [']']
  | j :: js => ',' :: (newline (level + 1) ++ prettyChars (level + 1) j ++ prettyItems level js)

/-- The further entries of an object and its closing brace. -/
def prettyEntries (level : Nat) : List (String × Json) → List Char
  | [] => newline level ++ ['}']
  | (k, j) :: es =>
    ',' :: (newline (level + 1) ++ quoted k ++ [':', ' '] ++ prettyChars (level + 1) j ++
      prettyEntries level es)

end

/-- A value on indented lines. -/
def pretty (j : Json) : String := String.ofList (j.prettyChars 0)

end Json

end ShapedQuery
