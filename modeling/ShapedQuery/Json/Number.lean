import ShapedQuery.Json.Basic

/-! # Numbers as text

Reading: `Numeral.value?` gives the number a numeral stands for.  A numeral without fraction and
exponent is a whole number when it fits a signed or an unsigned 64-bit word; `-0` and all other
numerals are doubles.  The digits of a double are gathered into one 64-bit significand, digits
that no longer fit only count towards the exponent, and the significand is then scaled by one
power of ten.  A numeral too large for a double has no value.

Writing: `Double.text` gives the fewest digits that single out a double among its neighbours. -/

namespace ShapedQuery

/-! ### Numerals -/

/-- The parts of a number as written; the digits are decimal. -/
structure Numeral where
  negative : Bool
  whole : List Char
  fraction : Option (List Char)
  exponent : Option (Bool × List Char)
  deriving Inhabited

namespace Numeral

/-- The value of a decimal digit. -/
def digit (c : Char) : Nat := c.toNat - '0'.toNat

/-- The number a row of digits stands for. -/
def natOfDigits (cs : List Char) : Nat := cs.foldl (fun n c => n * 10 + digit c) 0

/-- The largest number of an unsigned 64-bit word. -/
def maxWord : Nat := 18446744073709551615

/-- Append digits to a significand as long as it fits a word; the second part counts the digits
left over. -/
def gather : Nat → List Char → Nat × Nat
  | s, [] => (s, 0)
  | s, c :: cs =>
    let s' := s * 10 + digit c
    if s' ≤ maxWord then gather s' cs else (s, cs.length + 1)

/-- The power of ten `10 ^ n` as a double, for `n ≤ 308`. -/
def tenTo (n : Nat) : Float := Float.ofScientific 1 false n

/-- `x * 10 ^ e`, unless it is too large. -/
def scale (x : Float) (e : Int) : Option Float :=
  if 0 ≤ e then
    if e ≤ 308 then
      let y := x * tenTo e.toNat
      if y.isInf then none else some y
    else if x == 0 then some x
    else none
  else if -308 ≤ e then some (x / tenTo (-e).toNat)
  else if -616 ≤ e then some (x / tenTo 308 / tenTo (-e - 308).toNat)
  else some 0

/-- The power of ten written after the mark, zero if there is none. -/
def power (n : Numeral) : Int :=
  match n.exponent with
  | none => 0
  | some (negative, digits) =>
    if negative then -(natOfDigits digits : Int) else (natOfDigits digits : Int)

/-- The double nearest to the gathered significand, scaled. -/
def double? (n : Numeral) : Option Double :=
  let digits := n.fraction.getD []
  let (s, extra) := gather 0 n.whole
  let (s, unused) := gather s digits
  let e : Int := extra - (digits.length - unused : Nat) + n.power
  (scale s.toUInt64.toFloat e).map fun x => Double.ofFloat (if n.negative then -x else x)

/-- The value of a numeral; none if it is too large. -/
def value? (n : Numeral) : Option Json :=
  let m := natOfDigits n.whole
  if n.fraction.isNone && n.exponent.isNone then
    if n.negative then
      if m ≠ 0 ∧ m ≤ 9223372036854775808 then some (.int (-m)) else n.double?.map .float
    else
      if m ≤ maxWord then some (.int m) else n.double?.map .float
  else n.double?.map .float

end Numeral

/-! ### Doubles as text -/

namespace Double

/-- Is the sign bit set? -/
def isNegative (x : Double) : Bool := x.bits.toNat / Nat.pow 2 63 == 1

/-- A double as `m * 2 ^ q`, without its sign. -/
def parts (x : Double) : Nat × Int :=
  let e : Nat := x.bits.toNat / Nat.pow 2 52 % Nat.pow 2 11
  let m : Nat := x.bits.toNat % Nat.pow 2 52
  if e = 0 then (m, -1074) else (m + Nat.pow 2 52, (e : Int) - 1075)

/-- The numbers between `low / den` and `high / den` read back as the double `mid / den`; the
ends do if `closed`. -/
structure Interval where
  low : Nat
  mid : Nat
  high : Nat
  den : Nat
  closed : Bool

/-- The interval of numbers that round to a nonzero double: up to half way to each neighbour. -/
def interval (x : Double) : Interval :=
  let (m, q) := x.parts
  let below := if m = Nat.pow 2 52 ∧ q ≠ -1074 then 1 else 2
  let up := if 0 ≤ q then Nat.pow 2 q.toNat else 1
  let den := if 0 ≤ q then 1 else Nat.pow 2 (-q).toNat
  { low := (4 * m - below) * up, mid := 4 * m * up, high := (4 * m + 2) * up, den := 4 * den
    closed := m % 2 == 0 }

/-- Does the number `num / den` lie in the interval? -/
def Interval.contains (i : Interval) (num den : Nat) : Bool :=
  let l := i.low * den
  let h := i.high * den
  let v := num * i.den
  if i.closed then l ≤ v && v ≤ h else l < v && v < h

/-- The number `d * 10 ^ s` as a fraction. -/
def decimal (d : Nat) (s : Int) : Nat × Nat :=
  if 0 ≤ s then (d * Nat.pow 10 s.toNat, 1) else (d, Nat.pow 10 (-s).toNat)

/-- The multiple of `10 ^ s` nearest to the middle of the interval, if one lies in it. -/
def Interval.pick (i : Interval) (s : Int) : Option Nat :=
  let (num, den) := decimal 1 s
  let unit := num * i.den
  let total := i.mid * den
  let d := total / unit
  let inside (d : Nat) : Bool := let (a, b) := decimal d s; i.contains a b
  let rest := total % unit
  let upper := decide (unit < 2 * rest) || (decide (unit = 2 * rest) && d % 2 == 1)
  match inside d, inside (d + 1) with
  | true, true => some (if upper then d + 1 else d)
  | true, false => some d
  | false, true => some (d + 1)
  | false, false => none

/-- The coarsest decimal place at which the interval holds a number, tried downwards. -/
def Interval.coarsest (i : Interval) (s : Int) : Nat → Nat × Int
  | 0 => (i.mid / i.den, 0)
  | tries + 1 =>
    match i.pick s with
    | some d => if d = 0 then i.coarsest (s - 1) tries else (d, s)
    | none => i.coarsest (s - 1) tries

/-- Drop the zeros at the end of a number, counting them. -/
def dropZeros (d : Nat) (s : Int) : Nat → Nat × Int
  | 0 => (d, s)
  | tries + 1 => if d % 10 = 0 then dropZeros (d / 10) (s + 1) tries else (d, s)

/-- The fewest digits that read back as the double, with the place of the last one. -/
def shortest (x : Double) : Nat × Int :=
  let (d, s) := x.interval.coarsest 308 640
  dropZeros d s 20

/-- A double in decimal: positional from `1e-5` up to `1e16`, else with an exponent. -/
def text (x : Double) : String :=
  let sign := if x.isNegative then "-" else ""
  if x.isZero then sign ++ "0.0"
  else
    let (d, s) := x.shortest
    let digits := Nat.toDigits 10 d
    let point : Int := digits.length + s
    let zeros (n : Nat) : List Char := List.replicate n '0'
    let body : List Char :=
      if 0 ≤ s ∧ point ≤ 16 then digits ++ zeros s.toNat ++ ['.', '0']
      else if 0 < point ∧ point ≤ 16 then
        digits.take point.toNat ++ ['.'] ++ digits.drop point.toNat
      else if -5 < point ∧ point ≤ 0 then ['0', '.'] ++ zeros (-point).toNat ++ digits
      else
        let mantissa := match digits with
          | [] => []
          | [c] => [c]
          | c :: cs => c :: '.' :: cs
        mantissa ++ ['e'] ++ (toString (point - 1)).toList
    sign ++ String.ofList body

end Double

end ShapedQuery
