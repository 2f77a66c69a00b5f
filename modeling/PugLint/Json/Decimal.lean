/-!
# Decimals of floating-point numbers

The shortest decimal that reads back as a given floating-point number, in exact
arithmetic. A number is `mantissa · 2 ^ exponent`; the reals that round to it
form an interval around it, whose ends belong to it when the mantissa is even.
For one digit, two digits and so on, the two neighbours of the number among the
decimals of that length are tried, and the first in the interval is taken; of
two, the nearer one.

* `shortest`: the digits, and the power of ten of the first of them.
-/

namespace PugLint.Json.Decimal

/-- A non-negative rational number. -/
structure Ratio where
  /-- The numerator. -/
  num : Nat
  /-- The denominator. -/
  den : Nat

/-- Whether one rational number is at most another. -/
def Ratio.le (a b : Ratio) : Bool :=
  a.num * b.den ≤ b.num * a.den

/-- Whether one rational number is less than another. -/
def Ratio.lt (a b : Ratio) : Bool :=
  a.num * b.den < b.num * a.den

/-- The distance of two rational numbers. -/
def Ratio.distance (a b : Ratio) : Ratio :=
  ⟨(a.num * b.den - b.num * a.den) + (b.num * a.den - a.num * b.den), a.den * b.den⟩

/-- The bit in front of the 52 bits that are written of a mantissa. -/
def leadingBit : Nat := 0x10000000000000

/-- The number `n · base ^ e`. -/
def scaled (n base : Nat) (e : Int) : Ratio :=
  if 0 ≤ e then ⟨n * base.pow e.toNat, 1⟩ else ⟨n, base.pow (-e).toNat⟩

/-- A number and the interval of the reals that round to it. -/
structure Interval where
  /-- The number. -/
  value : Ratio
  /-- The lower end of the interval. -/
  low : Ratio
  /-- The upper end of the interval. -/
  high : Ratio
  /-- Whether the ends belong to the interval. -/
  closed : Bool

/-- Whether a rational number rounds to the number of the interval. -/
def Interval.contains (i : Interval) (x : Ratio) : Bool :=
  if i.closed then i.low.le x && x.le i.high else i.low.lt x && x.lt i.high

/-- The interval of `mantissa · 2 ^ exponent`. Below a power of two the numbers
    lie twice as close, except at the lowest exponent. -/
def interval (mantissa : Nat) (exponent : Int) : Interval where
  value := scaled mantissa 2 exponent
  low :=
    if mantissa == leadingBit && -1074 < exponent then scaled (4 * mantissa - 1) 2 (exponent - 2)
    else scaled (2 * mantissa - 1) 2 (exponent - 1)
  high := scaled (2 * mantissa + 1) 2 (exponent - 1)
  closed := mantissa % 2 == 0

/-- The power of ten of the first digit of a positive number, searched for from
    `guess` on downwards. -/
def leadingPower (x : Ratio) : Nat → Int → Int
  | 0, guess => guess
  | fuel + 1, guess =>
    if (scaled 1 10 guess).le x then guess else leadingPower x fuel (guess - 1)

/-- The decimal of `digits` digits next to the number, if one rounds to it. -/
def nearest? (i : Interval) (power : Int) (digits : Nat) : Option Nat :=
  let place := power - (digits - 1 : Nat)
  let unit := scaled 1 10 place
  let below := (i.value.num * unit.den) / (i.value.den * unit.num)
  let decimal (n : Nat) : Ratio := scaled n 10 place
  let fits (n : Nat) : Bool := i.contains (decimal n)
  match fits below, fits (below + 1) with
  | true, true =>
    let low := (decimal below).distance i.value
    let high := (decimal (below + 1)).distance i.value
    if low.lt high || (low.le high && below % 2 == 0) then some below else some (below + 1)
  | true, false => some below
  | false, true => some (below + 1)
  | false, false => none

/-- The first decimal that fits, trying lengths from `digits` on. -/
def search (i : Interval) (power : Int) : Nat → Nat → Nat × Nat
  | 0, digits => (0, digits)
  | fuel + 1, digits =>
    match nearest? i power digits with
    | some n => (n, digits)
    | none => search i power fuel (digits + 1)

/-- A number without its trailing zeros. -/
def stripZeros : Nat → Nat → Nat
  | 0, n => n
  | fuel + 1, n => if n % 10 == 0 && n != 0 then stripZeros fuel (n / 10) else n

/-- The digits of the shortest decimal of `mantissa · 2 ^ exponent`, which is not
    zero, and the power of ten of the first digit. -/
def shortest (mantissa : Nat) (exponent : Int) : List Char × Int :=
  let i := interval mantissa exponent
  let power := leadingPower i.value 700 310
  let (n, digits) := search i power 17 1
  -- Rounding up may have carried into one more digit.
  let power := if n == Nat.pow 10 digits then power + 1 else power
  (Nat.toDigits 10 (stripZeros 20 n), power)

/-- The sign, mantissa and exponent of a finite number. -/
def decode (x : Float) : Bool × Nat × Int :=
  let bits : Nat := x.toBits.toNat
  let fraction : Nat := bits % leadingBit
  let biased : Nat := bits / leadingBit % 2048
  let negative := bits / (2048 * leadingBit) == 1
  if biased == 0 then (negative, fraction, -1074)
  else (negative, fraction + leadingBit, Int.ofNat biased - 1075)

/-- Digits written around a decimal point, the first digit standing for the
    power `power` of ten. There is always a digit on either side of the point. -/
def positional (digits : List Char) (power : Int) : List Char :=
  if power < 0 then
    "0.".toList ++ List.replicate ((-power).toNat - 1) '0' ++ digits
  else
    let whole := power.toNat + 1
    let padded := digits ++ List.replicate (whole + 1 - digits.length) '0'
    padded.take whole ++ '.' :: padded.drop whole

/-- Digits written with an exponent of two digits or more. -/
def scientific (digits : List Char) (power : Int) : List Char :=
  let mantissa :=
    match digits with
    | [] => []
    | [d] => [d]
    | d :: ds => d :: '.' :: ds
  let exponent := Nat.toDigits 10 power.natAbs
  let exponent := if exponent.length < 2 then '0' :: exponent else exponent
  mantissa ++ ['e', if power < 0 then '-' else '+'] ++ exponent

/-- The text of a finite number: positional from a hundred-thousandth up to ten
    to the sixteenth, with an exponent outside. -/
def text (x : Float) : String :=
  let (negative, mantissa, exponent) := decode x
  let unsigned :=
    if mantissa == 0 then "0.0".toList
    else
      let (digits, power) := shortest mantissa exponent
      if -5 ≤ power && power ≤ 15 then positional digits power else scientific digits power
  String.ofList (if negative then '-' :: unsigned else unsigned)

end PugLint.Json.Decimal
