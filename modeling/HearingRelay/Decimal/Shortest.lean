import HearingRelay.Text.Digits
import HearingRelay.Decimal.Binary64

/-!
The shortest decimal digits of a binary64 number. A decimal reads back as the
number when it lies between the two midpoints to its neighbours, the ends
included when the significand is even. Among the decimals with the fewest
digits that read back the one nearest to the number is chosen, a tie going to
the even last digit.
-/

namespace HearingRelay.Decimal

def reachesPowerOfTen (num den : Nat) (k : Int) : Bool :=
  if 0 ≤ k then den * Nat.pow 10 k.toNat ≤ num else den ≤ num * Nat.pow 10 (-k).toNat

/-- The largest `k` with `10 ^ k ≤ num / den`: a first guess from the binary
logarithm is off by one at most, and is corrected by comparison. -/
def floorLog10 (num den : Nat) : Int :=
  let guess : Int := (((num.log2 : Int) - (den.log2 : Int)) * 30103).fdiv 100000
  if reachesPowerOfTen num den (guess + 1) then guess + 1
  else if reachesPowerOfTen num den guess then guess
  else guess - 1

/-- The decimals that read back as a magnitude, over a common denominator. -/
structure RoundingInterval where
  low : Nat
  value : Nat
  high : Nat
  den : Nat
  closed : Bool

namespace RoundingInterval

/-- The lower neighbour of a power of two is half as far away as the upper one. -/
def of (x : Binary64) : RoundingInterval :=
  let m := x.significand
  let (num, den) := x.toRatio
  let unit := if 0 ≤ x.exponent then Nat.pow 2 x.exponent.toNat else 1
  let below := if m = Nat.pow 2 52 ∧ -1074 < x.exponent then unit else 2 * unit
  { low := 4 * num - below, value := 4 * num, high := 4 * num + 2 * unit,
    den := 4 * den, closed := m % 2 = 0 }

/-- Whether `d * 10 ^ k` reads back. -/
def admits (i : RoundingInterval) (d : Nat) (k : Int) : Bool :=
  let (d, i) := if 0 ≤ k then (d * Nat.pow 10 k.toNat * i.den, i)
    else (d * i.den, { i with
      low := i.low * Nat.pow 10 (-k).toNat, high := i.high * Nat.pow 10 (-k).toNat })
  if i.closed then i.low ≤ d && d ≤ i.high else i.low < d && d < i.high

/-- The decimal `d * 10 ^ k` next to the value, if one of the two neighbours
on that grid reads back. -/
def nearest? (i : RoundingInterval) (k : Int) : Option Nat :=
  let num := if 0 ≤ k then i.value else i.value * Nat.pow 10 (-k).toNat
  let den := if 0 ≤ k then i.den * Nat.pow 10 k.toNat else i.den
  let d := num / den
  let r := num % den
  let upIsNearer := den < 2 * r ∨ (2 * r = den ∧ d % 2 = 1)
  match i.admits d k, i.admits (d + 1) k with
  | true, true => some (if upIsNearer then d + 1 else d)
  | true, false => some d
  | false, true => some (d + 1)
  | false, false => none

end RoundingInterval

/-- Decimal digits without zeros at either end, and the exponent of the first
digit in scientific notation. -/
structure Digits where
  digits : List Char
  exponent : Int

/-- The grid with `n` digits, then the ones with more, up to seventeen. -/
def shortestFrom (i : RoundingInterval) (top : Int) : Nat → Nat → Nat
  | 0, n => n
  | fuel + 1, n =>
    match i.nearest? (top + 1 - n) with
    | some _ => n
    | none => shortestFrom i top fuel (n + 1)

def shortest (x : Binary64) : Digits :=
  let i := RoundingInterval.of x
  let top := floorLog10 i.value i.den
  let n := shortestFrom i top 16 1
  let ds := Nat.toDigits 10 ((i.nearest? (top + 1 - n)).getD 0)
  { digits := (ds.reverse.dropWhile (· == '0')).reverse,
    exponent := top + 1 - n + (ds.length - 1 : Nat) }

/-- How a number is laid out: between two exponents in positional notation,
outside them in scientific notation. -/
structure Layout where
  positionalFrom : Int
  positionalTo : Int
deriving DecidableEq, Repr

/-- Digits with a point after the units; whole numbers end in `.0`. -/
def Digits.positional (d : Digits) : List Char :=
  if d.exponent < 0 then
    ['0', '.'] ++ List.replicate (-d.exponent - 1).toNat '0' ++ d.digits
  else
    let units := d.exponent.toNat + 1
    if d.digits.length ≤ units then
      d.digits ++ List.replicate (units - d.digits.length) '0' ++ ['.', '0']
    else d.digits.take units ++ ['.'] ++ d.digits.drop units

/-- One digit before the point, no point behind a lone digit, and an exponent
that always shows its sign. -/
def Digits.scientific (d : Digits) : List Char :=
  let mantissa := match d.digits with
    | [] => []
    | [c] => [c]
    | c :: rest => c :: '.' :: rest
  let sign := if d.exponent < 0 then '-' else '+'
  mantissa ++ ['e', sign] ++ Nat.toDigits 10 d.exponent.natAbs

def Layout.write (layout : Layout) (x : Binary64) : String :=
  let body :=
    if x.isZero then ['0', '.', '0']
    else
      let d := shortest x
      if layout.positionalFrom ≤ d.exponent ∧ d.exponent ≤ layout.positionalTo then d.positional
      else d.scientific
  String.ofList (if x.negative then '-' :: body else body)

end HearingRelay.Decimal
