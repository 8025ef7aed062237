/-!
Finite binary64 numbers in exact arithmetic: a sign and a magnitude
`significand * 2 ^ exponent`. Every operation computes the exact rational
result and rounds it once to the nearest representable number, a tie going
to the even significand. Results past the largest finite number are refused.
-/

namespace HearingRelay.Decimal

/-- A finite binary64 number. Normal numbers have a significand of 53 bits;
numbers below the normal range have exponent -1074 and a shorter one. -/
structure Binary64 where
  negative : Bool
  significand : Nat
  exponent : Int
deriving DecidableEq, Repr, Inhabited

namespace Binary64

def zero : Binary64 := ⟨false, 0, -1074⟩

def neg (x : Binary64) : Binary64 := { x with negative := !x.negative }

def withSign (negative : Bool) (x : Binary64) : Binary64 := { x with negative := negative }

def isZero (x : Binary64) : Bool := x.significand == 0

/-- `num / den` against a power of two: `2 ^ k ≤ num / den`. -/
def reachesPowerOfTwo (num den : Nat) (k : Int) : Bool :=
  if 0 ≤ k then den * Nat.pow 2 k.toNat ≤ num else den ≤ num * Nat.pow 2 (-k).toNat

/-- The largest `k` with `2 ^ k ≤ num / den`, for positive arguments. -/
def floorLog2 (num den : Nat) : Int :=
  let k : Int := (num.log2 : Int) - (den.log2 : Int)
  if reachesPowerOfTwo num den k then k else k - 1

/-- The quotient rounded to the nearest natural number, ties to even. -/
def roundQuotient (num den : Nat) : Nat :=
  let q := num / den
  let r := num % den
  if den < 2 * r ∨ (2 * r = den ∧ q % 2 = 1) then q + 1 else q

/-- The binary64 magnitude nearest to `num / den`, unless it is too large. -/
def ofRatio? (num den : Nat) : Option Binary64 :=
  if num = 0 then some zero
  else
    let e := max (floorLog2 num den - 52) (-1074)
    let m := if 0 ≤ e then roundQuotient num (den * Nat.pow 2 e.toNat)
      else roundQuotient (num * Nat.pow 2 (-e).toNat) den
    let (m, e) := if m = Nat.pow 2 53 then (Nat.pow 2 52, e + 1) else (m, e)
    if 971 < e then none else some ⟨false, m, e⟩

def ofScaledRatio? (num den : Nat) (e : Int) : Option Binary64 :=
  if 0 ≤ e then ofRatio? (num * Nat.pow 2 e.toNat) den
  else ofRatio? num (den * Nat.pow 2 (-e).toNat)

def ofNat? (n : Nat) : Option Binary64 := ofRatio? n 1

def mul? (x y : Binary64) : Option Binary64 :=
  ofScaledRatio? (x.significand * y.significand) 1 (x.exponent + y.exponent)

def div? (x y : Binary64) : Option Binary64 :=
  ofScaledRatio? x.significand y.significand (x.exponent - y.exponent)

def toRatio (x : Binary64) : Nat × Nat :=
  if 0 ≤ x.exponent then (x.significand * Nat.pow 2 x.exponent.toNat, 1)
  else (x.significand, Nat.pow 2 (-x.exponent).toNat)

end Binary64

/-- Scaling by a power of ten in steps of at most 308: one multiplication, or
divisions until the rest of the exponent is in the table of exact powers. A
positive exponent past the table is too large for anything but zero. -/
def scaleByTen? : Nat → Binary64 → Int → Option Binary64
  | 0, x, _ => some x
  | steps + 1, x, exponent =>
    if exponent.natAbs ≤ 308 then
      match Binary64.ofNat? (Nat.pow 10 exponent.natAbs) with
      | none => none
      | some power => if 0 ≤ exponent then x.mul? power else x.div? power
    else if x.isZero then some x
    else if 0 ≤ exponent then none
    else
      match Binary64.ofNat? (Nat.pow 10 308) with
      | none => none
      | some power => (x.div? power).bind fun y => scaleByTen? steps y (exponent + 308)

/-- The number read from a significand and a decimal exponent: the significand
is rounded first and scaled afterwards. -/
def ofParts? (negative : Bool) (significand : Nat) (exponent : Int) : Option Binary64 :=
  (Binary64.ofNat? significand).bind fun x =>
    (scaleByTen? 4 x exponent).map (·.withSign negative)

end HearingRelay.Decimal
