import HearingRelay.Json.Lexer

/-!
What a literal counts as. Whole literals in the 64-bit ranges are integers.
Every other literal, and minus zero, is the binary64 number that its leading
digits and its exponent give: digits past the unsigned 64-bit range are not
looked at, only their places count.
-/

namespace HearingRelay.Json

inductive Number where
  | integer (n : Int)
  | real (x : Decimal.Binary64)
deriving DecidableEq, Repr

/-- Digits before the point: once the range is full, each one more adds a
decimal place. -/
def takeWhole : Nat → List Char → Nat × Int
  | n, [] => (n, 0)
  | n, d :: ds =>
    let next := n * 10 + Text.digitValue d
    if Bounds.maxUInt64 < next then (n, ((d :: ds).length : Nat)) else takeWhole next ds

/-- Digits behind the point: once the range is full the others are dropped. -/
def takeFraction : Nat → Int → List Char → Nat × Int
  | n, e, [] => (n, e)
  | n, e, d :: ds =>
    let next := n * 10 + Text.digitValue d
    if Bounds.maxUInt64 < next then (n, e) else takeFraction next (e - 1) ds

def Literal.parts (n : Literal) : Nat × Int :=
  let (m, e) := takeWhole 0 n.whole
  let (m, e) := takeFraction m e (n.fraction.getD [])
  match n.exponent with
  | none => (m, e)
  | some (negative, ds) =>
    let k : Int := Text.valueOfDigits ds
    (m, if negative then e - k else e + k)

def Literal.real? (n : Literal) : Option Decimal.Binary64 :=
  let (m, e) := n.parts
  if n.isNonzero then Decimal.ofParts? n.negative m e
  else some (Decimal.Binary64.zero.withSign n.negative)

def Literal.number? (n : Literal) : Option Number :=
  match n.fraction, n.exponent with
  | none, none =>
    let m := Text.valueOfDigits n.whole
    if !n.negative && m ≤ Bounds.maxUInt64 then some (.integer m)
    else if n.negative && m ≠ 0 && Bounds.minInt64 ≤ -(m : Int) then some (.integer (-(m : Int)))
    else n.real?.map .real
  | _, _ => n.real?.map .real

/-- Numbers are written positionally from 0.00001 up to sixteen digits before
the point. -/
def realLayout : Decimal.Layout := ⟨-5, 15⟩

def Number.write : Number → String
  | .integer n => Text.writeInt n
  | .real x => realLayout.write x

/-- A literal and the number it counts as. A positive exponent past the 32-bit
range is refused at the digit that passes it. -/
def readNumber (negative : Bool) : Reader (Literal × Number) := fun rest =>
  match readLiteral negative rest with
  | .error e => .error e
  | .ok (n, rest) =>
    let past := match n.exponent with
      | some (false, ds) => if n.isNonzero then digitsPastInt32 ds 0 else none
      | _ => none
    match past, n.number? with
    | some ds, _ => failHere .numberOutOfRange (ds ++ rest)
    | none, none => failHere .numberOutOfRange rest
    | none, some x => .ok ((n, x), rest)

end HearingRelay.Json
