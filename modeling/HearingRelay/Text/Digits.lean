import HearingRelay.Text.Blank

/-!
Decimal digits. Whole numbers are read from ASCII digits alone: at least one
digit, no separators, and a sign only where the reader says so. The writers
give the shortest decimal form, or one padded with zeros on the left.
-/

namespace HearingRelay.Text

def isDigit (c : Char) : Bool := '0' ≤ c && c ≤ '9'

def digitValue (c : Char) : Nat := c.toNat - '0'.toNat

/-- The number that a run of digits denotes, most significant first. -/
def valueOfDigits (ds : List Char) : Nat :=
  ds.foldl (fun n c => n * 10 + digitValue c) 0

def readNat? (cs : List Char) : Option Nat :=
  if cs ≠ [] ∧ cs.all isDigit then some (valueOfDigits cs) else none

/-- A whole number with at most one sign in front. -/
def readInt? : List Char → Option Int
  | '+' :: ds => (readNat? ds).map Int.ofNat
  | '-' :: ds => (readNat? ds).map fun n => -(Int.ofNat n)
  | ds => (readNat? ds).map Int.ofNat

/-- A whole number without a minus sign; a plus sign is allowed. -/
def readUnsigned? : List Char → Option Nat
  | '+' :: ds => readNat? ds
  | ds => readNat? ds

def readIntWithin? (low high : Int) (cs : List Char) : Option Int :=
  (readInt? cs).filter fun n => low ≤ n && n ≤ high

def readUnsignedUpTo? (high : Nat) (cs : List Char) : Option Nat :=
  (readUnsigned? cs).filter (· ≤ high)

def writeNat (n : Nat) : String := String.ofList (Nat.toDigits 10 n)

def writeInt (n : Int) : String :=
  if n < 0 then "-" ++ writeNat n.natAbs else writeNat n.natAbs

/-- Zeros in front up to the given width; longer numbers are not cut. -/
def writePadded (width n : Nat) : String :=
  let ds := Nat.toDigits 10 n
  String.ofList (List.replicate (width - ds.length) '0' ++ ds)

def hexDigitValue? (c : Char) : Option Nat :=
  if isDigit c then some (digitValue c)
  else if 'a' ≤ c && c ≤ 'f' then some (c.toNat - 'a'.toNat + 10)
  else if 'A' ≤ c && c ≤ 'F' then some (c.toNat - 'A'.toNat + 10)
  else none

end HearingRelay.Text
