import HearingRelay.Text.Digits

/-!
Lengths of time, exact to the nanosecond and never negative. Written down, a
length uses the largest unit that gives it an integral part.
-/

namespace HearingRelay.Time

structure Span where
  nanos : Nat
deriving DecidableEq, Repr, Inhabited

namespace Span

def ofSeconds (n : Nat) : Span := ⟨n * 1000000000⟩

def ofMillis (n : Nat) : Span := ⟨n * 1000000⟩

def ofParts (seconds nanos : Nat) : Span := ⟨seconds * 1000000000 + nanos⟩

def toMillis (s : Span) : Nat := s.nanos / 1000000

def toSeconds (s : Span) : Nat := s.nanos / 1000000000

/-- A count of units and the rest of one unit, in `places` decimal places
without zeros at the end. -/
def writeUnit (nanos perUnit places : Nat) (unit : String) : String :=
  let rest := nanos % perUnit
  let digits := ((Text.writePadded places rest).toList.reverse.dropWhile (· == '0')).reverse
  Text.writeNat (nanos / perUnit) ++
    (if rest = 0 then "" else "." ++ String.ofList digits) ++ unit

def write (s : Span) : String :=
  if 1000000000 ≤ s.nanos then writeUnit s.nanos 1000000000 9 "s"
  else if 1000000 ≤ s.nanos then writeUnit s.nanos 1000000 6 "ms"
  else if 1000 ≤ s.nanos then writeUnit s.nanos 1000 3 "µs"
  else writeUnit s.nanos 1 0 "ns"

end Span

end HearingRelay.Time
