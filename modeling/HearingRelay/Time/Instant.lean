import HearingRelay.Time.Calendar
import HearingRelay.Time.Span
import HearingRelay.Bounds

/-!
Points in time, in UTC. An instant lies on a second counted from 1970, with
nanoseconds into it; a count of a thousand million and more stands for the
leap second behind. Instants have a range of dates, and a span before an
instant may lie outside it.
-/

namespace HearingRelay.Time

structure Instant where
  seconds : Int
  nanos : Nat
deriving DecidableEq, Repr, Inhabited

namespace Instant

def firstSecond : Int := -8334601228800
def lastSecond : Int := 8210266876799

def inRange (seconds : Int) : Bool := firstSecond ≤ seconds && seconds ≤ lastSecond

def nanosPerSecond : Int := 1000000000

def ofMillis (ms : Int) : Instant :=
  ⟨ms.fdiv 1000, ((ms - ms.fdiv 1000 * 1000) * 1000000).toNat⟩

/-- The instant of a count of milliseconds, if its date is in range. -/
def ofMillis? (ms : Int) : Option Instant :=
  if inRange (ms.fdiv 1000) then some (ofMillis ms) else none

def toNanos (i : Instant) : Int := i.seconds * nanosPerSecond + i.nanos

def before (i j : Instant) : Bool :=
  i.seconds < j.seconds || (i.seconds == j.seconds && i.nanos < j.nanos)

def minus? (i : Instant) (s : Span) : Option Instant :=
  let n := i.toNanos - s.nanos
  let seconds := n.fdiv nanosPerSecond
  if inRange seconds then some ⟨seconds, (n - seconds * nanosPerSecond).toNat⟩ else none

def longestSpan : Span := Span.ofMillis Bounds.maxInt64.toNat

/-- Whether more than `limit` has passed from `i` to `now`. A limit past the
longest span never passes; one that leads out of the range of dates has no
answer. -/
def elapsed? (i now : Instant) (limit : Span) : Option Bool :=
  if longestSpan.nanos < limit.nanos then some false
  else (now.minus? limit).map fun cutoff => i.before cutoff

/-- Years outside of four digits show their sign. -/
def writeYear (year : Int) : String :=
  if 0 ≤ year ∧ year ≤ 9999 then Text.writePadded 4 year.toNat
  else (if year < 0 then "-" else "+") ++ Text.writePadded 4 year.natAbs

/-- The fraction of a second in three, six or nine places, the fewest that are
exact, and none for a whole second. -/
def writeFraction (nanos : Nat) : String :=
  if nanos = 0 then ""
  else if nanos % 1000000 = 0 then "." ++ Text.writePadded 3 (nanos / 1000000)
  else if nanos % 1000 = 0 then "." ++ Text.writePadded 6 (nanos / 1000)
  else "." ++ Text.writePadded 9 nanos

def write (i : Instant) : String :=
  let days := i.seconds.fdiv 86400
  let date := Date.ofDays days
  let second := (i.seconds - days * 86400).toNat
  let isLeap := 1000000000 ≤ i.nanos
  let two := Text.writePadded 2
  writeYear date.year ++ "-" ++ two date.month ++ "-" ++ two date.day ++ "T" ++
    two (second / 3600) ++ ":" ++ two (second / 60 % 60) ++ ":" ++
    two (second % 60 + if isLeap then 1 else 0) ++
    writeFraction (if isLeap then i.nanos - 1000000000 else i.nanos) ++ "Z"

end Instant

end HearingRelay.Time
