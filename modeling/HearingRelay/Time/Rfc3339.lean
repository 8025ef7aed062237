import HearingRelay.Text.Blank
import HearingRelay.Time.Instant

/-!
Reading a date and time. The parts may have blanks between them, the date and
the time of day are parted by a blank or the letter T, and the offset from UTC
is `Z`, the word UTC, or hours and minutes behind a sign.
-/

namespace HearingRelay.Time

open Text

def readDigits? (width : Nat) (cs : List Char) : Option (Nat × List Char) :=
  let ds := (cs.take width).takeWhile isDigit
  if ds = [] then none else some (valueOfDigits ds, cs.drop ds.length)

def readPart? (width : Nat) (cs : List Char) : Option (Nat × List Char) :=
  readDigits? width (trimLeft cs)

def readMark? (mark : Char) (cs : List Char) : Option (List Char) :=
  match trimLeft cs with
  | c :: rest => if c = mark then some rest else none
  | [] => none

/-- A year has four digits at most, or a sign and any number of them. -/
def readYear? (cs : List Char) : Option (Int × List Char) :=
  match trimLeft cs with
  | '-' :: rest => (readDigits? rest.length rest).bind fun p =>
      if (p.1 : Int) ≤ Bounds.maxInt64 then some (-(p.1 : Int), p.2) else none
  | '+' :: rest => (readDigits? rest.length rest).bind fun p =>
      if (p.1 : Int) ≤ Bounds.maxInt64 then some ((p.1 : Int), p.2) else none
  | rest => (readDigits? 4 rest).map fun p => ((p.1 : Int), p.2)

def readDate? (cs : List Char) : Option (Date × List Char) := do
  let (year, cs) ← readYear? cs
  let cs ← readMark? '-' cs
  let (month, cs) ← readPart? 2 cs
  let cs ← readMark? '-' cs
  let (day, cs) ← readPart? 2 cs
  some (⟨year, month, day⟩, cs)

/-- A point and digits behind it, of which nine count. -/
def readNanos? : List Char → Option (Nat × List Char)
  | '.' :: rest =>
    (readDigits? 9 rest).map fun p =>
      (p.1 * Nat.pow 10 (9 - (rest.length - p.2.length)), p.2.dropWhile isDigit)
  | rest => some (0, rest)

/-- Seconds of the day and nanoseconds. The sixtieth second is a leap second. -/
def readTimeOfDay? (cs : List Char) : Option (Nat × Nat × List Char) := do
  let (hour, cs) ← readPart? 2 cs
  let cs ← readMark? ':' cs
  let (minute, cs) ← readPart? 2 cs
  let cs ← readMark? ':' cs
  let (second, cs) ← readPart? 2 cs
  let (nanos, cs) ← readNanos? cs
  if 23 < hour ∨ 59 < minute ∨ 60 < second then none
  else
    let ofDay := hour * 3600 + minute * 60
    if second = 60 then some (ofDay + 59, nanos + 1000000000, cs)
    else some (ofDay + second, nanos, cs)

/-- Hours and minutes of an offset, in seconds. Colons and blanks may stand
between them. -/
def readClock? (cs : List Char) : Option (Nat × List Char) :=
  match cs with
  | a :: b :: rest =>
    if isDigit a && isDigit b then
      match rest.dropWhile fun c => c == ':' || isBlank c with
      | c :: d :: rest =>
        if '0' ≤ c && c ≤ '5' && isDigit d then
          some (valueOfDigits [a, b] * 3600 + valueOfDigits [c, d] * 60, rest)
        else none
      | _ => none
    else none
  | _ => none

def isWordUtc (a b c : Char) : Bool :=
  (a == 'U' || a == 'u') && (b == 'T' || b == 't') && (c == 'C' || c == 'c')

def readOffset? (cs : List Char) : Option (Int × List Char) :=
  let numeric : List Char → Option (Int × List Char) := fun
    | 'Z' :: rest => some (0, rest)
    | 'z' :: rest => some (0, rest)
    | '+' :: rest => (readClock? rest).map fun p => ((p.1 : Int), p.2)
    | '-' :: rest => (readClock? rest).map fun p => (-(p.1 : Int), p.2)
    | '−' :: rest => (readClock? rest).map fun p => (-(p.1 : Int), p.2)
    | _ => none
  match cs with
  | a :: b :: c :: rest => if isWordUtc a b c then some (0, rest) else numeric cs
  | _ => numeric cs

def isDateSeparator (c : Char) : Bool := c == 'T' || c == 't' || c == ' '

def firstDate : Date := ⟨-262143, 1, 1⟩
def lastDate : Date := ⟨262142, 12, 31⟩

/-- The instant that a text gives. Both the local date and the instant must be
in range, and an offset is less than a day. -/
def Instant.read? (text : String) : Option Instant := do
  let (date, cs) ← readDate? text.toList
  let cs ← match cs with
    | c :: rest => if isDateSeparator c then some rest else none
    | [] => none
  let (second, nanos, cs) ← readTimeOfDay? cs
  let (offset, cs) ← readOffset? (trimLeft cs)
  if trimLeft cs ≠ [] then none
  else if !date.isValid then none
  else if date.year < firstDate.year ∨ lastDate.year < date.year then none
  else if 86400 ≤ offset.natAbs then none
  else
    let seconds := date.toDays * 86400 + second - offset
    if Instant.inRange seconds then some ⟨seconds, nanos⟩ else none

end HearingRelay.Time
