import HearingRelay.Toml.Value
import HearingRelay.Bounds
import HearingRelay.Decimal.Binary64
import HearingRelay.Text.Digits
import HearingRelay.Time.Calendar

/-!
Numbers and dates. Digits may be grouped by single underscores. Integers have
64 bits and are decimal without needless zeros in front, or start with `0x`,
`0o` or `0b`. A floating-point number has a fraction, an exponent or both, or
is `inf` or `nan`; one that is too large for a positive number is refused. A
date and a time of day must exist.
-/

namespace HearingRelay.Toml

def takeDigits (isDigit : Char → Bool) : List Char → List Char × List Char
  | [] => ([], [])
  | c :: rest =>
    if isDigit c then
      let (digits, tail) := takeDigits isDigit rest
      (c :: digits, tail)
    else if c = '_' ∧ rest.head?.any isDigit then takeDigits isDigit rest
    else ([], c :: rest)

def readDigits (isDigit : Char → Bool) : Reader (List Char) := fun cs =>
  if cs.head?.any isDigit then some (takeDigits isDigit cs) else none

def readSign : List Char → Bool × List Char
  | '-' :: rest => (true, rest)
  | '+' :: rest => (false, rest)
  | rest => (false, rest)

/-- The whole part of a decimal number: a zero alone, or digits. -/
def readWhole : Reader (List Char)
  | '0' :: rest => some (['0'], rest)
  | cs => readDigits Text.isDigit cs

def valueIn (base : Nat) (digits : List Char) : Nat :=
  (digits.filterMap Text.hexDigitValue?).foldl (fun n d => n * base + d) 0

def isDigitOf (base : Nat) (c : Char) : Bool := (Text.hexDigitValue? c).any (· < base)

def integer? (n : Int) : Option Value := if Bounds.fitsInt64 n then some (.integer n) else none

def readBased (base : Nat) : Reader Value := fun cs =>
  match readDigits (isDigitOf base) cs with
  | some (digits, rest) => (integer? (valueIn base digits)).map fun v => (v, rest)
  | none => none

def readFraction : Reader (List Char)
  | '.' :: rest => readDigits Text.isDigit rest
  | _ => none

def readExponent : Reader (Bool × List Char)
  | c :: rest =>
    if c = 'e' ∨ c = 'E' then
      let (negative, rest) := readSign rest
      (readDigits Text.isDigit rest).map fun p => ((negative, p.1), p.2)
    else none
  | [] => none

/-- Whether a decimal number is too large to be written as a finite one. -/
def isTooLarge (whole fraction : List Char) (exponent : Int) : Bool :=
  let significand := Text.valueOfDigits (whole ++ fraction)
  let scale := exponent - fraction.length
  let magnitude := (Nat.toDigits 10 significand).length + scale
  if significand = 0 ∨ magnitude < 300 then false
  else if 400 < magnitude then true
  else if 0 ≤ scale then (Decimal.Binary64.ofRatio? (significand * Nat.pow 10 scale.toNat) 1).isNone
  else (Decimal.Binary64.ofRatio? significand (Nat.pow 10 (-scale).toNat)).isNone

def consumed (start rest : List Char) : String :=
  String.ofList (start.take (start.length - rest.length))

def readDecimal : Reader Value := fun start => do
  let (negative, cs) := readSign start
  let (whole, cs) ← readWhole cs
  let (fraction, cs) := match readFraction cs with
    | some (digits, cs) => (some digits, cs)
    | none => (none, cs)
  let (exponent, cs) := match readExponent cs with
    | some (e, cs) => (some e, cs)
    | none => (none, cs)
  match fraction, exponent with
  | none, none =>
    let n : Int := Text.valueOfDigits whole
    (integer? (if negative then -n else n)).map fun v => (v, cs)
  | _, _ =>
    let e : Int := match exponent with
      | none => 0
      | some (true, digits) => -(Text.valueOfDigits digits : Int)
      | some (false, digits) => Text.valueOfDigits digits
    if !negative && isTooLarge whole (fraction.getD []) e then none
    else some (.float (consumed start cs), cs)

def readSpecial : Reader Value := fun start =>
  match (readSign start).2 with
  | 'i' :: 'n' :: 'f' :: rest => some (.float (consumed start rest), rest)
  | 'n' :: 'a' :: 'n' :: rest => some (.float (consumed start rest), rest)
  | _ => none

def readNumber : Reader Value
  | '0' :: 'x' :: rest => readBased 16 rest
  | '0' :: 'o' :: rest => readBased 8 rest
  | '0' :: 'b' :: rest => readBased 2 rest
  | cs =>
    match readSpecial cs with
    | some r => some r
    | none => readDecimal cs

def readFixed (count low high : Nat) : Reader Nat := fun cs =>
  let digits := cs.take count
  if digits.length = count ∧ digits.all Text.isDigit then
    let n := Text.valueOfDigits digits
    if low ≤ n ∧ n ≤ high then some (n, cs.drop count) else none
  else none

def readChar (c : Char) : Reader Unit
  | d :: rest => if d = c then some ((), rest) else none
  | [] => none

def readDate : Reader Unit := fun cs => do
  let (year, cs) ← readFixed 4 0 9999 cs
  let (_, cs) ← readChar '-' cs
  let (month, cs) ← readFixed 2 1 12 cs
  let (_, cs) ← readChar '-' cs
  let (day, cs) ← readFixed 2 1 31 cs
  if (⟨year, month, day⟩ : Time.Date).isValid then some ((), cs) else none

def skipSecondFraction : List Char → List Char
  | '.' :: c :: rest =>
    if Text.isDigit c then rest.dropWhile Text.isDigit else '.' :: c :: rest
  | cs => cs

def readTimeOfDay : Reader Unit := fun cs => do
  let (_, cs) ← readFixed 2 0 23 cs
  let (_, cs) ← readChar ':' cs
  let (_, cs) ← readFixed 2 0 59 cs
  let (_, cs) ← readChar ':' cs
  let (_, cs) ← readFixed 2 0 60 cs
  some ((), skipSecondFraction cs)

def readOffset : Reader Unit
  | 'Z' :: rest => some ((), rest)
  | 'z' :: rest => some ((), rest)
  | c :: rest =>
    if c = '+' ∨ c = '-' then do
      let (_, rest) ← readFixed 2 0 23 rest
      let (_, rest) ← readChar ':' rest
      let (_, rest) ← readFixed 2 0 59 rest
      some ((), rest)
    else none
  | [] => none

def readTimeBehindDate : Reader Unit
  | c :: rest =>
    if c = 'T' ∨ c = 't' ∨ c = ' ' then do
      let (_, rest) ← readTimeOfDay rest
      match readOffset rest with
      | some r => some r
      | none => some ((), rest)
    else none
  | [] => none

def readDateTime : Reader Value := fun start =>
  match readDate start with
  | some (_, cs) =>
    let rest := match readTimeBehindDate cs with
      | some (_, rest) => rest
      | none => cs
    some (.dateTime (consumed start rest), rest)
  | none => (readTimeOfDay start).map fun p => (.dateTime (consumed start p.2), p.2)

end HearingRelay.Toml
