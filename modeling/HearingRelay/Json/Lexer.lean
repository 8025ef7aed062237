import HearingRelay.Bounds
import HearingRelay.Json.Basic

/-!
The tokens of JSON: strings, number literals and the three words. A string
may hold any character but an unescaped quote, backslash or control character;
escapes outside the basic plane come as a pair of surrogates. A literal has no
needless leading zero, and digits on both sides of a point.
-/

namespace HearingRelay.Json

/-- Four hexadecimal digits; what follows must hold four bytes at least. -/
def readHex4 : Reader Nat := fun rest =>
  match rest with
  | a :: b :: c :: d :: tail =>
    match Text.hexDigitValue? a, Text.hexDigitValue? b, Text.hexDigitValue? c,
        Text.hexDigitValue? d with
    | some a, some b, some c, some d => .ok (a * 4096 + b * 256 + c * 16 + d, tail)
    | _, _, _, _ => .error ⟨.invalidEscape, byteLength rest - 4⟩
  | _ =>
    if byteLength rest < 4 then .error ⟨.endInString, 0⟩
    else .error ⟨.invalidEscape, byteLength rest - 4⟩

def isLeadingSurrogate (n : Nat) : Bool := 0xD800 ≤ n && n ≤ 0xDBFF
def isTrailingSurrogate (n : Nat) : Bool := 0xDC00 ≤ n && n ≤ 0xDFFF

def joinSurrogates (lead trail : Nat) : Char :=
  Char.ofNat ((lead - 0xD800) * 0x400 + (trail - 0xDC00) + 0x10000)

/-- One expected character, at which a text may not end either. -/
def expectInString (c : Char) : Reader Unit
  | [] => .error ⟨.endInString, 0⟩
  | d :: rest => if d = c then .ok ((), rest) else failNext .unfinishedSurrogate (d :: rest)

/-- The rest of a `\u` escape: one code unit, or two that form a pair. -/
def readUnicodeEscape : Reader Char := fun rest => do
  let (n, rest) ← readHex4 rest
  if isTrailingSurrogate n then failHere .loneSurrogate rest
  else if isLeadingSurrogate n then do
    let (_, rest) ← expectInString '\\' rest
    let (_, rest) ← expectInString 'u' rest
    let (m, rest) ← readHex4 rest
    if isTrailingSurrogate m then .ok (joinSurrogates n m, rest)
    else failHere .loneSurrogate rest
  else .ok (Char.ofNat n, rest)

def readEscape : Reader Char
  | [] => .error ⟨.endInString, 0⟩
  | '"' :: rest => .ok ('"', rest)
  | '\\' :: rest => .ok ('\\', rest)
  | '/' :: rest => .ok ('/', rest)
  | 'b' :: rest => .ok ('\x08', rest)
  | 'f' :: rest => .ok ('\x0c', rest)
  | 'n' :: rest => .ok ('\n', rest)
  | 'r' :: rest => .ok ('\r', rest)
  | 't' :: rest => .ok ('\t', rest)
  | 'u' :: rest => readUnicodeEscape rest
  | rest => failNext .invalidEscape rest

/-- The characters up to the closing quote, after the ones in `seen`, which
holds them last first. -/
def readCharacters : Nat → List Char → Reader (List Char)
  | 0, _, rest => failHere .endInString rest
  | _, _, [] => .error ⟨.endInString, 0⟩
  | fuel + 1, seen, c :: rest =>
    if c = '"' then .ok (seen.reverse, rest)
    else if c = '\\' then
      match readEscape rest with
      | .error e => .error e
      | .ok (d, rest) => readCharacters fuel (d :: seen) rest
    else if c.toNat < 0x20 then failHere .controlCharacter rest
    else readCharacters fuel (c :: seen) rest

def readString : Reader String := fun rest =>
  match readCharacters (rest.length + 1) [] rest with
  | .error e => .error e
  | .ok (cs, rest) => .ok (String.ofList cs, rest)

/-- The rest of a string that nobody reads: its escapes have a known letter
and four digits, but surrogates need not form pairs. -/
def skipCharacters : Nat → Reader Unit
  | 0, rest => failHere .endInString rest
  | _, [] => .error ⟨.endInString, 0⟩
  | fuel + 1, c :: rest =>
    if c = '"' then .ok ((), rest)
    else if c = '\\' then
      match rest with
      | 'u' :: tail =>
        match readHex4 tail with
        | .error e => .error e
        | .ok (_, tail) => skipCharacters fuel tail
      | _ =>
        match readEscape rest with
        | .error e => .error e
        | .ok (_, tail) => skipCharacters fuel tail
    else if c.toNat < 0x20 then failHere .controlCharacter rest
    else skipCharacters fuel rest

def skipString : Reader Unit := fun rest => skipCharacters (rest.length + 1) rest

def readWord : List Char → Reader Unit
  | [], rest => .ok ((), rest)
  | _ :: _, [] => .error ⟨.endInValue, 0⟩
  | c :: word, d :: rest =>
    if d = c then readWord word rest else failNext .expectedIdent (d :: rest)

def takeDigits (cs : List Char) : List Char × List Char := cs.span Text.isDigit

def Literal.isNonzero (n : Literal) : Bool :=
  n.whole.any (· != '0') || (n.fraction.getD []).any (· != '0')

/-- The digits of an exponent up to the one that passes the 32-bit range. -/
def digitsPastInt32 : List Char → Nat → Option (List Char)
  | [], _ => none
  | d :: ds, n =>
    let n := n * 10 + Text.digitValue d
    if Bounds.maxInt32 < n then some ds else digitsPastInt32 ds n

def readWhole : Reader (List Char)
  | [] => .error ⟨.endInValue, 0⟩
  | '0' :: rest =>
    match rest with
    | d :: _ => if Text.isDigit d then failNext .invalidNumber rest else .ok (['0'], rest)
    | [] => .ok (['0'], rest)
  | c :: rest =>
    if Text.isDigit c then .ok (takeDigits (c :: rest)) else failNext .invalidNumber (c :: rest)

def readFraction : Reader (Option (List Char))
  | '.' :: rest =>
    match takeDigits rest with
    | ([], []) => .error ⟨.endInValue, 0⟩
    | ([], rest) => failNext .invalidNumber rest
    | (ds, rest) => .ok (some ds, rest)
  | rest => .ok (none, rest)

def readExponentDigits : Reader (List Char)
  | [] => .error ⟨.endInValue, 0⟩
  | c :: rest =>
    if Text.isDigit c then .ok (takeDigits (c :: rest)) else failNext .invalidNumber (c :: rest)

def readExponent : Reader (Option (Bool × List Char))
  | c :: rest =>
    if c = 'e' ∨ c = 'E' then
      let (negative, rest) := match rest with
        | '+' :: tail => (false, tail)
        | '-' :: tail => (true, tail)
        | tail => (false, tail)
      match readExponentDigits rest with
      | .error e => .error e
      | .ok (ds, rest) => .ok (some (negative, ds), rest)
    else .ok (none, c :: rest)
  | [] => .ok (none, [])

def readLiteral (negative : Bool) : Reader Literal := fun rest => do
  let (whole, rest) ← readWhole rest
  let (fraction, rest) ← readFraction rest
  let (exponent, rest) ← readExponent rest
  .ok (⟨negative, whole, fraction, exponent⟩, rest)

end HearingRelay.Json
