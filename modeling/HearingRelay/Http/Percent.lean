import HearingRelay.Text.Digits
import HearingRelay.Text.Split

/-!
Percent encoding: a byte is written as `%` and two hexadecimal digits. Which
characters are written so is up to the place where a text goes; a character
outside of ASCII always is, byte by byte of its UTF-8 form.
-/

namespace HearingRelay.Http

def upperHexDigit (n : Nat) : Char := Char.ofNat (if n < 10 then 0x30 + n else 0x37 + n)

def percentByte (b : UInt8) : List Char :=
  ['%', upperHexDigit (b.toNat / 16), upperHexDigit (b.toNat % 16)]

def percentChar (c : Char) : List Char := (String.utf8EncodeChar c).flatMap percentByte

def isUnprintable (c : Char) : Bool := c.toNat < 0x20 || 0x7E < c.toNat

/-- Writes the given characters of a text as bytes, besides the unprintable ones. -/
def percentEncode (escaped : List Char) (cs : List Char) : List Char :=
  cs.flatMap fun c => if isUnprintable c || escaped.contains c then percentChar c else [c]

def percentDecode : List Char → List UInt8
  | [] => []
  | '%' :: a :: b :: rest =>
    match Text.hexDigitValue? a, Text.hexDigitValue? b with
    | some x, some y => (x * 16 + y).toUInt8 :: percentDecode rest
    | _, _ => '%'.toUInt8 :: percentDecode (a :: b :: rest)
  | c :: rest => String.utf8EncodeChar c ++ percentDecode rest

def isFormChar (c : Char) : Bool :=
  Text.isDigit c || Text.isLetter c || c == '*' || c == '-' || c == '.' || c == '_'

/-- A name or a value of a form. A blank becomes a plus sign. -/
def formText (s : String) : String :=
  String.ofList (s.toList.flatMap fun c =>
    if isFormChar c then [c] else if c = ' ' then ['+'] else percentChar c)

def writeForm (fields : List (String × String)) : String :=
  "&".intercalate (fields.map fun f => formText f.1 ++ "=" ++ formText f.2)

end HearingRelay.Http
