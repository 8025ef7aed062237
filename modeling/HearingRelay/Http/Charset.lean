import HearingRelay.Text.Split
import HearingRelay.Text.Blank

/-!
The text of a body. A byte order mark decides the encoding; without one the
charset that the sender names does, and UTF-8 where none is named or known.
Reading never fails: what is no character of the encoding becomes a
replacement character.
-/

namespace HearingRelay.Http

inductive Charset where
  | utf8
  | utf16 (bigEndian : Bool)
  | windows1252
deriving DecidableEq, Repr

namespace Charset

def replacement : Char := '\uFFFD'

/-! UTF-8 -/

/-- A character of several bytes of which some are still to come: how many,
the least and the greatest that the next one may be, and the value so far. -/
structure Sequence where
  owed : Nat
  low : Nat
  high : Nat
  value : Nat
deriving DecidableEq, Repr

/-- What a byte starts: a character, a sequence, or nothing that is allowed. -/
def startUtf8 (b : Nat) : List Char × Option Sequence :=
  if b < 0x80 then ([Char.ofNat b], none)
  else if 0xC2 ≤ b ∧ b ≤ 0xDF then ([], some ⟨1, 0x80, 0xBF, b - 0xC0⟩)
  else if 0xE0 ≤ b ∧ b ≤ 0xEF then
    ([], some ⟨2, if b = 0xE0 then 0xA0 else 0x80, if b = 0xED then 0x9F else 0xBF, b - 0xE0⟩)
  else if 0xF0 ≤ b ∧ b ≤ 0xF4 then
    ([], some ⟨3, if b = 0xF0 then 0x90 else 0x80, if b = 0xF4 then 0x8F else 0xBF, b - 0xF0⟩)
  else ([replacement], none)

/-- The characters that a byte ends, and the sequence that it leaves open. -/
def stepUtf8 (pending : Option Sequence) (b : Nat) : List Char × Option Sequence :=
  match pending with
  | none => startUtf8 b
  | some s =>
    if s.low ≤ b ∧ b ≤ s.high then
      let value := s.value * 64 + b % 64
      if s.owed ≤ 1 then ([Char.ofNat value], none)
      else ([], some ⟨s.owed - 1, 0x80, 0xBF, value⟩)
    else
      let (cs, pending) := startUtf8 b
      (replacement :: cs, pending)

def decodeUtf8 (pending : Option Sequence) : List UInt8 → List Char
  | [] => if pending.isSome then [replacement] else []
  | b :: rest =>
    let (cs, pending) := stepUtf8 pending b.toNat
    cs ++ decodeUtf8 pending rest

/-! UTF-16 -/

/-- The units of two bytes each, and whether a byte is left over. -/
def unitsOf (bigEndian : Bool) : List UInt8 → List Nat × Bool
  | [] => ([], false)
  | [_] => ([], true)
  | a :: b :: rest =>
    let (units, odd) := unitsOf bigEndian rest
    ((if bigEndian then a.toNat * 256 + b.toNat else b.toNat * 256 + a.toNat) :: units, odd)

def isLeading (u : Nat) : Bool := 0xD800 ≤ u && u ≤ 0xDBFF
def isTrailing (u : Nat) : Bool := 0xDC00 ≤ u && u ≤ 0xDFFF

/-- Units as characters; `pending` is a leading surrogate that waits for its
other half. -/
def decodeUnits (odd : Bool) (pending : Option Nat) : List Nat → List Char
  | [] => if odd || pending.isSome then [replacement] else []
  | u :: rest =>
    let alone := if isTrailing u then [replacement] else [Char.ofNat u]
    match pending with
    | some lead =>
      if isTrailing u then
        Char.ofNat (0x10000 + (lead - 0xD800) * 0x400 + (u - 0xDC00)) :: decodeUnits odd none rest
      else if isLeading u then replacement :: decodeUnits odd (some u) rest
      else replacement :: Char.ofNat u :: decodeUnits odd none rest
    | none =>
      if isLeading u then decodeUnits odd (some u) rest
      else alone ++ decodeUnits odd none rest

/-! Windows-1252 -/

/-- The characters of the bytes from 0x80 to 0x9F; all others stand for
themselves. -/
def windows1252High : List Nat := [
  0x20AC, 0x81, 0x201A, 0x192, 0x201E, 0x2026, 0x2020, 0x2021,
  0x2C6, 0x2030, 0x160, 0x2039, 0x152, 0x8D, 0x17D, 0x8F,
  0x90, 0x2018, 0x2019, 0x201C, 0x201D, 0x2022, 0x2013, 0x2014,
  0x2DC, 0x2122, 0x161, 0x203A, 0x153, 0x9D, 0x17E, 0x178]

def decodeWindows1252 (bytes : List UInt8) : List Char :=
  bytes.map fun b =>
    Char.ofNat (if 0x80 ≤ b.toNat then (windows1252High[b.toNat - 0x80]?).getD b.toNat else b.toNat)

/-! Choice of the encoding -/

def decodeAs (charset : Charset) (bytes : List UInt8) : String :=
  String.ofList (match charset with
    | utf8 => decodeUtf8 none bytes
    | utf16 bigEndian =>
      let (units, odd) := unitsOf bigEndian bytes
      decodeUnits odd none units
    | windows1252 => decodeWindows1252 bytes)

def ofMark? : List UInt8 → Option (Charset × List UInt8)
  | 0xEF :: 0xBB :: 0xBF :: rest => some (utf8, rest)
  | 0xFE :: 0xFF :: rest => some (utf16 true, rest)
  | 0xFF :: 0xFE :: rest => some (utf16 false, rest)
  | _ => none

def utf16Labels : List String :=
  ["utf-16", "utf-16le", "csunicode", "iso-10646-ucs-2", "ucs-2", "unicode", "unicodefeff"]

def windows1252Labels : List String :=
  ["ansi_x3.4-1968", "ascii", "cp1252", "cp819", "csisolatin1", "ibm819", "iso-8859-1",
    "iso-ir-100", "iso8859-1", "iso88591", "iso_8859-1", "iso_8859-1:1987", "l1", "latin1",
    "us-ascii", "windows-1252", "x-cp1252"]

/-- The encoding that a label means. Unknown labels mean UTF-8. -/
def ofLabel (label : String) : Charset :=
  if utf16Labels.contains label then utf16 false
  else if label == "utf-16be" || label == "unicodefffe" then utf16 true
  else if windows1252Labels.contains label then windows1252
  else utf8

def label? (contentType : String) : Option String :=
  let parts := (Text.splitAt (· == ';') contentType.toList).drop 1
  parts.findSome? fun part =>
    match part.span (· != '=') with
    | (name, '=' :: value) =>
      if (Text.trim name).map Text.toLower = "charset".toList then
        some (String.ofList ((Text.trim (value.filter (· != '"'))).map Text.toLower))
      else none
    | _ => none

def decode (contentType : Option String) (bytes : List UInt8) : String :=
  match ofMark? bytes with
  | some (charset, rest) => decodeAs charset rest
  | none => decodeAs (((contentType.bind label?).map ofLabel).getD utf8) bytes

end Charset

end HearingRelay.Http
