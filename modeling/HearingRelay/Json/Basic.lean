import HearingRelay.Text.Digits
import HearingRelay.Decimal.Shortest

/-!
JSON documents as they are read, and the reasons why a text is refused.
A document keeps its members in the order of the text, repeated names
included, and its numbers as literals. What a literal counts as, and which of
two members of one name counts, is decided when a document is written.
-/

namespace HearingRelay.Json

/-- A number as it stands in the text. -/
structure Literal where
  negative : Bool
  whole : List Char
  fraction : Option (List Char)
  /-- Whether the exponent is negative, and its digits. -/
  exponent : Option (Bool × List Char)
deriving DecidableEq, Repr, Inhabited

inductive Value where
  | null
  | bool (b : Bool)
  | number (n : Literal)
  | string (s : String)
  | array (items : List Value)
  | object (members : List (String × Value))
deriving Inhabited

inductive Found where
  | unit
  | boolean (b : Bool)
  | unsigned (n : Nat)
  | signed (n : Int)
  | real (text : String)
  | text (s : String)
  | sequence
  | map
deriving DecidableEq, Repr

def quoteText (s : String) : String :=
  let escape : Char → String := fun c =>
    if c = '"' then "\\\"" else if c = '\\' then "\\\\"
    else if c = '\n' then "\\n" else if c = '\r' then "\\r" else if c = '\t' then "\\t"
    else String.singleton c
  "\"" ++ String.join (s.toList.map escape) ++ "\""

def Found.describe : Found → String
  | .unit => "null"
  | .boolean b => "boolean `" ++ (if b then "true" else "false") ++ "`"
  | .unsigned n => "integer `" ++ Text.writeNat n ++ "`"
  | .signed n => "integer `" ++ Text.writeInt n ++ "`"
  | .real t => "floating point `" ++ t ++ "`"
  | .text s => "string " ++ quoteText s
  | .sequence => "sequence"
  | .map => "map"

/-- Why a text is refused. The last group comes from typed readers. -/
inductive Cause where
  | endInValue
  | endInList
  | endInObject
  | endInString
  | expectedValue
  | expectedColon
  | expectedListComma
  | expectedObjectComma
  | expectedIdent
  | keyNotString
  | trailingComma
  | trailingCharacters
  | invalidNumber
  | numberOutOfRange
  | invalidEscape
  | unfinishedSurrogate
  | loneSurrogate
  | controlCharacter
  | tooDeep
  | invalidType (found : Found) (expected : String)
  | invalidValue (found : Found) (expected : String)
  | invalidLength (n : Nat) (expected : String)
  | missingField (name : String)
  | duplicateField (name : String)
  | unknownVariant (name : String) (known : List String)
  | invalidDate
deriving DecidableEq, Repr

def Cause.describe : Cause → String
  | .endInValue => "EOF while parsing a value"
  | .endInList => "EOF while parsing a list"
  | .endInObject => "EOF while parsing an object"
  | .endInString => "EOF while parsing a string"
  | .expectedValue => "expected value"
  | .expectedColon => "expected `:`"
  | .expectedListComma => "expected `,` or `]`"
  | .expectedObjectComma => "expected `,` or `\x7d`"
  | .expectedIdent => "expected ident"
  | .keyNotString => "key must be a string"
  | .trailingComma => "trailing comma"
  | .trailingCharacters => "trailing characters"
  | .invalidNumber => "invalid number"
  | .numberOutOfRange => "number out of range"
  | .invalidEscape => "invalid escape"
  | .unfinishedSurrogate => "unexpected end of hex escape"
  | .loneSurrogate => "lone leading surrogate in hex escape"
  | .controlCharacter => "control character (\\u0000-\\u001F) found while parsing a string"
  | .tooDeep => "recursion limit exceeded"
  | .invalidType found expected => "invalid type: " ++ found.describe ++ ", expected " ++ expected
  | .invalidValue found expected => "invalid value: " ++ found.describe ++ ", expected " ++ expected
  | .invalidLength n expected => "invalid length " ++ Text.writeNat n ++ ", expected " ++ expected
  | .missingField name => "missing field `" ++ name ++ "`"
  | .duplicateField name => "duplicate field `" ++ name ++ "`"
  | .unknownVariant name known => "unknown variant `" ++ name ++ "`, expected one of " ++
      ", ".intercalate (known.map fun k => "`" ++ k ++ "`")
  | .invalidDate => "input contains invalid characters"

/-- A refusal, located by the number of bytes that were not consumed. -/
structure Failure where
  cause : Cause
  unread : Nat
deriving DecidableEq, Repr

structure Error where
  cause : Cause
  line : Nat
  column : Nat
deriving DecidableEq, Repr

def Error.message (e : Error) : String :=
  e.cause.describe ++ " at line " ++ Text.writeNat e.line ++ " column " ++ Text.writeNat e.column

def byteLength (cs : List Char) : Nat := cs.foldl (fun n c => n + c.utf8Size) 0

/-- Line and column after the given number of bytes. Lines end at a line feed
and count from one; a column is the number of bytes consumed on its line, and
a part of a character counts with the bytes taken of it. -/
def locate : List Char → Nat → Nat × Nat → Nat × Nat
  | [], _, at_ => at_
  | c :: cs, bytes, (line, column) =>
    if bytes = 0 then (line, column)
    else if bytes < c.utf8Size then (line, column + bytes)
    else
      locate cs (bytes - c.utf8Size)
        (if c = '\n' then (line + 1, 0) else (line, column + c.utf8Size))

def Failure.place (text : List Char) (f : Failure) : Error :=
  let (line, column) := locate text (byteLength text - f.unread) (1, 0)
  ⟨f.cause, line, column⟩

/-- A reader consumes a prefix of the text or refuses it. -/
abbrev Reader (α : Type) := List Char → Except Failure (α × List Char)

/-- A refusal at the character that comes next, which it counts as consumed.
At the end of the text there is none. -/
def failNext {α : Type} (cause : Cause) (rest : List Char) : Except Failure α :=
  .error ⟨cause, byteLength rest - 1⟩

def failHere {α : Type} (cause : Cause) (rest : List Char) : Except Failure α :=
  .error ⟨cause, byteLength rest⟩

def isSeparator (c : Char) : Bool := c == ' ' || c == '\n' || c == '\t' || c == '\r'

def skipBlanks (cs : List Char) : List Char := cs.dropWhile isSeparator

end HearingRelay.Json
