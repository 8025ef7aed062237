/-!
Settings files in TOML. A document denotes a table; a table holds values under
distinct keys. Floating-point numbers and dates keep the text that they were
written as.
-/

namespace HearingRelay.Toml

inductive Value where
  | text (s : String)
  | integer (n : Int)
  | float (literal : String)
  | bool (b : Bool)
  | dateTime (literal : String)
  | array (items : List Value)
  | table (entries : List (String × Value))
deriving Inhabited

abbrev Reader (α : Type) := List Char → Option (α × List Char)

def isSpace (c : Char) : Bool := c == ' ' || c == '\t'

def skipSpaces (cs : List Char) : List Char := cs.dropWhile isSpace

/-- Characters that texts and comments may hold as they are. -/
def isPlain (c : Char) : Bool := c == '\t' || (0x20 ≤ c.toNat && c.toNat != 0x7F)

/-- The end of a line: a line feed, with a carriage return in front or not. -/
def readLineEnd : Reader Unit
  | '\n' :: rest => some ((), rest)
  | '\r' :: '\n' :: rest => some ((), rest)
  | _ => none

/-- A comment up to the end of its line, which is left. -/
def skipComment : List Char → List Char
  | '#' :: rest => rest.dropWhile isPlain
  | rest => rest

def skipFiller : Nat → List Char → List Char
  | 0, cs => cs
  | steps + 1, cs =>
    match readLineEnd (skipComment (skipSpaces cs)) with
    | some (_, rest) => skipFiller steps rest
    | none => skipSpaces cs

def readLineRest (cs : List Char) : Option (List Char) :=
  match skipComment (skipSpaces cs) with
  | [] => some []
  | rest => (readLineEnd rest).map (·.2)

end HearingRelay.Toml
