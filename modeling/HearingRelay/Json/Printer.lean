import HearingRelay.Json.Number

/-!
Writing a document in its compact form: no blanks, the members of an object
sorted by name, and of several members with one name the last. Strings escape
the quote, the backslash and the control characters, and nothing else.
-/

namespace HearingRelay.Json

def hexDigit (n : Nat) : Char := Char.ofNat (if n < 10 then 0x30 + n else 0x57 + n)

def escapeChar (c : Char) : List Char :=
  if c = '"' then ['\\', '"']
  else if c = '\\' then ['\\', '\\']
  else if c = '\x08' then ['\\', 'b']
  else if c = '\x0c' then ['\\', 'f']
  else if c = '\n' then ['\\', 'n']
  else if c = '\r' then ['\\', 'r']
  else if c = '\t' then ['\\', 't']
  else if c.toNat < 0x20 then
    ['\\', 'u', '0', '0', hexDigit (c.toNat / 16), hexDigit (c.toNat % 16)]
  else [c]

def writeString (s : String) : String :=
  "\"" ++ String.ofList (s.toList.flatMap escapeChar) ++ "\""

def Literal.write (n : Literal) : String :=
  match n.number? with
  | some x => x.write
  | none => "null"

def writeOptional {α : Type} (write : α → String) : Option α → String
  | some a => write a
  | none => "null"

def insertSorted {α : Type} (name : String) (a : α) : List (String × α) → List (String × α)
  | [] => [(name, a)]
  | (k, b) :: rest =>
    if name < k then (name, a) :: (k, b) :: rest
    else if name = k then (name, a) :: rest
    else (k, b) :: insertSorted name a rest

/-- The pairs sorted by name; of those with one name the last stays. -/
def sortedByName {α : Type} (pairs : List (String × α)) : List (String × α) :=
  pairs.foldl (fun sorted p => insertSorted p.1 p.2 sorted) []

def writeList (texts : List String) : String := "[" ++ ",".intercalate texts ++ "]"

def writePairs (pairs : List (String × String)) : String :=
  "\x7b" ++ ",".intercalate (pairs.map fun p => writeString p.1 ++ ":" ++ p.2) ++ "\x7d"

mutual

def Value.write : Value → String
  | .null => "null"
  | .bool b => if b then "true" else "false"
  | .number n => n.write
  | .string s => writeString s
  | .array items => writeList (writeItems items)
  | .object members => writePairs (sortedByName (writeMembers members))

def writeItems : List Value → List String
  | [] => []
  | v :: rest => v.write :: writeItems rest

def writeMembers : List (String × Value) → List (String × String)
  | [] => []
  | (name, v) :: rest => (name, v.write) :: writeMembers rest

end

end HearingRelay.Json
