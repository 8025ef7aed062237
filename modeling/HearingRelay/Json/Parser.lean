import HearingRelay.Json.Number

/-!
Reading a document. Arrays and objects may stand in each other up to 127
levels deep; a document is followed by blanks only. The readers of items and
members take the count of steps left, which the text's length bounds.
-/

namespace HearingRelay.Json

def depthLimit : Nat := 128

/-- What stands before the next item of a list: `some` rest when there is one. -/
def nextItem (first : Bool) (rest : List Char) : Except Failure (Option (List Char)) :=
  match skipBlanks rest with
  | [] => .error ⟨.endInList, 0⟩
  | ']' :: _ => .ok none
  | c :: tail =>
    if first then .ok (some (c :: tail))
    else if c = ',' then
      match skipBlanks tail with
      | [] => .error ⟨.endInValue, 0⟩
      | ']' :: tail => failNext .trailingComma (']' :: tail)
      | rest => .ok (some rest)
    else failNext .expectedListComma (c :: tail)

/-- What stands before the next name of an object, its opening quote read:
`some` rest when there is one. -/
def nextKey (first : Bool) (rest : List Char) : Except Failure (Option (List Char)) :=
  match skipBlanks rest with
  | [] => .error ⟨.endInObject, 0⟩
  | '\x7d' :: _ => .ok none
  | c :: tail =>
    if first then
      if c = '"' then .ok (some tail) else failNext .keyNotString (c :: tail)
    else if c = ',' then
      match skipBlanks tail with
      | [] => .error ⟨.endInValue, 0⟩
      | '"' :: tail => .ok (some tail)
      | '\x7d' :: tail => failNext .trailingComma ('\x7d' :: tail)
      | rest => failNext .keyNotString rest
    else failNext .expectedObjectComma (c :: tail)

def readColon (rest : List Char) : Except Failure (List Char) :=
  match skipBlanks rest with
  | [] => .error ⟨.endInObject, 0⟩
  | ':' :: tail => .ok tail
  | rest => failNext .expectedColon rest

def dropClosing (rest : List Char) : List Char := (skipBlanks rest).drop 1

mutual

def readValue : Nat → Nat → Reader Value
  | 0, _, rest => failHere .expectedValue rest
  | fuel + 1, depth, rest =>
    match skipBlanks rest with
    | [] => .error ⟨.endInValue, 0⟩
    | c :: tail =>
      if c = 'n' then (readWord ['u', 'l', 'l'] tail).map fun p => (.null, p.2)
      else if c = 't' then (readWord ['r', 'u', 'e'] tail).map fun p => (.bool true, p.2)
      else if c = 'f' then (readWord ['a', 'l', 's', 'e'] tail).map fun p => (.bool false, p.2)
      else if c = '-' then (readNumber true tail).map fun p => (.number p.1.1, p.2)
      else if Text.isDigit c then
        (readNumber false (c :: tail)).map fun p => (.number p.1.1, p.2)
      else if c = '"' then (readString tail).map fun p => (.string p.1, p.2)
      else if c = '[' then
        if depth ≤ 1 then failNext .tooDeep (c :: tail)
        else (readItems fuel (depth - 1) true [] tail).map fun p => (.array p.1, p.2)
      else if c = '\x7b' then
        if depth ≤ 1 then failNext .tooDeep (c :: tail)
        else (readMembers fuel (depth - 1) true [] tail).map fun p => (.object p.1, p.2)
      else failNext .expectedValue (c :: tail)

/-- Items up to the closing bracket, after the ones in `seen`, which holds them
last first. -/
def readItems : Nat → Nat → Bool → List Value → Reader (List Value)
  | 0, _, _, _, rest => failHere .expectedValue rest
  | fuel + 1, depth, first, seen, rest =>
    match nextItem first rest with
    | .error e => .error e
    | .ok none => .ok (seen.reverse, dropClosing rest)
    | .ok (some rest) =>
      match readValue fuel depth rest with
      | .error e => .error e
      | .ok (v, rest) => readItems fuel depth false (v :: seen) rest

def readMembers : Nat → Nat → Bool → List (String × Value) → Reader (List (String × Value))
  | 0, _, _, _, rest => failHere .expectedValue rest
  | fuel + 1, depth, first, seen, rest =>
    match nextKey first rest with
    | .error e => .error e
    | .ok none => .ok (seen.reverse, dropClosing rest)
    | .ok (some rest) =>
      match readString rest with
      | .error e => .error e
      | .ok (name, rest) =>
        match readColon rest with
        | .error e => .error e
        | .ok rest =>
          match readValue fuel depth rest with
          | .error e => .error e
          | .ok (v, rest) => readMembers fuel depth false ((name, v) :: seen) rest

end

def stepsFor (text : List Char) : Nat := 2 * text.length + 2

def readDocument : Reader Value := fun rest => readValue (stepsFor rest) depthLimit rest

/-- Reads a whole text: nothing but blanks may follow. -/
def runReader {α : Type} (reader : Reader α) (text : String) : Except Error α :=
  let cs := text.toList
  match reader cs with
  | .error f => .error (f.place cs)
  | .ok (a, rest) =>
    match skipBlanks rest with
    | [] => .ok a
    | rest => .error (Failure.place cs ⟨.trailingCharacters, byteLength rest - 1⟩)

def parse (text : String) : Except Error Value := runReader readDocument text

end HearingRelay.Json
