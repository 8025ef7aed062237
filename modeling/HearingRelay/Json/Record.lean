import HearingRelay.Json.Skip

/-!
Typed readers. A record is read from an object, in which other names are
passed over and a known name may stand once, or from an array that holds the
fields in their order. A value of another kind is refused by its kind, a
number outside the range of its field by its value.
-/

namespace HearingRelay.Json

def plainLayout : Decimal.Layout := ⟨-400, 400⟩

def Number.found : Number → Found
  | .integer n => if 0 ≤ n then .unsigned n.toNat else .signed n
  | .real x => .real (plainLayout.write x)

/-- Refuses the value that comes next because of its kind. Lists and objects
are not entered. -/
def refuseKind {α : Type} (expected : String) (rest : List Char) : Except Failure α :=
  match skipBlanks rest with
  | [] => .error ⟨.endInValue, 0⟩
  | c :: tail =>
    if c = 'n' then do
      let (_, tail) ← readWord ['u', 'l', 'l'] tail
      failHere (.invalidType .unit expected) tail
    else if c = 't' then do
      let (_, tail) ← readWord ['r', 'u', 'e'] tail
      failHere (.invalidType (.boolean true) expected) tail
    else if c = 'f' then do
      let (_, tail) ← readWord ['a', 'l', 's', 'e'] tail
      failHere (.invalidType (.boolean false) expected) tail
    else if c = '-' then do
      let ((_, n), tail) ← readNumber true tail
      failHere (.invalidType n.found expected) tail
    else if Text.isDigit c then do
      let ((_, n), tail) ← readNumber false (c :: tail)
      failHere (.invalidType n.found expected) tail
    else if c = '"' then do
      let (s, tail) ← readString tail
      failHere (.invalidType (.text s) expected) tail
    else if c = '[' then failHere (.invalidType .sequence expected) (c :: tail)
    else if c = '\x7b' then failHere (.invalidType .map expected) (c :: tail)
    else failNext .expectedValue (c :: tail)

def readText : Reader String := fun rest =>
  match skipBlanks rest with
  | '"' :: tail => readString tail
  | _ => refuseKind "a string" rest

def readBool : Reader Bool := fun rest =>
  match skipBlanks rest with
  | 't' :: tail => (readWord ['r', 'u', 'e'] tail).map fun p => (true, p.2)
  | 'f' :: tail => (readWord ['a', 'l', 's', 'e'] tail).map fun p => (false, p.2)
  | _ => refuseKind "a boolean" rest

def readIntegerWithin (low high : Int) (expected : String) : Reader Int := fun rest =>
  match skipBlanks rest with
  | [] => .error ⟨.endInValue, 0⟩
  | c :: tail =>
    if c = '-' ∨ Text.isDigit c then do
      let ((_, n), tail) ← if c = '-' then readNumber true tail else readNumber false (c :: tail)
      match n with
      | .integer k =>
        if low ≤ k ∧ k ≤ high then .ok (k, tail)
        else failHere (.invalidValue n.found expected) tail
      | .real _ => failHere (.invalidType n.found expected) tail
    else refuseKind expected rest

def readOptional {α : Type} (reader : Reader α) : Reader (Option α) := fun rest =>
  match skipBlanks rest with
  | 'n' :: tail => (readWord ['u', 'l', 'l'] tail).map fun p => (none, p.2)
  | rest => (reader rest).map fun p => (some p.1, p.2)

/-- One of a few names: a string, or an object with the name as its only
member and `null` as the value. -/
def readVariant {α : Type} (named : String → Option α) (known : List String) :
    Reader α := fun rest =>
  let choose := fun (name : String) (rest : List Char) =>
    match named name with
    | some a => Except.ok (a, rest)
    | none => failHere (.unknownVariant name known) rest
  match skipBlanks rest with
  | [] => .error ⟨.endInValue, 0⟩
  | '"' :: tail => do
    let (name, tail) ← readString tail
    choose name tail
  | '\x7b' :: tail => do
    let (name, tail) ← readText tail
    let (a, tail) ← choose name tail
    let tail ← readColon tail
    match skipBlanks tail with
    | [] => .error ⟨.endInValue, 0⟩
    | 'n' :: tail => do
      let (_, tail) ← readWord ['u', 'l', 'l'] tail
      match skipBlanks tail with
      | [] => .error ⟨.endInObject, 0⟩
      | '\x7d' :: tail => .ok (a, tail)
      | tail => failNext .expectedValue tail
    | tail => refuseKind "unit" tail
  | rest => failNext .expectedValue rest

/-- String values under any names; of several with one name the last counts. -/
def readTexts : Nat → Bool → List (String × String) → Reader (List (String × String))
  | 0, _, _, rest => failHere .expectedValue rest
  | fuel + 1, first, seen, rest =>
    match nextKey first rest with
    | .error e => .error e
    | .ok none => .ok (seen.reverse, dropClosing rest)
    | .ok (some rest) => do
      let (name, rest) ← readString rest
      let rest ← readColon rest
      let (text, rest) ← readText rest
      readTexts fuel false ((name, text) :: seen) rest

def readTextMap : Reader (List (String × String)) := fun rest =>
  match skipBlanks rest with
  | '\x7b' :: tail => readTexts (tail.length + 1) true [] tail
  | _ => refuseKind "a map" rest

/-- A field of a record under construction `σ`. -/
structure Field (σ : Type) where
  name : String
  isSet : σ → Bool
  /-- Reads the value of the field into the record. -/
  read : σ → Reader σ
  /-- Whether the field may be missing at the end of an array. -/
  hasDefault : Bool

/-- Where reading stands after a refusal that is noticed between two members:
before what comes next, or behind the brace that ends the object. -/
def afterMember (rest : List Char) : List Char :=
  match skipBlanks rest with
  | '\x7d' :: tail => tail
  | rest => rest

def readFields {σ : Type} (fields : List (Field σ)) : Nat → Bool → σ → Reader σ
  | 0, _, _, rest => failHere .expectedValue rest
  | fuel + 1, first, record, rest =>
    match nextKey first rest with
    | .error e => .error e
    | .ok none => .ok (record, dropClosing rest)
    | .ok (some rest) =>
      match readString rest with
      | .error e => .error e
      | .ok (name, rest) =>
        match fields.find? (·.name == name) with
        | some field =>
          if field.isSet record then failHere (.duplicateField name) (afterMember rest)
          else
            match (readColon rest).bind (field.read record) with
            | .error e => .error e
            | .ok (record, rest) => readFields fields fuel false record rest
        | none =>
          match (readColon rest).bind skipValue with
          | .error e => .error e
          | .ok (_, rest) => readFields fields fuel false record rest

def readInOrder {σ : Type} (expected : String) (count : Nat) :
    List (Field σ) → Bool → Nat → σ → Reader σ
  | [], _, _, record, rest =>
    match skipBlanks rest with
    | [] => .error ⟨.endInList, 0⟩
    | ']' :: tail => .ok (record, tail)
    | ',' :: tail =>
      match skipBlanks tail with
      | ']' :: _ => failNext .trailingComma (skipBlanks tail)
      | rest => failNext .trailingCharacters rest
    | rest => failNext .trailingCharacters rest
  | field :: fields, first, n, record, rest =>
    match nextItem first rest with
    | .error e => .error e
    | .ok none =>
      if field.hasDefault then readInOrder expected count fields first (n + 1) record rest
      else failHere (.invalidLength n (expected ++ " with " ++ Text.writeNat count ++
        (if count = 1 then " element" else " elements"))) (dropClosing rest)
    | .ok (some rest) =>
      match field.read record rest with
      | .error e => .error e
      | .ok (record, rest) => readInOrder expected count fields false (n + 1) record rest

/-- Reads a record: `empty` before any field, `finish` when all are read. -/
def readRecord {σ α : Type} (expected : String) (fields : List (Field σ)) (empty : σ)
    (finish : σ → Except Cause α) : Reader α := fun rest =>
  let close : σ × List Char → Except Failure (α × List Char) := fun p =>
    match finish p.1 with
    | .ok a => .ok (a, p.2)
    | .error cause => failHere cause p.2
  match skipBlanks rest with
  | '\x7b' :: tail => (readFields fields (tail.length + 1) true empty tail).bind close
  | '[' :: tail => (readInOrder expected fields.length fields true 0 empty tail).bind close
  | _ => refuseKind expected rest

def required {α : Type} (name : String) : Option α → Except Cause α
  | some a => .ok a
  | none => .error (.missingField name)

end HearingRelay.Json
