import HearingRelay.Json.Parser

/-!
Passing over a value that nobody reads. Brackets must match, but nesting has
no limit, numbers may be of any size and the surrogates of a string need not
form pairs.
-/

namespace HearingRelay.Json

inductive Bracket where
  | list
  | object
deriving DecidableEq, Repr

def Bracket.closing : Bracket → Char
  | .list => ']'
  | .object => '\x7d'

def Bracket.endCause : Bracket → Cause
  | .list => .endInList
  | .object => .endInObject

def Bracket.commaCause : Bracket → Cause
  | .list => .expectedListComma
  | .object => .expectedObjectComma

def skipKey (rest : List Char) : Except Failure (List Char) :=
  match skipBlanks rest with
  | [] => .error ⟨.endInObject, 0⟩
  | '"' :: tail =>
    match skipString tail with
    | .error e => .error e
    | .ok (_, tail) => readColon tail
  | rest => failNext .keyNotString rest

mutual

/-- Passes over the value that comes next inside the given brackets, innermost
first, and over all that closes them. -/
def skipInside : Nat → List Bracket → Reader Unit
  | 0, _, rest => failHere .expectedValue rest
  | fuel + 1, opened, rest =>
    match skipBlanks rest with
    | [] => .error ⟨.endInValue, 0⟩
    | c :: tail =>
      if c = 'n' then
        (readWord ['u', 'l', 'l'] tail).bind fun p => skipAfter fuel opened p.2
      else if c = 't' then
        (readWord ['r', 'u', 'e'] tail).bind fun p => skipAfter fuel opened p.2
      else if c = 'f' then
        (readWord ['a', 'l', 's', 'e'] tail).bind fun p => skipAfter fuel opened p.2
      else if c = '-' then
        (readLiteral true tail).bind fun p => skipAfter fuel opened p.2
      else if Text.isDigit c then
        (readLiteral false (c :: tail)).bind fun p => skipAfter fuel opened p.2
      else if c = '"' then
        (skipString tail).bind fun p => skipAfter fuel opened p.2
      else if c = '[' then skipOpened fuel .list opened tail
      else if c = '\x7b' then skipOpened fuel .object opened tail
      else failNext .expectedValue (c :: tail)

/-- After an opening bracket: its closing one, or a first entry. -/
def skipOpened : Nat → Bracket → List Bracket → Reader Unit
  | 0, _, _, rest => failHere .expectedValue rest
  | fuel + 1, bracket, opened, rest =>
    match skipBlanks rest with
    | [] => .error ⟨bracket.endCause, 0⟩
    | c :: tail =>
      if c = bracket.closing then skipAfter fuel opened tail
      else
        match bracket with
        | .list => skipInside fuel (.list :: opened) (c :: tail)
        | .object => (skipKey (c :: tail)).bind fun rest => skipInside fuel (.object :: opened) rest

/-- After a value: a comma and the next entry, or the closing bracket. -/
def skipAfter : Nat → List Bracket → Reader Unit
  | 0, _, rest => failHere .expectedValue rest
  | _, [], rest => .ok ((), rest)
  | fuel + 1, bracket :: opened, rest =>
    match skipBlanks rest with
    | [] => .error ⟨bracket.endCause, 0⟩
    | c :: tail =>
      if c = ',' then
        match bracket with
        | .list => skipInside fuel (.list :: opened) tail
        | .object => (skipKey tail).bind fun rest => skipInside fuel (.object :: opened) rest
      else if c = bracket.closing then skipAfter fuel opened tail
      else failNext bracket.commaCause (c :: tail)

end

def skipValue : Reader Unit := fun rest => skipInside (4 * rest.length + 4) [] rest

end HearingRelay.Json
