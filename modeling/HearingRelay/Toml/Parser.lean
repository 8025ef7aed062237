import HearingRelay.Toml.Number
import HearingRelay.Toml.Table
import HearingRelay.Toml.Text

/-!
Reading a document line by line: headers, pairs, comments and empty lines. A
value in brackets may go over several lines and may end in a comma; a table in
braces may do neither.
-/

namespace HearingRelay.Toml

def readPairKey : Reader (List String × String) := fun cs => do
  let (parts, cs) ← readKey cs
  let (_, cs) ← readChar '=' (skipSpaces cs)
  let key ← parts.getLast?
  some ((parts.dropLast, key), skipSpaces cs)

mutual

def readValue : Nat → Nat → Reader Value
  | 0, _, _ => none
  | steps + 1, depth, cs =>
    match cs with
    | '"' :: _ => (readText cs).map fun p => (.text p.1, p.2)
    | '\'' :: _ => (readText cs).map fun p => (.text p.1, p.2)
    | '[' :: rest => if depth = 0 then none else readItems steps (depth - 1) [] rest
    | '\x7b' :: rest =>
      if depth = 0 then none
      else
        match skipSpaces rest with
        | '\x7d' :: rest => some (.table [], rest)
        | rest => readInline steps (depth - 1) [] rest
    | 't' :: 'r' :: 'u' :: 'e' :: rest => some (.bool true, rest)
    | 'f' :: 'a' :: 'l' :: 's' :: 'e' :: rest => some (.bool false, rest)
    | _ =>
      match readDateTime cs with
      | some r => some r
      | none => readNumber cs

def readItems : Nat → Nat → List Value → Reader Value
  | 0, _, _, _ => none
  | steps + 1, depth, seen, cs =>
    match skipFiller (cs.length + 1) cs with
    | ']' :: rest => some (.array seen.reverse, rest)
    | cs =>
      match readValue steps depth cs with
      | none => none
      | some (v, rest) =>
        match skipFiller (rest.length + 1) rest with
        | ',' :: rest => readItems steps depth (v :: seen) rest
        | ']' :: rest => some (.array (v :: seen).reverse, rest)
        | _ => none

def readInline : Nat → Nat → List Pair → Reader Value
  | 0, _, _, _ => none
  | steps + 1, depth, seen, cs =>
    match readPairKey cs with
    | none => none
    | some ((path, key), rest) =>
      match readValue steps depth rest with
      | none => none
      | some (v, rest) =>
        let pairs := ⟨path, key, v⟩ :: seen
        match skipSpaces rest with
        | ',' :: rest => readInline steps depth pairs rest
        | '\x7d' :: rest => (inlineTable? pairs.reverse).map fun t => (t, rest)
        | _ => none

end

inductive Line where
  | pair (p : Pair)
  | table (path : List String) (key : String)
  | item (path : List String) (key : String)

def readHeader : Reader Line
  | '[' :: '[' :: rest => do
    let (parts, rest) ← readKey rest
    let (_, rest) ← readChar ']' rest
    let (_, rest) ← readChar ']' rest
    let key ← parts.getLast?
    some (.item parts.dropLast key, rest)
  | '[' :: rest => do
    let (parts, rest) ← readKey rest
    let (_, rest) ← readChar ']' rest
    let key ← parts.getLast?
    some (.table parts.dropLast key, rest)
  | _ => none

def readPair : Reader Line := fun cs => do
  let ((path, key), rest) ← readPairKey cs
  let (v, rest) ← readValue (2 * rest.length + 2) depthLimit rest
  some (.pair ⟨path, key, v⟩, rest)

def readDocument : Nat → List Line → List Char → Option (List Line)
  | 0, _, _ => none
  | steps + 1, seen, cs =>
    match skipSpaces cs with
    | [] => some seen.reverse
    | c :: rest =>
      if c = '#' ∨ c = '\n' ∨ c = '\r' then
        (readLineRest (c :: rest)).bind (readDocument steps seen)
      else
        match (if c = '[' then readHeader (c :: rest) else readPair (c :: rest)) with
        | none => none
        | some (line, rest) => (readLineRest rest).bind (readDocument steps (line :: seen))

def spanPairs : List Line → List Pair × List Line
  | .pair p :: rest =>
    let (pairs, rest) := spanPairs rest
    (p :: pairs, rest)
  | rest => ([], rest)

/-- The blocks that lines make up; pairs go to the header above them. -/
def blocksOf : Nat → List Line → List Block
  | 0, _ => []
  | _, [] => []
  | steps + 1, .pair _ :: rest => blocksOf steps rest
  | steps + 1, .table path key :: rest =>
    let (pairs, rest) := spanPairs rest
    .table path key pairs :: blocksOf steps rest
  | steps + 1, .item path key :: rest =>
    let (pairs, rest) := spanPairs rest
    .item path key pairs :: blocksOf steps rest

def parse (text : String) : Option (List (String × Value)) := do
  let cs := match text.toList with
    | '\uFEFF' :: rest => rest
    | cs => cs
  let lines ← readDocument (cs.length + 1) [] cs
  let (pairs, rest) := spanPairs lines
  tableOf? pairs (blocksOf (rest.length + 1) rest)

end HearingRelay.Toml
