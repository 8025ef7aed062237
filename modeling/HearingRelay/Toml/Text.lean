import HearingRelay.Toml.Value
import HearingRelay.Text.Digits

/-!
Texts and keys. Texts stand in double quotes, where a backslash escapes, or in
single quotes, where nothing does. Three quotes in a row open a text of
several lines, whose first line end does not count; such a text may itself end
in one or two quotes. A key is a run of letters, digits, `_` and `-`, or a
text of one line.
-/

namespace HearingRelay.Toml

def readCodePoint (count : Nat) : Reader Char := fun cs =>
  let digits := (cs.take count).filterMap Text.hexDigitValue?
  if digits.length = count then
    let n := digits.foldl (fun n d => n * 16 + d) 0
    if n.isValidChar then some (Char.ofNat n, cs.drop count) else none
  else none

def readEscape : Reader Char
  | 'b' :: rest => some ('\x08', rest)
  | 't' :: rest => some ('\t', rest)
  | 'n' :: rest => some ('\n', rest)
  | 'f' :: rest => some ('\x0c', rest)
  | 'r' :: rest => some ('\r', rest)
  | '"' :: rest => some ('"', rest)
  | '\\' :: rest => some ('\\', rest)
  | 'u' :: rest => readCodePoint 4 rest
  | 'U' :: rest => readCodePoint 8 rest
  | _ => none

/-- The rest of a text in double quotes, after the characters in `seen`, which
holds them last first. -/
def readQuoted : Nat → List Char → Reader String
  | 0, _, _ => none
  | _, _, [] => none
  | steps + 1, seen, c :: rest =>
    if c = '"' then some (String.ofList seen.reverse, rest)
    else if c = '\\' then
      match readEscape rest with
      | some (d, rest) => readQuoted steps (d :: seen) rest
      | none => none
    else if isPlain c then readQuoted steps (c :: seen) rest
    else none

def readLiteral (cs : List Char) : Option (String × List Char) :=
  match cs.span (fun c => isPlain c && c != '\'') with
  | (text, '\'' :: rest) => some (String.ofList text, rest)
  | _ => none

def skipLines : Nat → List Char → List Char
  | 0, cs => cs
  | steps + 1, cs =>
    match readLineEnd (skipSpaces cs) with
    | some (_, rest) => skipLines steps rest
    | none => skipSpaces cs

/-- A backslash at the end of a line takes the blanks behind it with it, up to
the next character that is none. -/
def skipLineJoin (cs : List Char) : Option (List Char) :=
  match readLineEnd (skipSpaces cs) with
  | some (_, rest) => some (skipLines (rest.length + 1) rest)
  | none => none

/-- The rest of a text of several lines. Only the ones in double quotes have
escapes. -/
def readLines (quote : Char) : Nat → List Char → Reader String
  | 0, _, _ => none
  | _, _, [] => none
  | steps + 1, seen, c :: rest =>
    if c = quote then
      let run := (c :: rest).takeWhile (· == quote)
      let tail := (c :: rest).dropWhile (· == quote)
      if run.length < 3 then readLines quote steps (run ++ seen) tail
      else if run.length ≤ 5 then
        some (String.ofList ((run.drop 3 ++ seen).reverse), tail)
      else none
    else if c = '\\' ∧ quote = '"' then
      match skipLineJoin rest with
      | some rest => readLines quote steps seen rest
      | none =>
        match readEscape rest with
        | some (d, rest) => readLines quote steps (d :: seen) rest
        | none => none
    else
      match readLineEnd (c :: rest) with
      | some (_, rest) => readLines quote steps ('\n' :: seen) rest
      | none => if isPlain c then readLines quote steps (c :: seen) rest else none

def readBlock (quote : Char) : Reader String := fun cs =>
  let body := match readLineEnd cs with
    | some (_, rest) => rest
    | none => cs
  readLines quote (body.length + 1) [] body

def readText : Reader String
  | '"' :: '"' :: '"' :: rest => readBlock '"' rest
  | '\'' :: '\'' :: '\'' :: rest => readBlock '\'' rest
  | '"' :: rest => readQuoted (rest.length + 1) [] rest
  | '\'' :: rest => readLiteral rest
  | _ => none

def isKeyChar (c : Char) : Bool :=
  Text.isDigit c || ('a' ≤ c && c ≤ 'z') || ('A' ≤ c && c ≤ 'Z') || c == '_' || c == '-'

def readSimpleKey : Reader String
  | '"' :: rest => readQuoted (rest.length + 1) [] rest
  | '\'' :: rest => readLiteral rest
  | cs =>
    match cs.span isKeyChar with
    | ([], _) => none
    | (key, rest) => some (String.ofList key, rest)

/-- The most parts of a key, and the deepest nesting of values. -/
def depthLimit : Nat := 79

def readKeyParts : Nat → Reader (List String)
  | 0, _ => none
  | steps + 1, cs =>
    match readSimpleKey (skipSpaces cs) with
    | none => none
    | some (key, rest) =>
      match skipSpaces rest with
      | '.' :: rest => (readKeyParts steps rest).map fun p => (key :: p.1, p.2)
      | rest => some ([key], rest)

def readKey : Reader (List String) := readKeyParts depthLimit

end HearingRelay.Toml
