import HearingRelay.Http.Host

/-!
Web addresses. A text is read as people write it: blanks around it and line
ends inside of it do not count, schemes and domains are in any case, and in a
web address backslashes are slashes. The written form is normal: dots in the
path are resolved, the usual port of a scheme is left out, and user names are
not kept.
-/

namespace HearingRelay.Http

structure Url where
  scheme : String
  host : Option String
  /-- The port, if it is not the usual one. -/
  port : Option Nat
  path : String
  query : Option String
  fragment : Option String
deriving DecidableEq, Repr

namespace Url

def usualPort? (scheme : String) : Option Nat :=
  match scheme with
  | "http" => some 80
  | "https" => some 443
  | "ws" => some 80
  | "wss" => some 443
  | "ftp" => some 21
  | _ => none

def isSchemeChar (c : Char) : Bool :=
  Text.isLetter c || Text.isDigit c || c == '+' || c == '-' || c == '.'

def readScheme? (cs : List Char) : Option (String × List Char) :=
  match cs.span isSchemeChar with
  | (c :: scheme, ':' :: rest) =>
    if Text.isLetter c then some (String.ofList ((c :: scheme).map Text.toLower), rest) else none
  | _ => none

def isControlOrSpace (c : Char) : Bool := c.toNat ≤ 0x20

def clean (cs : List Char) : List Char :=
  let cs := (cs.dropWhile isControlOrSpace).reverse
  (cs.dropWhile isControlOrSpace).reverse.filter fun c => c != '\t' && c != '\n' && c != '\r'

def isSlash (web : Bool) (c : Char) : Bool := c == '/' || (web && c == '\\')

/-- What stands behind the last `@`: the rest names the user. -/
def dropUser (cs : List Char) : List Char := ((Text.splitAt (· == '@') cs).getLast?).getD []

/-- A host and a port, in an authority without a user. -/
def splitPort (cs : List Char) : List Char × List Char :=
  match cs with
  | '[' :: _ =>
    match cs.span (· != ']') with
    | (inner, ']' :: rest) => (inner ++ [']'], rest)
    | (inner, rest) => (inner, rest)
  | _ => cs.span (· != ':')

/-- The number behind a colon; none when nothing stands there. -/
def readPort? : List Char → Option (Option Nat)
  | [] => some none
  | [':'] => some none
  | ':' :: digits =>
    if digits.all Text.isDigit then
      let n := Text.valueOfDigits digits
      if n ≤ Bounds.maxUInt16 then some (some n) else none
    else none
  | _ => none

def fragmentEscapes : List Char := [' ', '"', '<', '>', '\x60']
def pathEscapes : List Char := fragmentEscapes ++ ['#', '?', '\x7b', '\x7d']
def queryEscapes : List Char := [' ', '"', '#', '<', '>']

def plainSegment (segment : List Char) : String :=
  let rec go : List Char → List Char
    | '%' :: '2' :: 'e' :: rest => '.' :: go rest
    | '%' :: '2' :: 'E' :: rest => '.' :: go rest
    | c :: rest => c :: go rest
    | [] => []
  String.ofList (go segment)

/-- Resolves one and two points in segments; `done` holds the segments before,
last first. A path that ends in points ends in a slash. -/
def resolve : List (List Char) → List (List Char) → List (List Char)
  | [], done => done.reverse
  | segment :: rest, done =>
    let plain := plainSegment segment
    if plain = "." then resolve rest (if rest.isEmpty then [] :: done else done)
    else if plain = ".." then
      resolve rest (if rest.isEmpty then [] :: done.drop 1 else done.drop 1)
    else resolve rest (percentEncode pathEscapes segment :: done)

def normalPath (web : Bool) (cs : List Char) : String :=
  "/" ++ String.ofList (['/'].intercalate (resolve (Text.splitAt (isSlash web) cs) []))

def splitTail (cs : List Char) : List Char × Option (List Char) × Option (List Char) :=
  let (body, fragment) := match cs.span (· != '#') with
    | (body, _ :: fragment) => (body, some fragment)
    | (body, []) => (body, none)
  match body.span (· != '?') with
  | (path, _ :: query) => (path, some query, fragment)
  | (path, []) => (path, none, fragment)

def isAuthorityEnd (web : Bool) (c : Char) : Bool := isSlash web c || c == '?' || c == '#'

def withAuthority? (scheme : String) (usual : Option Nat) (cs : List Char) : Option Url := do
  let web := usual.isSome
  let (authority, rest) := cs.span (!isAuthorityEnd web ·)
  let (name, port) := splitPort (dropUser authority)
  let host ← host? name
  let port ← readPort? port
  let (path, query, fragment) := splitTail rest
  some {
    scheme, host := some host
    port := if port = usual then none else port
    path := match path with
      | _ :: path => normalPath web path
      | [] => if web then "/" else ""
    query := query.map fun q =>
      String.ofList (percentEncode (if web then '\'' :: queryEscapes else queryEscapes) q)
    fragment := fragment.map fun f => String.ofList (percentEncode fragmentEscapes f) }

def withoutHost (scheme : String) (cs : List Char) : Url :=
  let (path, query, fragment) := splitTail cs
  { scheme, host := none, port := none
    path := match path with
      | '/' :: path => normalPath false path
      | path => String.ofList (percentEncode [] path)
    query := query.map fun q => String.ofList (percentEncode queryEscapes q)
    fragment := fragment.map fun f => String.ofList (percentEncode fragmentEscapes f) }

def parse (text : String) : Option Url := do
  let (scheme, rest) ← readScheme? (clean text.toList)
  match usualPort? scheme with
  | some port => withAuthority? scheme (some port) (rest.dropWhile (isSlash true))
  | none =>
    match rest with
    | '/' :: '/' :: '/' :: path =>
      let u := withoutHost scheme ('/' :: path)
      some { u with path := "//" ++ u.path }
    | '/' :: '/' :: rest => withAuthority? scheme none rest
    | rest => some (withoutHost scheme rest)

def write (u : Url) : String :=
  u.scheme ++ ":" ++
    (match u.host with
      | some host => "//" ++ host
      | none => "") ++
    (match u.port with
      | some port => ":" ++ Text.writeNat port
      | none => "") ++ u.path ++
    (match u.query with
      | some query => "?" ++ query
      | none => "") ++
    match u.fragment with
    | some fragment => "#" ++ fragment
    | none => ""

def isHttp (u : Url) : Bool := u.scheme == "http" || u.scheme == "https"

end Url

end HearingRelay.Http
