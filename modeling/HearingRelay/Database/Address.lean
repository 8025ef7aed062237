import HearingRelay.Http.Charset
import HearingRelay.Http.Percent

/-!
Addresses of databases. The scheme decides the kind of database. The name of a
file may be written with percent codes, and parameters behind a question mark
say how the file is opened; an address with a parameter that is not known is
no address.
-/

namespace HearingRelay

structure DatabaseAddress where
  /-- The name of the file. A database without one is gone with the program. -/
  file : Option String
  readOnly : Bool
  create : Bool
  immutable : Bool
deriving DecidableEq, Repr

namespace DatabaseAddress

def behind? (mark : String) (text : List Char) : Option (List Char) :=
  if mark.toList.isPrefixOf text then some (text.drop mark.length) else none

def behindAll (mark : String) (text : List Char) : List Char :=
  let rec go : Nat → List Char → List Char
    | 0, text => text
    | steps + 1, text =>
      match behind? mark text with
      | some rest => go steps rest
      | none => text
  go text.length text

def fileScheme : String := "sqlite:"
def serverSchemes : List String := ["postgres://", "postgresql://"]

def isFileAddress (url : String) : Bool := fileScheme.toList.isPrefixOf url.toList

def isServerAddress (url : String) : Bool :=
  serverSchemes.any fun scheme => scheme.toList.isPrefixOf url.toList

/-- The name that a file address gives, as it is written. -/
def writtenName? (url : String) : Option String :=
  let cs := url.toList
  let rest := (behind? (fileScheme ++ "//") cs).orElse fun _ => behind? fileScheme cs
  match rest.map fun rest => String.ofList (rest.takeWhile (· != '?')) with
  | none => none
  | some name =>
    if name.isEmpty ∨ ":memory:".toList.isPrefixOf name.toList then none else some name

/-! Parameters -/

def parameterText (cs : List Char) : String :=
  String.ofList (Http.Charset.decodeUtf8 none
    (Http.percentDecode (cs.map fun c => if c = '+' then ' ' else c)))

def parameter (cs : List Char) : String × String :=
  let (name, value) := cs.span (· != '=')
  (parameterText name, parameterText (value.drop 1))

def parameters (cs : List Char) : List (String × String) :=
  ((Text.splitAt (· == '&') cs).filter (!·.isEmpty)).map parameter

def fileSystems : List String := ["unix", "unix-none", "unix-dotfile", "unix-excl"]

def withParameter? (a : DatabaseAddress) (p : String × String) : Option DatabaseAddress :=
  match p with
  | ("mode", "ro") => some { a with readOnly := true }
  | ("mode", "rw") => some a
  | ("mode", "rwc") => some { a with create := true }
  | ("mode", "memory") => some { a with file := none }
  | ("cache", "private") | ("cache", "shared") => some a
  | ("immutable", "true") | ("immutable", "1") => some { a with immutable := true }
  | ("immutable", "false") | ("immutable", "0") => some { a with immutable := false }
  | ("vfs", name) => if fileSystems.contains name then some a else none
  | _ => none

/-- The name of the file in an address: an empty name and the name of the
memory are no files. -/
def fileOf? (cs : List Char) : Option (Option String) :=
  if cs = ":memory:".toList then some none
  else
    match String.fromUTF8? ⟨(Http.percentDecode cs).toArray⟩ with
    | none => none
    | some name =>
      if name.isEmpty then some none
      else if name.toList.contains '\x00' then none
      else some (some name)

def parse (url : String) : Option DatabaseAddress := do
  let rest := behindAll fileScheme (behindAll (fileScheme ++ "//") url.toList)
  let (name, query) := rest.span (· != '?')
  let file ← fileOf? name
  (parameters (query.drop 1)).foldlM withParameter? ⟨file, false, false, false⟩

end DatabaseAddress

end HearingRelay
