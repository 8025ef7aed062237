import HearingRelay.Database.Address
import HearingRelay.Files

/-!
What comes of opening a database. A file is opened when it is there or may be
made, and its tables are made next: that needs a file that may be written, and
one that is empty or a database already.
-/

namespace HearingRelay

inductive DatabaseFault where
  | cannotOpen
  | readOnly
  | notADatabase
deriving DecidableEq, Repr

def DatabaseFault.message : DatabaseFault → String
  | cannotOpen => "(code: 14) unable to open database file"
  | readOnly => "(code: 8) attempt to write a readonly database"
  | notADatabase => "(code: 26) file is not a database"

namespace DatabaseAddress

/-- How every database begins that is not empty. -/
def header : List UInt8 := "SQLite format 3\x00".toUTF8.toList

def isDatabase (bytes : ByteArray) : Bool :=
  bytes.isEmpty || header.isPrefixOf bytes.toList

def makeTables (a : DatabaseAddress) (bytes : ByteArray) : Except DatabaseFault Unit :=
  if !isDatabase bytes then .error .notADatabase
  else if a.readOnly || a.immutable then .error .readOnly
  else .ok ()

/-- Opens the database when `found` stands at its place, and tells whether
there is a new file then. -/
def openFound (a : DatabaseAddress) (found : Option Entry) : Bool × Except DatabaseFault Unit :=
  match found with
  | some .directory | some (.closed _) => (false, .error .cannotOpen)
  | some (.file bytes) => (false, a.makeTables bytes)
  | none =>
    if a.create && !a.readOnly then (true, a.makeTables .empty) else (false, .error .cannotOpen)

def openTemporary (a : DatabaseAddress) : Except DatabaseFault Unit :=
  if a.readOnly then .error .readOnly else .ok ()

end DatabaseAddress

def Files.openDatabase (f : Files) (a : DatabaseAddress) : Files × Except DatabaseFault Unit :=
  match a.file with
  | none => (f, a.openTemporary)
  | some name =>
    match Files.placeOf name with
    | .inside path =>
      if f.isDirectory (.inside path.dropLast) then
        let (isNew, result) := a.openFound (f.at? path)
        (if isNew then f.add path (.file .empty) else f, result)
      else (f, .error .cannotOpen)
    | .above => (f, .error .cannotOpen)
    | .outside => (f, (a.openFound none).2)

end HearingRelay
