/-!
A tree of files as a program sees it from its working directory: names with
slashes are walked one part at a time, and each part on the way must be a
directory. What lies outside of the working directory is not known, except
that the directories above it are there.
-/

namespace HearingRelay

inductive Entry where
  | file (bytes : ByteArray)
  | directory
  /-- Something that cannot be read, with the reason that the system gives. -/
  | closed (reason : String)

/-- The entries of a tree, by the parts of their names. -/
structure Files where
  entries : List (List String × Entry)

/-- Where a walk stands. -/
inductive Place where
  /-- A place in the working directory, by the parts of its name. -/
  | inside (path : List String)
  /-- A directory above the working directory. -/
  | above
  /-- A place elsewhere. Nothing is known of it, and nothing is in its way. -/
  | outside
deriving DecidableEq, Repr

namespace Files

/-- The parts of a name. An empty first part stands for the root. -/
def partsOf (name : String) : List String := (name.splitOn "/")

def ofList (named : List (String × Entry)) : Files :=
  ⟨named.map fun e => ((partsOf e.1).filter fun p => p != "" && p != ".", e.2)⟩

/-- What stands at a place in the tree. A name on the way to an entry is a
directory. -/
def at? (f : Files) (path : List String) : Option Entry :=
  match f.entries.find? (·.1 == path) with
  | some e => some e.2
  | none =>
    if path.isEmpty || f.entries.any (fun e => path.isPrefixOf e.1) then some .directory else none

def isDirectory (f : Files) : Place → Bool
  | .inside path =>
    match f.at? path with
    | some .directory => true
    | _ => false
  | .above | .outside => true

def step (f : Files) (place : Place) (part : String) : Option Place :=
  if !f.isDirectory place then none
  else if part = "" ∨ part = "." then some place
  else if part = ".." then
    match place with
    | .inside [] => some .above
    | .inside path => some (.inside path.dropLast)
    | p => some p
  else
    match place with
    | .inside path => some (.inside (path ++ [part]))
    | _ => some .outside

def locate (f : Files) (name : String) : Option Place :=
  if name = "" then none
  else
    match partsOf name with
    | "" :: rest => rest.foldlM f.step .above
    | parts => parts.foldlM f.step (.inside [])

def find? (f : Files) (name : String) : Option Entry :=
  match f.locate name with
  | some (.inside path) => f.at? path
  | some .above => some .directory
  | _ => none

def add (f : Files) (path : List String) (e : Entry) : Files := ⟨f.entries ++ [(path, e)]⟩

def stepMaking (p : Files × Place) (part : String) : Option (Files × Place) :=
  match p.1.step p.2 part with
  | none => none
  | some (.inside path) =>
    match p.1.at? path with
    | some .directory => some (p.1, .inside path)
    | some (.file _) | some (.closed _) => none
    | none => some (p.1.add path .directory, .inside path)
  | some place => some (p.1, place)

def makeDirectories (f : Files) (name : String) : Option Files :=
  match partsOf name with
  | "" :: rest => (rest.foldlM stepMaking (f, .above)).map (·.1)
  | parts => (parts.foldlM stepMaking (f, .inside [])).map (·.1)

/-- One part of a name that is resolved before any directory is looked at. -/
def stepAside (place : Place) (part : String) : Place :=
  if part = "" ∨ part = "." then place
  else if part = ".." then
    match place with
    | .inside [] => .above
    | .inside path => .inside path.dropLast
    | p => p
  else
    match place with
    | .inside path => .inside (path ++ [part])
    | _ => .outside

/-- The place that a name denotes when points in it are resolved by name alone. -/
def placeOf (name : String) : Place :=
  match partsOf name with
  | "" :: rest => rest.foldl stepAside .above
  | parts => parts.foldl stepAside (.inside [])

def fileNames (f : Files) : List String :=
  f.entries.filterMap fun e =>
    match e.2 with
    | .file _ | .closed _ => some ("/".intercalate e.1)
    | .directory => none

/-- Parts of a name without the ones at its end that mean nothing. The part at
the start is kept. -/
def dropIdle (parts : List String) : List String :=
  match parts with
  | [] => []
  | first :: rest => first :: (rest.reverse.dropWhile fun p => p = "" ∨ p = ".").reverse

/-- The name of the directory that a name is in; the root is in none. -/
def parent? (name : String) : Option String :=
  match dropIdle (partsOf name) with
  | [] => none
  | [""] => none
  | parts =>
    match dropIdle parts.dropLast with
    | [""] => some "/"
    | parts => some ("/".intercalate parts)

end Files

end HearingRelay
