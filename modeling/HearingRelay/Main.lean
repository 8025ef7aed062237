import HearingRelay.Startup.Run

/-!
The command line. Its only argument is the path of a file with settings. An
error at the start is reported on the standard error and decides the exit
code; a relay that has come up stays until its standard input ends.
-/

namespace HearingRelay.CommandLine

def reasonOf : IO.Error → String
  | .permissionDenied _ number details => details ++ " (os error " ++ toString number ++ ")"
  | e => toString e

/-- Whether a path leads to something, which need not be readable. -/
def leadsSomewhere (name : String) : IO Bool := do
  try
    let _ ← IO.FS.realPath name
    return true
  catch _ => return false

/-- What stands at a path of the file system. Reading a directory fails with
the number 21. -/
def lookUp (name : String) : IO (Option Entry) := do
  try
    let bytes ← IO.FS.readBinFile name
    return some (.file bytes)
  catch
    | .inappropriateType _ 21 _ => return some .directory
    | e => return if ← leadsSomewhere name then some (.closed (reasonOf e)) else none

def readEnvironment : IO Environment := do
  let names := Config.pathVariable :: Config.overrides.map (·.name)
  let pairs ← names.mapM fun name => do return (name, ← IO.getEnv name)
  return fun name => (pairs.find? (·.1 == name)).bind (·.2)

def readCandidates (path : Option String) (env : Environment) : IO Lookup := do
  let pairs ← (Config.candidates path env).mapM fun name => do return (name, ← lookUp name)
  return fun name => (pairs.find? (·.1 == name)).bind (·.2)

def makeDirectories (name : String) : IO Bool := do
  try
    IO.FS.createDirAll name
    return true
  catch _ => return false

def makeFile (name : String) : IO (Except DatabaseFault Unit) := do
  try
    IO.FS.writeBinFile name .empty
    return .ok ()
  catch _ => return .error .cannotOpen

def openDatabase (address : DatabaseAddress) : IO (Except DatabaseFault Unit) := do
  match address.file with
  | none => return address.openTemporary
  | some name =>
    let (isNew, result) := address.openFound (← lookUp name)
    if isNew then
      match ← makeFile name with
      | .error fault => return .error fault
      | .ok () => return result
    else return result

def handle : (r : Startup.Request) → IO r.Answer
  | .makeDirectories name => makeDirectories name
  | .openDatabase address => openDatabase address

partial def waitForEnd (input : IO.FS.Stream) : IO Unit := do
  let line ← input.getLine
  if line.isEmpty then return
  waitForEnd input

end HearingRelay.CommandLine

open HearingRelay in
def main (arguments : List String) : IO UInt32 := do
  let path := arguments.head?
  let env ← CommandLine.readEnvironment
  let files ← CommandLine.readCandidates path env
  match ← (Startup.run files path env).runWith CommandLine.handle with
  | .error e =>
    (← IO.getStderr).putStr e.report
    return e.exitCode.toUInt32
  | .ok _ =>
    CommandLine.waitForEnd (← IO.getStdin)
    return 0
