import HearingRelay.Startup.Error
import HearingRelay.Config.Scheduling
import HearingRelay.Program

/-!
The start of the relay, up to the point where its workers begin. The settings
are loaded; the directory of the database is made and the database opened; and
the queues must be of a kind that there is. What was made before an error
stays.
-/

namespace HearingRelay

namespace Startup

inductive Request where
  /-- Makes a directory and the ones on the way to it. -/
  | makeDirectories (name : String)
  | openDatabase (address : DatabaseAddress)
deriving DecidableEq, Repr

abbrev Request.Answer : Request → Type
  | makeDirectories _ => Bool
  | openDatabase _ => Except DatabaseFault Unit

abbrev Starting (α : Type) := Program Request.Answer α

/-- The directory that a database needs; there is nothing to make for a name
without one. -/
def directoryFor? (url : String) : Option String :=
  ((DatabaseAddress.writtenName? url).bind Files.parent?).filter (!·.isEmpty)

def makeDirectory (url : String) : Starting (Except StartupError Unit) :=
  match directoryFor? url with
  | none => pure (.ok ())
  | some name => do
    let isMade ← Program.call (Request.makeDirectories name)
    pure (if isMade then .ok () else .error (.directoryNotMade name))

def openDatabase (url : String) (connections : Nat) : Starting (Except StartupError Unit) :=
  match DatabaseAddress.parse url with
  | none => pure (.error (.databaseNotOpened url))
  | some address =>
    if connections = 0 then pure (.error (.databaseNotOpened url))
    else do
      match ← Program.call (Request.openDatabase address) with
      | .ok () => pure (.ok ())
      | .error .cannotOpen => pure (.error (.databaseNotOpened url))
      | .error fault => pure (.error (.tablesNotMade fault))

def prepareDatabase (d : Config.Database) : Starting (Except StartupError Unit) :=
  if DatabaseAddress.isFileAddress d.url then do
    match ← makeDirectory d.url with
    | .error e => pure (.error e)
    | .ok () => openDatabase d.url d.maxConnections
  else if DatabaseAddress.isServerAddress d.url then pure (.error .serverNotReached)
  else pure (.error (.unsupportedDatabase d.url))

def checkQueue (kind : String) : Except StartupError Unit :=
  if kind = "embedded" then .ok ()
  else if kind = "sqs" then .error (.queueNotAtHand kind)
  else .error (.unknownQueue kind)

def checkSettings (c : Config) : Except StartupError SchedulerSettings := do
  checkQueue c.queue.kind
  match c.toScheduler? with
  | some settings => .ok settings
  | none => .error .windowTooLong

def run (files : Lookup) (path : Option String) (env : Environment) :
    Starting (Except StartupError SchedulerSettings) :=
  match Config.load files path env with
  | .error e => pure (.error (.configuration e))
  | .ok c => do
    match ← prepareDatabase c.database with
    | .error e => pure (.error e)
    | .ok () => pure (checkSettings c)

def handle : Handler Request.Answer Files
  | .makeDirectories name, f =>
    match f.makeDirectories name with
    | some f => (f, true)
    | none => (f, false)
  | .openDatabase address, f => f.openDatabase address

def inDirectory (f : Files) (path : Option String) (env : Environment) :
    Files × Except StartupError SchedulerSettings :=
  (run f.find? path env).run handle f

end Startup

end HearingRelay
