import HearingRelay.Config.Load
import HearingRelay.Database.Opening

/-!
Why the relay does not come up, and how that is told: the error first, then
what caused it, each cause the cause of the one before.
-/

namespace HearingRelay

inductive StartupError where
  | configuration (e : ConfigError)
  | unsupportedDatabase (url : String)
  /-- There is no connection to a server of databases. -/
  | serverNotReached
  | directoryNotMade (name : String)
  | databaseNotOpened (url : String)
  | tablesNotMade (e : DatabaseFault)
  /-- The kind of queue is known, and not at hand. -/
  | queueNotAtHand (kind : String)
  | unknownQueue (kind : String)
  /-- A window of the settings is too long for a count of seconds. -/
  | windowTooLong
deriving DecidableEq, Repr

/-- The causes of an error in the settings, behind the error itself. -/
def ConfigError.causes : ConfigError → List String
  | .unreadable e => [e.message]
  | .malformed | .invalid _ => []

namespace StartupError

def fromDatabase (e : DatabaseFault) : String := "error returned from database: " ++ e.message

def message : StartupError → String
  | configuration _ => "failed to load configuration"
  | unsupportedDatabase url =>
    "Unsupported database URL: " ++ url ++ ". Use sqlite:// or postgres://"
  | serverNotReached => "failed to connect to PostgreSQL"
  | directoryNotMade name => "failed to create " ++ name
  | databaseNotOpened url => "failed to open SQLite database " ++ url
  | tablesNotMade e => "Database error: " ++ fromDatabase e
  | queueNotAtHand kind =>
    "queue.type = \"" ++ kind ++ "\" requires hs-adapter to be built with the " ++ kind ++
      " feature"
  | unknownQueue kind => "Unknown queue type: " ++ kind ++ ". Use embedded or sqs"
  | windowTooLong => "attempt to multiply with overflow"

def causes : StartupError → List String
  | configuration e => e.message :: e.causes
  | tablesNotMade e => [fromDatabase e, e.message]
  | _ => []

def writeCauses : List String → String
  | [] => "\n"
  | [cause] => "\n\nCaused by:\n    " ++ cause ++ "\n"
  | causes => "\n\nCaused by:\n" ++ String.join (causes.zipIdx.map fun c =>
      "    " ++ Text.writeNat c.2 ++ ": " ++ c.1 ++ "\n")

def report (e : StartupError) : String := "Error: " ++ e.message ++ writeCauses e.causes

def exitCode : StartupError → Nat
  | windowTooLong => 101
  | _ => 1

end StartupError

end HearingRelay
