import HearingRelay.Config.Environment
import HearingRelay.Config.File
import HearingRelay.Files

/-!
Loading settings. The first file that is there is the one that counts: the
path that was asked for, the one that the environment names, or one of the
usual ones. Only whether a path is there decides the search; a chosen file
that cannot be read or understood is an error. Variables of the environment go
before the file, and the result must meet all rules.
-/

namespace HearingRelay

inductive ReadFailure where
  | isDirectory
  | notUnicode
  | closed (reason : String)
deriving DecidableEq, Repr

def ReadFailure.message : ReadFailure → String
  | .isDirectory => "Is a directory (os error 21)"
  | .notUnicode => "stream did not contain valid UTF-8"
  | .closed reason => reason

inductive ConfigError where
  | unreadable (e : ReadFailure)
  | malformed
  | invalid (v : Config.Violation)
deriving DecidableEq, Repr

def ConfigError.message : ConfigError → String
  | .unreadable e => "Failed to read config file: " ++ e.message
  | .malformed => "Failed to parse TOML"
  | .invalid v => "Invalid configuration: " ++ v.message

/-- What stands at a path, as far as anything does. -/
abbrev Lookup := String → Option Entry

namespace Config

def usualPaths : List String :=
  ["config.toml", "hearing-sync.toml", "./config/config.toml", "/etc/hearing-sync/config.toml"]

def pathVariable : String := "HEARING_SYNC_CONFIG"

def candidates (path : Option String) (env : Environment) : List String :=
  path.toList ++ (env pathVariable).toList ++ usualPaths

/-- The file that counts, if there is one. -/
def chosen? (files : Lookup) (path : Option String) (env : Environment) : Option String :=
  (candidates path env).find? fun name => (files name).isSome

def readEntry : Entry → Except ReadFailure String
  | .directory => .error .isDirectory
  | .closed reason => .error (.closed reason)
  | .file bytes =>
    match String.fromUTF8? bytes with
    | some text => .ok text
    | none => .error .notUnicode

def ofEntry (e : Entry) : Except ConfigError Config :=
  match readEntry e with
  | .error failure => .error (.unreadable failure)
  | .ok text =>
    match parse text with
    | some c => .ok c
    | none => .error .malformed

/-- The settings of the file that counts, or the defaults. -/
def ofFiles (files : Lookup) (path : Option String) (env : Environment) :
    Except ConfigError Config :=
  match (chosen? files path env).bind files with
  | none => .ok {}
  | some e => ofEntry e

def load (files : Lookup) (path : Option String) (env : Environment) :
    Except ConfigError Config := do
  let c := (← ofFiles files path env).overriddenBy env
  match c.violation? with
  | none => .ok c
  | some v => .error (.invalid v)

end Config

end HearingRelay
