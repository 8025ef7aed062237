import HearingRelay.Ledger.Status
import HearingRelay.Message.Envelope
import HearingRelay.Time.Rfc3339

/-!
A request of the ledger, with the written form that carries every field by
name. Absent instants and deployments are written as `null`.
-/

namespace HearingRelay

/-- One event of a hearing, and how far its delivery has come. -/
structure PendingRequest where
  id : Int
  hearing : Int
  eventType : EventType
  /-- Grows with each event of the hearing. -/
  version : Int
  /-- The body of the inbound message. -/
  message : String
  status : Status
  submitted : Time.Instant
  lastTried : Option Time.Instant
  retryCount : Int
  /-- Set once the request has been reported as overdue. -/
  incident : Bool
  /-- The instance that touched the request last. -/
  deployment : Option String
deriving DecidableEq, Repr

namespace PendingRequest

def writeInstant (i : Time.Instant) : String := Json.writeString i.write

def write (r : PendingRequest) : String :=
  Json.writePairs [
    ("id", Text.writeInt r.id),
    ("hearingId", Text.writeInt r.hearing),
    ("messageType", Json.writeString r.eventType.name),
    ("versionNumber", Text.writeInt r.version),
    ("message", Json.writeString r.message),
    ("status", Json.writeString r.status.name),
    ("submittedDateTime", writeInstant r.submitted),
    ("lastTriedDateTime", Json.writeOptional writeInstant r.lastTried),
    ("retryCount", Text.writeInt r.retryCount),
    ("incidentFlag", if r.incident then "true" else "false"),
    ("deploymentId", Json.writeOptional Json.writeString r.deployment)]

def readInstant : Json.Reader Time.Instant := fun rest =>
  match Json.readText rest with
  | .error e => .error e
  | .ok (text, rest) =>
    match Time.Instant.read? text with
    | some i => .ok (i, rest)
    | none => Json.failHere .invalidDate rest

def readInt64 : Json.Reader Int := Json.readIntegerWithin Bounds.minInt64 Bounds.maxInt64 "i64"
def readInt32 : Json.Reader Int := Json.readIntegerWithin Bounds.minInt32 Bounds.maxInt32 "i32"

structure Draft where
  id : Option Int := none
  hearing : Option Int := none
  eventType : Option EventType := none
  version : Option Int := none
  message : Option String := none
  status : Option Status := none
  submitted : Option Time.Instant := none
  lastTried : Option (Option Time.Instant) := none
  retryCount : Option Int := none
  incident : Option Bool := none
  deployment : Option (Option String) := none

def field {α : Type} (name : String) (reader : Json.Reader α) (get : Draft → Option α)
    (set : Draft → α → Draft) : Json.Field Draft :=
  { name := name, isSet := fun d => (get d).isSome, hasDefault := false,
    read := fun d rest => (reader rest).map fun p => (set d p.1, p.2) }

def fields : List (Json.Field Draft) := [
  field "id" readInt64 (·.id) fun d a => { d with id := some a },
  field "hearingId" readInt64 (·.hearing) fun d a => { d with hearing := some a },
  field "messageType" EventType.reader (·.eventType) fun d a => { d with eventType := some a },
  field "versionNumber" readInt32 (·.version) fun d a => { d with version := some a },
  field "message" Json.readText (·.message) fun d a => { d with message := some a },
  field "status" Status.reader (·.status) fun d a => { d with status := some a },
  field "submittedDateTime" readInstant (·.submitted) fun d a => { d with submitted := some a },
  field "lastTriedDateTime" (Json.readOptional readInstant) (·.lastTried)
    fun d a => { d with lastTried := some a },
  field "retryCount" readInt32 (·.retryCount) fun d a => { d with retryCount := some a },
  field "incidentFlag" Json.readBool (·.incident) fun d a => { d with incident := some a },
  field "deploymentId" (Json.readOptional Json.readText) (·.deployment)
    fun d a => { d with deployment := some a }]

def reader : Json.Reader PendingRequest :=
  Json.readRecord "struct PendingRequest" fields {} fun d => do
    let id ← Json.required "id" d.id
    let hearing ← Json.required "hearingId" d.hearing
    let eventType ← Json.required "messageType" d.eventType
    let version ← Json.required "versionNumber" d.version
    let message ← Json.required "message" d.message
    let status ← Json.required "status" d.status
    let submitted ← Json.required "submittedDateTime" d.submitted
    let retryCount ← Json.required "retryCount" d.retryCount
    let incident ← Json.required "incidentFlag" d.incident
    .ok { id, hearing, eventType, version, message, status, submitted,
          lastTried := d.lastTried.getD none, retryCount, incident,
          deployment := d.deployment.getD none }

def parse (text : String) : Except Json.Error PendingRequest := Json.runReader reader text

def elapsed? (r : PendingRequest) (limit : Time.Span) (now : Time.Instant) : Option Bool :=
  r.submitted.elapsed? now limit

end PendingRequest

end HearingRelay
