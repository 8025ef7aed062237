import HearingRelay.Ledger.PendingRequest

/-!
Rows of the ledger as they are stored. A stored row holds any text as its type
and status and any number as a time; what it means is checked when it is read,
columns that must fit 32 bits first.
-/

namespace HearingRelay

inductive Corruption where
  | unknownName (e : UnknownName)
  | submittedOutOfRange
  | lastTriedOutOfRange
  | other (text : String)
deriving DecidableEq, Repr

def Corruption.message : Corruption → String
  | .unknownName e => e.message
  | .submittedOutOfRange => "invalid submitted_date_time"
  | .lastTriedOutOfRange => "invalid last_tried_date_time"
  | .other text => text

inductive StoreError where
  | corruptRow (id : Int) (reason : Corruption)
  | columnOutOfRange (column : String)
  | full
deriving DecidableEq, Repr

def StoreError.message : StoreError → String
  | .corruptRow id reason =>
    "Corrupt pending request row " ++ Text.writeInt id ++ ": " ++ reason.message
  | .columnOutOfRange column =>
    "Database error: error occurred while decoding column \"" ++ column ++
      "\": out of range integral type conversion attempted"
  | .full => "Database error: error returned from database: (code: 13) database or disk is full"

/-- A stored row. Times are milliseconds from 1970. -/
structure Row where
  id : Int
  hearing : Int
  eventType : String
  version : Int
  message : String
  status : String
  submitted : Int
  lastTried : Option Int
  retryCount : Int
  incident : Bool
  deployment : Option String
deriving DecidableEq, Repr

namespace Row

def is (r : Row) (s : Status) : Bool := r.status == s.name

/-- Checks the type, the status, the submitted time and the time of the last
try, in this order. -/
def check (r : Row) : Except Corruption PendingRequest := do
  let eventType ← (EventType.parse r.eventType).mapError .unknownName
  let status ← (Status.parse r.status).mapError .unknownName
  let submitted ← match Time.Instant.ofMillis? r.submitted with
    | some i => .ok i
    | none => .error .submittedOutOfRange
  let lastTried ← match r.lastTried with
    | none => .ok none
    | some ms => match Time.Instant.ofMillis? ms with
      | some i => .ok (some i)
      | none => .error .lastTriedOutOfRange
  .ok { id := r.id, hearing := r.hearing, eventType, version := r.version,
        message := r.message, status, submitted, lastTried, retryCount := r.retryCount,
        incident := r.incident, deployment := r.deployment }

def read (r : Row) : Except StoreError PendingRequest :=
  if !Bounds.fitsInt32 r.version then .error (.columnOutOfRange "version_number")
  else if !Bounds.fitsInt32 r.retryCount then .error (.columnOutOfRange "retry_count")
  else r.check.mapError (.corruptRow r.id)

/-- Reads rows in order; the first that fails decides. -/
def readAll : List Row → Except StoreError (List PendingRequest)
  | [] => .ok []
  | r :: rest =>
    match r.read with
    | .error e => .error e
    | .ok a => (readAll rest).map (a :: ·)

def readOptional : Option Row → Except StoreError (Option PendingRequest)
  | none => .ok none
  | some r => r.read.map some

end Row

end HearingRelay
