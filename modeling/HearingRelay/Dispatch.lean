import HearingRelay.Delivery

/-!
Dispatching an inbound message. Every message ends in exactly one disposition.
A message without a routing key or with a body that is not JSON becomes a dead
letter before anything is touched. Any other message is matched with a row of
the ledger, or gets a new one; the row is taken and delivered, and the outcome
is recorded in the row and in the disposition by the same rule.
-/

namespace HearingRelay

structure DispatchSettings where
  /-- The delivery from which on a failure is final. -/
  maxDeliveries : Nat := 3
  deployment : String := "local"
  /-- The longest that a call of the service may take. -/
  timeout : Time.Span
deriving DecidableEq, Repr

namespace Dispatch

structure Event where
  key : RoutingKey
  body : String
deriving DecidableEq, Repr

/-- The event of an envelope. The routing key is looked at before the body. -/
def eventOf (e : Envelope) : Except DispatchError Event := do
  let key ← (RoutingKey.ofProperties e.properties).mapError .routing
  let _ ← (Json.parse e.body).mapError .payload
  .ok ⟨key, e.body⟩

def Event.matchesRow (e : Event) (r : PendingRequest) : Bool :=
  r.eventType == e.key.eventType && r.message == e.body

/-- The row that carries the event: the newest that is not completed, or else
the newest row of the hearing. -/
def matchRow? (e : Event) (rows : List PendingRequest) : Option PendingRequest :=
  match (rows.reverse.filter (·.status != .completed)).find? e.matchesRow with
  | some r => some r
  | none => rows.getLast?.filter e.matchesRow

inductive Entry where
  /-- A row that waits for an attempt. -/
  | claimable (r : PendingRequest)
  | completed (r : PendingRequest)
  /-- A row whose attempt is under way. -/
  | inFlight (r : PendingRequest)

/-- The row of an event, new if there is none. An exception is made pending
again, because the message was sent once more. -/
def findEntry (deployment : String) (e : Event) : Relay (Except StoreError Entry) := do
  match ← Relay.store (.rowsOfHearing e.key.hearing) with
  | .error err => pure (.error err)
  | .ok rows =>
    match matchRow? e rows with
    | some r =>
      match r.status with
      | .completed => pure (.ok (.completed r))
      | .processing => pure (.ok (.inFlight r))
      | .pending => pure (.ok (.claimable r))
      | .exception =>
        match ← Relay.store (.requeueException r.id deployment) with
        | .error err => pure (.error err)
        | .ok _ => pure (.ok (.claimable r))
    | none =>
      match ← Relay.store (.create e.key.hearing e.key.eventType e.body deployment) with
      | .error err => pure (.error err)
      | .ok r => pure (.ok (.claimable r))

inductive Outcome where
  | delivered
  /-- The event was delivered before. -/
  | duplicate
  /-- Another attempt has to end first; the scheduler takes care of the row. -/
  | deferred
deriving DecidableEq, Repr

def willRetry (settings : DispatchSettings) (kind : FailureKind) (deliveryCount : Nat) : Bool :=
  kind.isRetryable && deliveryCount < settings.maxDeliveries

/-- Records a failed attempt: the row waits for the next delivery, or becomes
an exception with the last. -/
def recordFailure (settings : DispatchSettings) (id : Int) (deliveryCount : Nat)
    (e : DispatchError) : Relay Unit := do
  if willRetry settings e.kind deliveryCount then
    let _ ← Relay.store (.markPendingWithRetry id settings.deployment)
    pure ()
  else
    let _ ← Relay.store (.markException id settings.deployment)
    pure ()

def attempt (settings : DispatchSettings) (e : Event) (r : PendingRequest) (deliveryCount : Nat) :
    Relay (Except DispatchError Outcome) := do
  match ← Delivery.deliver settings.timeout e.key.hearing e.key.eventType r.message with
  | .ok _ =>
    match ← Relay.store (.markCompleted r.id settings.deployment) with
    | .error err => pure (.error (.store err))
    | .ok _ => pure (.ok .delivered)
  | .error err => do
    recordFailure settings r.id deliveryCount err
    pure (.error err)

def process (settings : DispatchSettings) (e : Event) (deliveryCount : Nat) :
    Relay (Except DispatchError Outcome) := do
  match ← findEntry settings.deployment e with
  | .error err => pure (.error (.store err))
  | .ok (.completed _) => pure (.ok .duplicate)
  | .ok (.inFlight _) => pure (.ok .deferred)
  | .ok (.claimable r) =>
    match ← Relay.store (.markProcessing r.id settings.deployment) with
    | .error err => pure (.error (.store err))
    | .ok false => pure (.ok .deferred)
    | .ok true => attempt settings e r deliveryCount

def failureDisposition (settings : DispatchSettings) (body : String) (deliveryCount : Nat)
    (e : DispatchError) : Disposition :=
  if willRetry settings e.kind deliveryCount then .retry
  else .deadLetter e.kind.reason (deadLetterDescription body e.message)

end Dispatch

open Dispatch in
def dispatch (settings : DispatchSettings) (e : Envelope) (deliveryCount : Nat) :
    Relay Disposition := do
  let result ← match eventOf e with
    | .error err => pure (.error err)
    | .ok event => process settings event deliveryCount
  match result with
  | .ok _ => pure .complete
  | .error err => pure (failureDisposition settings e.body deliveryCount err)

end HearingRelay
