import HearingRelay.Delivery
import HearingRelay.Scheduler.Settings

/-!
Re-driving: the oldest row that may be taken is attempted once. A row older
than the exception limit is given up without a call, a row with an unreadable
payload after it was looked at, and any other failure makes the row wait again.
-/

namespace HearingRelay

inductive RedriveOutcome where
  /-- No row could be taken. -/
  | idle
  | completed
  /-- Given up because of its age. -/
  | expired
  /-- Given up because its payload is not JSON. -/
  | rejected
  | retried
deriving DecidableEq, Repr

inductive SchedulerError where
  | store (e : StoreError)
  /-- The exception limit leads out of the range of dates. -/
  | limitOutOfRange
deriving DecidableEq, Repr

namespace Redrive

/-- Records how an attempt ended. Whether the row was still in progress does
not matter. -/
def conclude (call : StoreCall) (outcome : RedriveOutcome) :
    Relay (Except SchedulerError RedriveOutcome) := do
  match ← Relay.store call with
  | .error e => pure (.error (.store e))
  | .ok _ => pure (.ok outcome)

def record (deployment : String) (id : Int) :
    Except DispatchError HearingResponse → Relay (Except SchedulerError RedriveOutcome)
  | .ok _ => conclude (.markCompleted id deployment) .completed
  | .error e =>
    if e.kind = .undecodablePayload then conclude (.markException id deployment) .rejected
    else conclude (.markPendingWithRetry id deployment) .retried

def attempt (settings : SchedulerSettings) (timeout : Time.Span) (r : PendingRequest) :
    Relay (Except SchedulerError RedriveOutcome) := do
  match r.elapsed? settings.exceptionLimit (← Relay.clock) with
  | none => pure (.error .limitOutOfRange)
  | some true => conclude (.markException r.id settings.deployment) .expired
  | some false =>
    let result ← Delivery.deliver timeout r.hearing r.eventType r.message
    record settings.deployment r.id result

end Redrive

/-- Takes the oldest row that may be taken, and attempts it once. -/
def redriveNext (settings : SchedulerSettings) (timeout : Time.Span) :
    Relay (Except SchedulerError RedriveOutcome) := do
  match ← Relay.store (.claim settings.pendingWait settings.deployment) with
  | .error e => pure (.error (.store e))
  | .ok none => pure (.ok .idle)
  | .ok (some r) => Redrive.attempt settings timeout r

end HearingRelay
