import HearingRelay.Request
import HearingRelay.Failure
import HearingRelay.Json.Parser

/-!
The delivery of one event: its payload is read, the service is called, and the
outcome is reported on the egress queue when an HTTP response decided it. The
result stands even when the report cannot be published.
-/

namespace HearingRelay.Delivery

def announce (hearing : Int) : Option SyncResponse → Relay Unit
  | none => pure ()
  | some report => do
    let _ ← Relay.publish hearing report
    pure ()

/-- The result of a call. One that does not end in time ends as a timeout. -/
def resultWithin (timeout : Time.Span) (answer : Option CallResult) : CallResult :=
  answer.getD (.error (.timeout timeout))

def deliver (timeout : Time.Span) (hearing : Int) (eventType : EventType) (payload : String) :
    Relay (Except DispatchError HearingResponse) :=
  match Json.parse payload with
  | .error e => pure (.error (.payload e))
  | .ok document => do
    let answer ← Relay.send ⟨eventType, hearing, document⟩
    let result := resultWithin timeout answer
    announce hearing result.report?
    pure (result.mapError .downstream)

end HearingRelay.Delivery
