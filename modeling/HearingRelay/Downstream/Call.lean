import HearingRelay.Message.EventType
import HearingRelay.Json.Basic

/-!
Calls of the scheduling service. A hearing is requested without an identifier
of its own; amendments and deletions name the hearing.
-/

namespace HearingRelay

structure DownstreamCall where
  eventType : EventType
  hearing : Int
  payload : Json.Value
deriving Inhabited

def DownstreamCall.target? (c : DownstreamCall) : Option Int :=
  match c.eventType with
  | .request => none
  | .amend | .delete => some c.hearing

end HearingRelay
