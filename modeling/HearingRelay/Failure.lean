import HearingRelay.Downstream.Error
import HearingRelay.Ledger.Row
import HearingRelay.Message.RoutingKey
import HearingRelay.Text.Blank

/-!
What can go wrong with one message, and what follows from it. Failures fall
into five kinds; the kind alone says whether another delivery may help and
which reason a dead letter gets.
-/

namespace HearingRelay

inductive DispatchError where
  | routing (e : RoutingError)
  | payload (e : Json.Error)
  | downstream (e : DownstreamError)
  | store (e : StoreError)
deriving DecidableEq, Repr

inductive FailureKind where
  | malformedMessage
  | undecodablePayload
  | application
  | resourceNotFound
  | generic
deriving DecidableEq, Repr, Inhabited

namespace FailureKind

/-- Whether another delivery can end differently. -/
def isRetryable : FailureKind → Bool
  | malformedMessage | undecodablePayload => false
  | application | resourceNotFound | generic => true

def reason : FailureKind → String
  | malformedMessage => "malformed message"
  | undecodablePayload => "deserialization error"
  | application | resourceNotFound => "application processing error"
  | generic => "generic error"

def name : FailureKind → String
  | malformedMessage => "malformed_message"
  | undecodablePayload => "json_decode_error"
  | application => "application_error"
  | resourceNotFound => "resource_not_found"
  | generic => "generic_error"

end FailureKind

def DownstreamError.kind : DownstreamError → FailureKind
  | notFound .. => .resourceNotFound
  | rejected .. | authenticationFailed .. | timeout .. | connection .. => .application
  | invalidResponse .. | client .. => .generic

namespace DispatchError

def kind : DispatchError → FailureKind
  | routing _ => .malformedMessage
  | payload _ => .undecodablePayload
  | downstream e => e.kind
  | store _ => .generic

def message : DispatchError → String
  | routing e => e.message
  | payload e => "Payload is not valid JSON: " ++ e.message
  | downstream e => e.message
  | store e => "Pending request store error: " ++ e.message

end DispatchError

/-- The description of a dead letter. An error without text gets a stand-in. -/
def deadLetterDescription (body error : String) : String :=
  "Error processing message " ++ body ++ ", exception was " ++
    (Text.nonBlank error).getD "no error message"

end HearingRelay
