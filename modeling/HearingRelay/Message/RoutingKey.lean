import HearingRelay.Message.EventType
import HearingRelay.Message.Envelope

/-!
The routing key of an inbound message: which event it carries, and for which
hearing. Both come from properties and are trimmed before they are read; the
event is looked at first.
-/

namespace HearingRelay

structure RoutingKey where
  eventType : EventType
  hearing : Int
deriving DecidableEq, Repr

inductive RoutingError where
  | missing (name : String)
  | invalid (name value : String)
deriving DecidableEq, Repr

namespace RoutingError

def message : RoutingError → String
  | .missing name => "Missing " ++ name ++ " application property"
  | .invalid name value => "Invalid " ++ name ++ " application property: " ++ value

end RoutingError

namespace RoutingKey

def readProperty {α : Type} (read : List Char → Option α) (properties : Properties)
    (name : String) : Except RoutingError α :=
  match properties.get? name with
  | none => .error (.missing name)
  | some text =>
    match read (Text.trim text.toList) with
    | some a => .ok a
    | none => .error (.invalid name text)

def readEventType? (cs : List Char) : Option EventType := EventType.ofName? (String.ofList cs)

/-- A hearing is a signed 64-bit number. -/
def readHearing? (cs : List Char) : Option Int :=
  Text.readIntWithin? Bounds.minInt64 Bounds.maxInt64 cs

def ofProperties (properties : Properties) : Except RoutingError RoutingKey := do
  let eventType ← readProperty readEventType? properties Envelope.messageTypeProperty
  let hearing ← readProperty readHearing? properties Envelope.hearingIdProperty
  .ok ⟨eventType, hearing⟩

end RoutingKey

end HearingRelay
