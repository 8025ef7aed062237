import HearingRelay.Message.EventType

/-!
The life of a request: pending, in progress, then completed or set aside as an
exception. A failed attempt makes it pending again, and so does a replay of an
exception.
-/

namespace HearingRelay

inductive Status where
  | pending
  | processing
  | completed
  | exception
deriving DecidableEq, Repr, Inhabited

namespace Status

def name : Status → String
  | .pending => "PENDING"
  | .processing => "PROCESSING"
  | .completed => "COMPLETED"
  | .exception => "EXCEPTION"

def all : List Status := [.pending, .processing, .completed, .exception]

def ofName? (s : String) : Option Status := all.find? (·.name == s)

theorem ofName?_name (t : Status) : ofName? t.name = some t := by
  cases t <;> decide

theorem ofName?_eq_some {s : String} {t : Status} (h : ofName? s = some t) : t.name = s := by
  have := List.find?_some h
  simpa using this

theorem name_injective {s t : Status} (h : s.name = t.name) : s = t := by
  have := congrArg ofName? h
  simpa [ofName?_name] using this

def reader : Json.Reader Status := Json.readVariant ofName? (all.map name)

def parse (s : String) : Except UnknownName Status :=
  match ofName? s with
  | some t => .ok t
  | none => .error ⟨"pending request status", s⟩

end Status

end HearingRelay
