import HearingRelay.Json.Record

/-!
The kinds of hearing event, and their names on the wire and in the ledger.
-/

namespace HearingRelay

inductive EventType where
  | request
  | amend
  | delete
deriving DecidableEq, Repr, Inhabited

namespace EventType

def name : EventType → String
  | .request => "REQUEST_HEARING"
  | .amend => "AMEND_HEARING"
  | .delete => "DELETE_HEARING"

def all : List EventType := [.request, .amend, .delete]

def ofName? (s : String) : Option EventType := all.find? (·.name == s)

theorem ofName?_name (t : EventType) : ofName? t.name = some t := by
  cases t <;> decide

theorem ofName?_eq_some {s : String} {t : EventType} (h : ofName? s = some t) : t.name = s := by
  have := List.find?_some h
  simpa using this

def reader : Json.Reader EventType := Json.readVariant ofName? (all.map name)

end EventType

structure UnknownName where
  kind : String
  value : String
deriving DecidableEq, Repr

def UnknownName.message (e : UnknownName) : String := "Unknown " ++ e.kind ++ ": " ++ e.value

def EventType.parse (s : String) : Except UnknownName EventType :=
  match ofName? s with
  | some t => .ok t
  | none => .error ⟨"message type", s⟩

end HearingRelay
