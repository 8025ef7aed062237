import HearingRelay.Ledger.Basic

/-!
The calls of the ledger's store as data, each with the type of its answer.
Every call is one atomic step of the ledger at a clock reading; a history is a
sequence of such steps.
-/

namespace HearingRelay

inductive StoreCall where
  | create (hearing : Int) (eventType : EventType) (message deployment : String)
  | claim (wait : Time.Span) (deployment : String)
  | markProcessing (id : Int) (deployment : String)
  | markCompleted (id : Int) (deployment : String)
  | markException (id : Int) (deployment : String)
  | markPendingWithRetry (id : Int) (deployment : String)
  | requeueException (id : Int) (deployment : String)
  | rowsOfHearing (hearing : Int)
  | escalationCandidates (threshold : Time.Span)
  | markForEscalation (threshold : Time.Span) (deployment : String)
  | deleteCompleted (threshold : Time.Span)
  | reclaimStuck (timeout : Time.Span) (deployment : String)
deriving DecidableEq, Repr

namespace StoreCall

/-- What a call that does not fail answers: the new or claimed request, whether
a change applied, the rows asked for, or the number of rows changed. -/
abbrev Answer : StoreCall → Type
  | create .. => PendingRequest
  | claim .. => Option PendingRequest
  | markProcessing .. | markCompleted .. | markException .. => Bool
  | markPendingWithRetry .. | requeueException .. => Bool
  | rowsOfHearing .. | escalationCandidates .. => List PendingRequest
  | markForEscalation .. | deleteCompleted .. | reclaimStuck .. => Nat

def succeed {α : Type} (p : Ledger × α) : Ledger × Except StoreError α := (p.1, .ok p.2)

end StoreCall

/-- One step of the ledger. An error may come after the change. -/
def Ledger.step (l : Ledger) (now : Int) : (c : StoreCall) → Ledger × Except StoreError c.Answer
  | .create hearing eventType message deployment =>
    l.create now hearing eventType message deployment
  | .claim wait deployment => l.claim now wait deployment
  | .markProcessing id deployment => StoreCall.succeed (l.markProcessing now id deployment)
  | .markCompleted id deployment => StoreCall.succeed (l.markCompleted now id deployment)
  | .markException id deployment => StoreCall.succeed (l.markException now id deployment)
  | .markPendingWithRetry id deployment =>
    StoreCall.succeed (l.markPendingWithRetry now id deployment)
  | .requeueException id deployment => StoreCall.succeed (l.requeueException id deployment)
  | .rowsOfHearing hearing => (l, l.findByHearing hearing)
  | .escalationCandidates threshold => (l, l.escalationCandidates now threshold)
  | .markForEscalation threshold deployment =>
    StoreCall.succeed (l.markForEscalation now threshold deployment)
  | .deleteCompleted threshold => StoreCall.succeed (l.deleteCompleted now threshold)
  | .reclaimStuck timeout deployment => StoreCall.succeed (l.reclaimStuck now timeout deployment)

def Ledger.after (l : Ledger) (history : List (Int × StoreCall)) : Ledger :=
  history.foldl (fun l p => (l.step p.1 p.2).1) l

theorem Ledger.after_append (l : Ledger) (h₁ h₂ : List (Int × StoreCall)) :
    l.after (h₁ ++ h₂) = (l.after h₁).after h₂ := List.foldl_append

end HearingRelay
