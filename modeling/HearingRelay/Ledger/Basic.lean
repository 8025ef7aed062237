import HearingRelay.Ledger.Row
import HearingRelay.Sorting

/-!
The ledger: rows under distinct identifiers, and the conditional changes that
move them. A change applies to a row only in the status it asks for and tells
whether it applied. Two rules guard the claims: a row is not taken while its
hearing has a row in progress or an older pending one, and an index refuses a
second row in progress for one hearing.
-/

namespace HearingRelay

/-- The stored rows in the order of their identifiers, and the largest
identifier ever given out. -/
structure Ledger where
  rows : List Row
  lastId : Int
deriving DecidableEq, Repr

namespace Ledger

def empty : Ledger := ⟨[], 0⟩

instance : Inhabited Ledger := ⟨empty⟩

def row? (l : Ledger) (id : Int) : Option Row := l.rows.find? (·.id == id)

def rowsOf (l : Ledger) (hearing : Int) : List Row := l.rows.filter (·.hearing == hearing)

def byVersion (l : Ledger) (hearing : Int) : List Row :=
  Sorting.sort (fun a b => a.version ≤ b.version) (l.rowsOf hearing)

/-- The row of a hearing with the highest version, of several the one with the
largest identifier. -/
def latest? (l : Ledger) (hearing : Int) : Option Row := (l.byVersion hearing).getLast?

/-- Milliseconds from 1970 at the given age, not below the 64-bit range. -/
def cutoff (now : Int) (age : Time.Span) : Int :=
  max Bounds.minInt64 (now - min (age.toMillis : Int) Bounds.maxInt64)

/-- Whether the hearing of a row has a row in progress, or a pending row of a
lower version. -/
def isBlocked (l : Ledger) (r : Row) : Bool :=
  l.rows.any fun q => q.hearing == r.hearing &&
    (q.is .processing || (q.is .pending && q.version < r.version))

/-- Whether the index holds another row in progress for the hearing of a row. -/
def collides (l : Ledger) (r : Row) : Bool :=
  l.rows.any fun q => q.id != r.id && q.hearing == r.hearing && q.is .processing

def replace (l : Ledger) (r : Row) : Ledger :=
  { l with rows := l.rows.map fun q => if q.id == r.id then r else q }

/-- Stores a changed row, unless the index refuses it. -/
def store? (l : Ledger) (r : Row) : Option Ledger :=
  if r.is .processing && l.collides r then none else some (l.replace r)

def change (l : Ledger) (id : Int) (applies : Row → Bool) (f : Row → Row) : Ledger × Bool :=
  match l.row? id with
  | none => (l, false)
  | some r =>
    if applies r then
      match l.store? (f r) with
      | some l => (l, true)
      | none => (l, false)
    else (l, false)

def changeAll (l : Ledger) (applies : Row → Bool) (f : Row → Row) : Ledger × Nat :=
  ({ l with rows := l.rows.map fun r => if applies r then f r else r },
    (l.rows.filter applies).length)

def nextVersion (l : Ledger) (hearing : Int) : Int :=
  match (l.rowsOf hearing).map (·.version) with
  | [] => 1
  | v :: vs => vs.foldl max v + 1

def create (l : Ledger) (now : Int) (hearing : Int) (eventType : EventType) (message : String)
    (deployment : String) : Ledger × Except StoreError PendingRequest :=
  if Bounds.maxInt64 ≤ l.lastId then (l, .error .full)
  else
    let r : Row := {
      id := l.lastId + 1, hearing, eventType := eventType.name, version := l.nextVersion hearing,
      message, status := Status.pending.name, submitted := now, lastTried := none,
      retryCount := 0, incident := false, deployment := some deployment }
    (⟨l.rows ++ [r], r.id⟩, r.read)

def begin (now : Int) (deployment : String) (r : Row) : Row :=
  { r with status := Status.processing.name, lastTried := some now, deployment := some deployment }

/-- A row whose attempt has ended. The time of the last try never goes back. -/
def finish (status : Status) (now : Int) (deployment : String) (r : Row) : Row :=
  { r with status := status.name, lastTried := some (max (r.lastTried.getD 0) now),
           deployment := some deployment }

def markProcessing (l : Ledger) (now : Int) (id : Int) (deployment : String) : Ledger × Bool :=
  l.change id (fun r => r.is .pending && !l.isBlocked r) (begin now deployment)

def markCompleted (l : Ledger) (now : Int) (id : Int) (deployment : String) : Ledger × Bool :=
  l.change id (·.is .processing) (finish .completed now deployment)

def markException (l : Ledger) (now : Int) (id : Int) (deployment : String) : Ledger × Bool :=
  l.change id (·.is .processing) (finish .exception now deployment)

def markPendingWithRetry (l : Ledger) (now : Int) (id : Int) (deployment : String) :
    Ledger × Bool :=
  l.change id (·.is .processing) fun r =>
    { finish .pending now deployment r with retryCount := r.retryCount + 1 }

def requeueException (l : Ledger) (id : Int) (deployment : String) : Ledger × Bool :=
  l.change id (·.is .exception) fun r =>
    { r with status := Status.pending.name, deployment := some deployment }

/-- A pending row that may be taken: it has waited since its last try, and
nothing blocks it. -/
def isEligible (l : Ledger) (now : Int) (wait : Time.Span) (r : Row) : Bool :=
  r.is .pending && (r.lastTried.all fun t => t < cutoff now wait) && !l.isBlocked r

def olderOrSame (a b : Row) : Bool :=
  a.submitted < b.submitted || (a.submitted == b.submitted && a.id ≤ b.id)

def oldestEligible? (l : Ledger) (now : Int) (wait : Time.Span) : Option Row :=
  (Sorting.sort olderOrSame (l.rows.filter (l.isEligible now wait))).head?

/-- Takes the oldest row that may be taken. The row is read after the change. -/
def claim (l : Ledger) (now : Int) (wait : Time.Span) (deployment : String) :
    Ledger × Except StoreError (Option PendingRequest) :=
  match l.oldestEligible? now wait with
  | none => (l, .ok none)
  | some r =>
    match l.store? (begin now deployment r) with
    | none => (l, .ok none)
    | some l => (l, (begin now deployment r).read.map some)

def needsEscalation (now : Int) (threshold : Time.Span) (r : Row) : Bool :=
  !r.incident && r.submitted < cutoff now threshold

def escalationCandidates (l : Ledger) (now : Int) (threshold : Time.Span) :
    Except StoreError (List PendingRequest) :=
  Row.readAll (Sorting.sort olderOrSame (l.rows.filter (needsEscalation now threshold)))

def markForEscalation (l : Ledger) (now : Int) (threshold : Time.Span) (deployment : String) :
    Ledger × Nat :=
  l.changeAll (needsEscalation now threshold) fun r =>
    { r with incident := true, deployment := some deployment }

def isPastRetention (now : Int) (threshold : Time.Span) (r : Row) : Bool :=
  r.is .completed && r.submitted ≤ cutoff now threshold

def deleteCompleted (l : Ledger) (now : Int) (threshold : Time.Span) : Ledger × Nat :=
  ({ l with rows := l.rows.filter fun r => !isPastRetention now threshold r },
    (l.rows.filter (isPastRetention now threshold)).length)

def isStuck (now : Int) (timeout : Time.Span) (r : Row) : Bool :=
  r.is .processing && r.lastTried.any fun t => t < cutoff now timeout

def reclaimStuck (l : Ledger) (now : Int) (timeout : Time.Span) (deployment : String) :
    Ledger × Nat :=
  l.changeAll (isStuck now timeout) fun r =>
    { r with status := Status.pending.name, retryCount := r.retryCount + 1,
             deployment := some deployment }

def findById (l : Ledger) (id : Int) : Except StoreError (Option PendingRequest) :=
  Row.readOptional (l.row? id)

def findLatest (l : Ledger) (hearing : Int) : Except StoreError (Option PendingRequest) :=
  Row.readOptional (l.latest? hearing)

def findByHearing (l : Ledger) (hearing : Int) : Except StoreError (List PendingRequest) :=
  Row.readAll (l.byVersion hearing)

def insertById (r : Row) : List Row → List Row
  | [] => [r]
  | q :: rest => if r.id < q.id then r :: q :: rest else q :: insertById r rest

/-- Stores a row as it is given, or nothing when its identifier is taken or
the index refuses it. -/
def load? (l : Ledger) (r : Row) : Option Ledger :=
  if (l.row? r.id).isSome || (r.is .processing && l.collides r) then none
  else some ⟨insertById r l.rows, max l.lastId r.id⟩

end Ledger

end HearingRelay
