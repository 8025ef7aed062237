import HearingRelay.Queue.Receipt
import HearingRelay.Message.Envelope
import HearingRelay.Bounds
import HearingRelay.Sorting

/-!
Queues with leases. All queues of one broker share its tables, and every
operation names its queue and touches nothing of another. A queue is polled by
any number of consumers, each of which can be stopped for itself. Polling leases
messages: each gets a fresh receipt, is hidden for the visibility timeout, and
its deliveries are counted. A message leaves its queue by completion or as a
dead letter, and only under its current receipt.
-/

namespace HearingRelay

/-- Someone who polls a queue, and hides what he is handed for some seconds. The
number tells consumers apart that are alike otherwise. -/
structure Consumer where
  queue : String
  number : Nat
  visibilitySeconds : Nat
deriving DecidableEq, Repr

/-- A live message. Times are milliseconds from 1970. -/
structure Queued where
  queue : String
  id : String
  /-- The envelope as it was written. -/
  payload : String
  receipt : Option Receipt
  visibleAt : Int
  createdAt : Int
  receiveCount : Int
deriving DecidableEq, Repr

structure DeadLetter where
  queue : String
  id : String
  payload : String
  reason : String
  description : String
  receiveCount : Int
  time : Int
deriving DecidableEq, Repr

structure Leased where
  envelope : Envelope
  receipt : Receipt
  brokerId : String
  queue : String
  deliveryCount : Nat
deriving DecidableEq

structure QueueMetrics where
  pending : Nat
  inFlight : Nat
  deadLettered : Nat
  queue : String
deriving DecidableEq, Repr

namespace Queued

/-- The key of a message: an identifier is taken once in a queue. -/
def hasKey (m : Queued) (queue id : String) : Bool := m.queue == queue && m.id == id

def isVisible (m : Queued) (queue : String) (now : Int) : Bool :=
  m.queue == queue && m.visibleAt ≤ now

/-- Messages are handed out by the time of their creation, then by the time
from which they are visible. -/
def olderOrSame (a b : Queued) : Bool :=
  a.createdAt < b.createdAt || (a.createdAt == b.createdAt && a.visibleAt ≤ b.visibleAt)

def isLeasedAs (m : Queued) (queue : String) (receipt : Receipt) : Bool :=
  m.queue == queue && m.receipt == some receipt

def lease (m : Queued) (receipt : Receipt) (deadline : Int) : Queued :=
  { m with receipt := some receipt, visibleAt := deadline, receiveCount := m.receiveCount + 1 }

end Queued

structure Broker where
  /-- Live messages in the order of their publication. -/
  messages : List Queued
  deadLetters : List DeadLetter
  /-- The consumers that poll no longer. -/
  stopped : List Consumer
  /-- The number of receipts given out. -/
  issued : Nat
deriving DecidableEq, Repr

namespace Broker

def empty : Broker := ⟨[], [], [], 0⟩

instance : Inhabited Broker := ⟨empty⟩

def message? (b : Broker) (queue id : String) : Option Queued :=
  b.messages.find? (·.hasKey queue id)

def visible (b : Broker) (queue : String) (now : Int) : List Queued :=
  Sorting.sort Queued.olderOrSame (b.messages.filter (·.isVisible queue now))

def update (b : Broker) (queue id : String) (f : Queued → Queued) : Broker :=
  { b with messages := b.messages.map fun m => if m.hasKey queue id then f m else m }

/-- Leases the given messages in order, and reads each after its lease is
taken. A payload that is not an envelope ends the call. -/
def leaseAll (b : Broker) (deadline : Int) : List Queued → Broker × Except QueueError (List Leased)
  | [] => (b, .ok [])
  | m :: rest =>
    let receipt := Receipt.issued b.issued
    let b := { b.update m.queue m.id (·.lease receipt deadline) with issued := b.issued + 1 }
    match Envelope.parse m.payload with
    | .error e => (b, .error (.serialization e))
    | .ok envelope =>
      let leased : Leased :=
        ⟨envelope, receipt, m.id, m.queue, Bounds.wrapUInt32 (m.receiveCount + 1)⟩
      match b.leaseAll deadline rest with
      | (b, .ok others) => (b, .ok (leased :: others))
      | (b, .error e) => (b, .error e)

def poll (b : Broker) (q : Consumer) (now : Int) (limit : Nat) :
    Broker × Except QueueError (List Leased) :=
  if b.stopped.contains q then (b, .error .stopped)
  else b.leaseAll (now + q.visibilitySeconds * 1000) ((b.visible q.queue now).take limit)

def leased? (b : Broker) (queue : String) (receipt : Receipt) : Option Queued :=
  b.messages.find? (·.isLeasedAs queue receipt)

def remove (b : Broker) (queue id : String) : Broker :=
  { b with messages := b.messages.filter fun m => !m.hasKey queue id }

def settleWith (b : Broker) (queue : String) (receipt : Receipt) (f : Queued → Broker) :
    Broker × Except QueueError Unit :=
  match b.leased? queue receipt with
  | none => (b, .error (.leaseLost receipt))
  | some m => (f m, .ok ())

def complete (b : Broker) (queue : String) (receipt : Receipt) : Broker × Except QueueError Unit :=
  b.settleWith queue receipt fun m => b.remove queue m.id

def abandon (b : Broker) (queue : String) (now : Int) (receipt : Receipt) (delaySeconds : Nat) :
    Broker × Except QueueError Unit :=
  b.settleWith queue receipt fun m => b.update queue m.id fun m =>
    { m with visibleAt := now + delaySeconds * 1000, receipt := none }

/-- Moves a message to the dead letters, in place of one with its identifier. -/
def deadLetter (b : Broker) (queue : String) (now : Int) (receipt : Receipt)
    (reason description : String) : Broker × Except QueueError Unit :=
  b.settleWith queue receipt fun m =>
    let letter : DeadLetter :=
      ⟨queue, m.id, m.payload, reason, description, m.receiveCount, now⟩
    let others := b.deadLetters.filter fun d => !(d.queue == queue && d.id == m.id)
    { b.remove queue m.id with deadLetters := others ++ [letter] }

def settle (b : Broker) (queue : String) (now : Int) (receipt : Receipt) :
    Disposition → Broker × Except QueueError Unit
  | .complete => b.complete queue receipt
  | .retry => b.abandon queue now receipt 0
  | .deadLetter reason description => b.deadLetter queue now receipt reason description

def load? (b : Broker) (m : Queued) : Option Broker :=
  if (b.message? m.queue m.id).isSome then none
  else some { b with messages := b.messages ++ [m] }

/-- Publishes a message. An identifier that is taken marks a second send of the
same message, which changes nothing. -/
def publish (b : Broker) (queue : String) (now : Int) (e : Envelope) : Broker :=
  (b.load? ⟨queue, e.id, e.write, none, now, now, 0⟩).getD b

def isHealthy (b : Broker) (q : Consumer) : Bool := !b.stopped.contains q

/-- Ends the polling of one consumer. Others go on, and so do settling and publishing. -/
def stop (b : Broker) (q : Consumer) : Broker :=
  if b.stopped.contains q then b else { b with stopped := q :: b.stopped }

def metrics (b : Broker) (queue : String) (now : Int) : QueueMetrics :=
  { pending := (b.messages.filter (·.isVisible queue now)).length
    inFlight := (b.messages.filter fun m =>
      m.queue == queue && now < m.visibleAt && m.receipt.isSome).length
    deadLettered := (b.deadLetters.filter (·.queue == queue)).length
    queue := queue }

def deadLettersOf (b : Broker) (queue : String) : List DeadLetter :=
  Sorting.sort (fun a b : DeadLetter => a.time < b.time || (a.time == b.time && a.id ≤ b.id))
    (b.deadLetters.filter (·.queue == queue))

def readDeadLetter (d : DeadLetter) : Except QueueError (DeadLetter × Envelope) :=
  match Envelope.parse d.payload with
  | .ok e => .ok (d, e)
  | .error e => .error (.serialization e)

/-- The dead letters of a queue with their envelopes, oldest first, those of
one time by the identifiers that their envelopes carry. One payload that is
not an envelope fails them all. -/
def readDeadLetters (b : Broker) (queue : String) :
    Except QueueError (List (DeadLetter × Envelope)) :=
  ((b.deadLettersOf queue).mapM readDeadLetter).map
    (Sorting.sort fun x y => x.1.time < y.1.time || (x.1.time == y.1.time && x.2.id ≤ y.2.id))

end Broker

end HearingRelay
