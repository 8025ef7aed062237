import HearingRelay.Request
import HearingRelay.Text.Digits

/-!
The surroundings in which the programs of the relay run: a clock, a ledger, a
broker with an inbound and an egress queue, and records of the calls made and
of the reports published. The scheduling service is a function of its own,
which may look at everything that was asked of it so far.
-/

namespace HearingRelay

/-- How the service ends a call, given the calls before it. A call without a
result does not end in time. -/
abbrev Service := List DownstreamCall → DownstreamCall → Option CallResult

structure World where
  /-- Milliseconds from 1970. -/
  now : Int
  ledger : Ledger
  broker : Broker
  /-- The calls of the service in the order in which they were made. -/
  calls : List DownstreamCall
  /-- The reports handed to the egress queue, in order. -/
  reports : List Envelope
  /-- Whether the signal to shut down has come. -/
  shutdown : Bool

namespace World

def inboundQueue : String := "inbound"

def inboundConsumer (visibilitySeconds : Nat) : Consumer := ⟨inboundQueue, 0, visibilitySeconds⟩

def egressQueue : String := "outbound"

def empty (now : Int) : World := ⟨now, Ledger.empty, Broker.empty, [], [], false⟩

/-- The identifier of the report with the given number: a text of the form
that unique identifiers have, different for each number. -/
def reportId (n : Nat) : String :=
  let digits := Nat.toDigits 16 n
  "00000000-0000-4000-8000-" ++ String.ofList (List.replicate (12 - digits.length) '0' ++ digits)

def store (w : World) (call : StoreCall) : World × Except StoreError call.Answer :=
  let stepped := w.ledger.step w.now call
  ({ w with ledger := stepped.1 }, stepped.2)

def publish (w : World) (hearing : Int) (report : SyncResponse) :
    World × Except QueueError String :=
  let e := report.toEnvelope (reportId w.reports.length) hearing
  ({ w with broker := w.broker.publish egressQueue w.now e, reports := w.reports ++ [e] },
    .ok e.id)

def poll (w : World) (visibilitySeconds limit : Nat) :
    World × Except QueueError (List Leased) :=
  let polled := w.broker.poll (inboundConsumer visibilitySeconds) w.now limit
  ({ w with broker := polled.1 }, polled.2)

def settle (w : World) (leased : Leased) (disposition : Disposition) :
    World × Except QueueError Unit :=
  let settled := w.broker.settle inboundQueue w.now leased.receipt disposition
  ({ w with broker := settled.1 }, settled.2)

def handle (service : Service) (visibilitySeconds : Nat) : Handler Request.Answer World
  | .store call, w => w.store call
  | .send call, w => ({ w with calls := w.calls ++ [call] }, service w.calls call)
  | .publish hearing report, w => w.publish hearing report
  | .poll limit, w => w.poll visibilitySeconds limit
  | .settle leased disposition, w => w.settle leased disposition
  | .clock, w => (w, Time.Instant.ofMillis w.now)
  | .shutdownSignal, w => (w, w.shutdown)
  | .pause, w => (w, w.shutdown)

end World

end HearingRelay
