import HearingRelay.Program
import HearingRelay.Ledger.Call
import HearingRelay.Downstream.Call
import HearingRelay.Downstream.Error
import HearingRelay.Queue.Basic

/-!
What the programs of the relay ask of their surroundings: calls of the
ledger's store and of the scheduling service, the publication of reports, the
inbound queue, the clock, and the signal to shut down.
-/

namespace HearingRelay

inductive Request where
  | store (call : StoreCall)
  | send (call : DownstreamCall)
  | publish (hearing : Int) (report : SyncResponse)
  | poll (limit : Nat)
  | settle (leased : Leased) (disposition : Disposition)
  | clock
  /-- Whether the signal to shut down has come. -/
  | shutdownSignal
  /-- The pause between two polls, which the signal ends. -/
  | pause

/-- A call of the service that does not end in time has no result. -/
abbrev Request.Answer : Request → Type
  | store call => Except StoreError call.Answer
  | send _ => Option CallResult
  | publish .. => Except QueueError String
  | poll _ => Except QueueError (List Leased)
  | settle .. => Except QueueError Unit
  | clock => Time.Instant
  | shutdownSignal => Bool
  | pause => Bool

abbrev Relay (α : Type) := Program Request.Answer α

namespace Relay

def store (call : StoreCall) : Relay (Except StoreError call.Answer) :=
  Program.call (Request.store call)

def send (call : DownstreamCall) : Relay (Option CallResult) :=
  Program.call (Request.send call)

def publish (hearing : Int) (report : SyncResponse) : Relay (Except QueueError String) :=
  Program.call (Request.publish hearing report)

def poll (limit : Nat) : Relay (Except QueueError (List Leased)) :=
  Program.call (Request.poll limit)

def settle (leased : Leased) (disposition : Disposition) : Relay (Except QueueError Unit) :=
  Program.call (Request.settle leased disposition)

def clock : Relay Time.Instant := Program.call Request.clock

def shutdownSignal : Relay Bool := Program.call Request.shutdownSignal

def pause : Relay Bool := Program.call Request.pause

end Relay

end HearingRelay
