import HearingRelay.Dispatch

/-!
The worker of the inbound queue. One round polls a batch, dispatches its
messages in order and settles each with its disposition; a message that cannot
be settled is left to its lease. A worker does rounds until it is told to shut
down, which it notices between two polls only, or until its consumer is stopped.
-/

namespace HearingRelay.Worker

def handleAll (settings : DispatchSettings) : List Leased → Relay Unit
  | [] => pure ()
  | m :: rest => do
    let disposition ← dispatch settings m.envelope m.deliveryCount
    let _ ← Relay.settle m disposition
    handleAll settings rest

/-- One round: the number of messages handled, or the failure of the poll. -/
def runOnce (settings : DispatchSettings) (batch : Nat) : Relay (Except QueueError Nat) := do
  match ← Relay.poll batch with
  | .error e => pure (.error e)
  | .ok messages => do
    handleAll settings messages
    pure (.ok messages.length)

inductive Pace where
  | halt
  | idle
  | busy
deriving DecidableEq, Repr

def paceOf : Except QueueError Nat → Pace
  | .error .stopped => .halt
  | .error _ => .idle
  | .ok 0 => .idle
  | .ok _ => .busy

/-- Rounds until the worker ends, at most the given number. -/
def run (settings : DispatchSettings) (batch : Nat) : Nat → Relay Unit
  | 0 => pure ()
  | rounds + 1 => do
    if ← Relay.shutdownSignal then pure ()
    else
      match paceOf (← runOnce settings batch) with
      | .halt => pure ()
      | .busy => run settings batch rounds
      | .idle =>
        if ← Relay.pause then pure ()
        else run settings batch rounds

end HearingRelay.Worker
