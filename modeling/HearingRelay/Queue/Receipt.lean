import HearingRelay.Json.Basic

/-!
Receipts and the failures of a queue. A receipt is either one that a poll gave
out, numbered in the order in which they were given out, or a text that
someone presents and no poll ever gave out.
-/

namespace HearingRelay

inductive Receipt where
  | issued (serial : Nat)
  | foreign (text : String)
deriving DecidableEq, Repr, Inhabited

def Receipt.write : Receipt → String
  | .issued serial => "receipt " ++ Text.writeNat serial
  | .foreign text => text

inductive QueueError where
  /-- A stored payload is not an envelope. -/
  | serialization (e : Json.Error)
  /-- No live message is leased under the receipt. -/
  | leaseLost (receipt : Receipt)
  | stopped
deriving DecidableEq, Repr

def QueueError.message : QueueError → String
  | .serialization e => "Queued payload is not a valid message envelope: " ++ e.message
  | .leaseLost receipt => "No leased message for receipt " ++ receipt.write
  | .stopped => "Queue consumer is stopped"

inductive Disposition where
  | complete
  | retry
  | deadLetter (reason description : String)
deriving DecidableEq, Repr, Inhabited

end HearingRelay
