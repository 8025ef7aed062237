import HearingRelay.Config.Basic
import HearingRelay.Worker

/-!
The workers as the settings of the relay give them: the settings of their
dispatcher, and the batch that a round polls.
-/

namespace HearingRelay.Config

def toDispatch (c : Config) : DispatchSettings :=
  { maxDeliveries := c.queue.maxDeliveryCount, deployment := c.deploymentId,
    timeout := .ofSeconds c.downstream.timeoutSecs }

def workerRound (c : Config) : Relay (Except QueueError Nat) :=
  Worker.runOnce c.toDispatch c.queue.pollBatchSize

end HearingRelay.Config
