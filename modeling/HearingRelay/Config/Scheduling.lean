import HearingRelay.Config.Basic
import HearingRelay.Scheduler.Settings

/-!
The scheduler's settings as the settings of the relay give them. All windows
must have a span.
-/

namespace HearingRelay.Config

def toScheduler? (c : Config) : Option SchedulerSettings := do
  let pendingWait ← c.pending.wait?
  let exceptionLimit ← c.pending.exceptionLimit?
  let escalationThreshold ← c.pending.escalationWait?
  let retention ← c.pending.deletionWait?
  let processingTimeout ← c.pending.processingReclaim?
  some { enabled := c.scheduler.enabled, runInterval := .ofSeconds c.scheduler.runIntervalSecs,
         pendingWait, exceptionLimit, escalationThreshold, retention, processingTimeout,
         deployment := c.deploymentId }

end HearingRelay.Config
