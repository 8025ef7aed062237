import HearingRelay.Request
import HearingRelay.Scheduler.Settings

/-!
Upkeep of the ledger: overdue rows are reported and flagged, completed rows
past their retention are deleted, and rows stuck in progress wait again.
-/

namespace HearingRelay.Housekeeping

/-- Flags every overdue row, after the rows to report have been read. -/
def escalate (settings : SchedulerSettings) : Relay (Except StoreError Nat) := do
  match ← Relay.store (.escalationCandidates settings.escalationThreshold) with
  | .error e => pure (.error e)
  | .ok _ => Relay.store (.markForEscalation settings.escalationThreshold settings.deployment)

def deleteCompleted (settings : SchedulerSettings) : Relay (Except StoreError Nat) :=
  Relay.store (.deleteCompleted settings.retention)

def reclaimStuck (settings : SchedulerSettings) : Relay (Except StoreError Nat) :=
  Relay.store (.reclaimStuck settings.processingTimeout settings.deployment)

end HearingRelay.Housekeeping
