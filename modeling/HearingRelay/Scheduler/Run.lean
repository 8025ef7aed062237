import HearingRelay.Scheduler.Redrive
import HearingRelay.Scheduler.Housekeeping

/-!
A run of the scheduler does four steps in a fixed order, and a step that fails
does not keep the later ones from being done. Only an exception limit out of
the range of dates cuts a run short.
-/

namespace HearingRelay

inductive SchedulerStep where
  | redrive
  | escalate
  | cleanup
  | reclaim
deriving DecidableEq, Repr

def SchedulerStep.name : SchedulerStep → String
  | redrive => "redrive"
  | escalate => "escalate"
  | cleanup => "cleanup"
  | reclaim => "reclaim"

structure RunSummary where
  /-- Absent when the step failed. -/
  redrive : Option RedriveOutcome := none
  escalated : Nat := 0
  deleted : Nat := 0
  reclaimed : Nat := 0
  failedSteps : List SchedulerStep := []
deriving DecidableEq, Repr

namespace RunSummary

def isClean (s : RunSummary) : Bool := s.failedSteps.isEmpty

def failed (s : RunSummary) (step : SchedulerStep) : RunSummary :=
  { s with failedSteps := s.failedSteps ++ [step] }

def count (s : RunSummary) (step : SchedulerStep) (set : RunSummary → Nat → RunSummary) :
    Except StoreError Nat → RunSummary
  | .ok n => set s n
  | .error _ => s.failed step

end RunSummary

namespace Scheduler

def upkeep (settings : SchedulerSettings) (summary : RunSummary) : Relay RunSummary := do
  let escalated ← Housekeeping.escalate settings
  let summary := summary.count .escalate (fun s n => { s with escalated := n }) escalated
  let deleted ← Housekeeping.deleteCompleted settings
  let summary := summary.count .cleanup (fun s n => { s with deleted := n }) deleted
  let reclaimed ← Housekeeping.reclaimStuck settings
  pure (summary.count .reclaim (fun s n => { s with reclaimed := n }) reclaimed)

/-- One run, or nothing when it is cut short. -/
def runOnce (settings : SchedulerSettings) (timeout : Time.Span) : Relay (Option RunSummary) := do
  match ← redriveNext settings timeout with
  | .ok outcome => some <$> upkeep settings { redrive := some outcome }
  | .error (.store _) => some <$> upkeep settings (RunSummary.failed {} .redrive)
  | .error .limitOutOfRange => pure none

end Scheduler

end HearingRelay
