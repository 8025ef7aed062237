import HearingRelay.Time.Span

/-!
Settings of the scheduler: the windows that it measures rows against, the
interval between two runs, and the instance it acts for.
-/

namespace HearingRelay

structure SchedulerSettings where
  enabled : Bool := true
  runInterval : Time.Span
  /-- The shortest time between two attempts on one row. -/
  pendingWait : Time.Span
  /-- The age from which on a row is given up. -/
  exceptionLimit : Time.Span
  escalationThreshold : Time.Span
  retention : Time.Span
  processingTimeout : Time.Span
  deployment : String
deriving DecidableEq, Repr, Inhabited

end HearingRelay
