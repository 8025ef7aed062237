import HearingRelay.Config.Scheduling

/-!
The windows of settings that meet all rules. The rules keep a window from being
empty, and look at the value and not at its unit, so a window can still be too
long for a count of seconds. It has no span then, and neither do the settings
of the scheduler.
-/

namespace HearingRelay

namespace Config

/-- The windows that rows of the ledger are measured against. -/
inductive Window where
  | wait
  | escalation
  | deletion
  | exceptionLimit
  | processingReclaim
deriving DecidableEq, Repr

namespace Window

def seconds (p : Pending) : Window → Nat
  | wait => p.pendingWaitIntervalMinutes * minute
  | escalation => p.escalationWaitIntervalDays * day
  | deletion => p.deletionWaitIntervalDays * day
  | exceptionLimit => p.exceptionLimitInHours * hour
  | processingReclaim => p.processingReclaimMinutes * minute

def span? (p : Pending) : Window → Option Time.Span
  | wait => p.wait?
  | escalation => p.escalationWait?
  | deletion => p.deletionWait?
  | exceptionLimit => p.exceptionLimit?
  | processingReclaim => p.processingReclaim?

def ofScheduler (s : SchedulerSettings) : Window → Time.Span
  | wait => s.pendingWait
  | escalation => s.escalationThreshold
  | deletion => s.retention
  | exceptionLimit => s.exceptionLimit
  | processingReclaim => s.processingTimeout

/-- Every window is its seconds, as far as 64 bits hold them. -/
theorem span?_eq (p : Pending) (w : Window) : w.span? p = secondsWithin? (w.seconds p) := by
  cases w <;> rfl

theorem seconds_pos {p : Pending} (h : p.hasEmptyWindow = false) (w : Window) :
    0 < w.seconds p := by
  simp only [Pending.hasEmptyWindow, Bool.or_eq_false_iff, beq_eq_false_iff_ne] at h
  obtain ⟨⟨⟨⟨hwait, hescalation⟩, hdeletion⟩, hlimit⟩, hreclaim⟩ := h
  cases w with
  | wait => exact Nat.mul_pos (Nat.pos_of_ne_zero hwait) (by decide)
  | escalation => exact Nat.mul_pos (Nat.pos_of_ne_zero hescalation) (by decide)
  | deletion => exact Nat.mul_pos (Nat.pos_of_ne_zero hdeletion) (by decide)
  | exceptionLimit => exact Nat.mul_pos (Nat.pos_of_ne_zero hlimit) (by decide)
  | processingReclaim => exact Nat.mul_pos (Nat.pos_of_ne_zero hreclaim) (by decide)

end Window

theorem secondsWithin?_eq_some_iff {n : Nat} {span : Time.Span} :
    secondsWithin? n = some span ↔ n ≤ Bounds.maxUInt64 ∧ span = .ofSeconds n := by
  unfold secondsWithin?
  split
  · next hle => simp [hle, eq_comm]
  · next hlong => simp [hlong]

theorem secondsWithin?_eq_none_iff {n : Nat} :
    secondsWithin? n = none ↔ Bounds.maxUInt64 < n := by
  simp [secondsWithin?]

/-- The last rule is about the windows. -/
theorem hasEmptyWindow_of_accepted {c : Config} (h : c.violation? = none) :
    c.pending.hasEmptyWindow = false := by
  cases hwindow : c.pending.hasEmptyWindow with
  | false => rfl
  | true =>
    unfold violation? at h
    rw [if_pos hwindow] at h
    repeat' split at h
    all_goals cases h

/-- The scheduler has the windows of the settings, all of them. -/
theorem span?_of_toScheduler? {c : Config} {s : SchedulerSettings} (h : c.toScheduler? = some s)
    (w : Window) : w.span? c.pending = some (w.ofScheduler s) := by
  simp only [toScheduler?, Option.bind_eq_bind, Option.bind_eq_some_iff, Option.some.injEq] at h
  obtain ⟨_, hwait, _, hlimit, _, hescalation, _, hdeletion, _, hreclaim, rfl⟩ := h
  cases w with
  | wait => exact hwait
  | escalation => exact hescalation
  | deletion => exact hdeletion
  | exceptionLimit => exact hlimit
  | processingReclaim => exact hreclaim

theorem exists_toScheduler? {c : Config} (h : ∀ w : Window, ∃ span, w.span? c.pending = some span) :
    ∃ s, c.toScheduler? = some s := by
  obtain ⟨_, hwait⟩ := h .wait
  obtain ⟨_, hlimit⟩ := h .exceptionLimit
  obtain ⟨_, hescalation⟩ := h .escalation
  obtain ⟨_, hdeletion⟩ := h .deletion
  obtain ⟨_, hreclaim⟩ := h .processingReclaim
  simp only [Window.span?] at hwait hlimit hescalation hdeletion hreclaim
  simp only [toScheduler?, hwait, hlimit, hescalation, hdeletion, hreclaim]
  exact ⟨_, rfl⟩

/-- What becomes of the windows of settings that meet all rules. A window that
has a span is exact and not empty, and it has none exactly when its seconds do
not fit 64 bits. The scheduler gets its settings exactly when all windows fit,
and every window is passed on to it as it is. -/
theorem accepted_windows (c : Config) (haccepted : c.violation? = none) :
    (∀ w : Window,
      (w.span? c.pending = none ↔ Bounds.maxUInt64 < w.seconds c.pending) ∧
      ∀ span, w.span? c.pending = some span →
        span = .ofSeconds (w.seconds c.pending) ∧ 0 < span.nanos) ∧
    ((∃ s, c.toScheduler? = some s) ↔ ∀ w : Window, w.seconds c.pending ≤ Bounds.maxUInt64) ∧
    ∀ s, c.toScheduler? = some s → ∀ w : Window,
      w.ofScheduler s = .ofSeconds (w.seconds c.pending) ∧ 0 < (w.ofScheduler s).nanos := by
  have hpos : ∀ w : Window, 0 < w.seconds c.pending :=
    Window.seconds_pos (hasEmptyWindow_of_accepted haccepted)
  have hexact : ∀ (w : Window) (span : Time.Span), w.span? c.pending = some span →
      span = .ofSeconds (w.seconds c.pending) ∧ 0 < span.nanos := by
    intro w span hspan
    rw [Window.span?_eq] at hspan
    obtain ⟨_, rfl⟩ := secondsWithin?_eq_some_iff.mp hspan
    exact ⟨rfl, Nat.mul_pos (hpos w) (by decide)⟩
  refine ⟨fun w => ⟨?_, hexact w⟩, ⟨?_, ?_⟩, ?_⟩
  · rw [Window.span?_eq]
    exact secondsWithin?_eq_none_iff
  · rintro ⟨s, hs⟩ w
    have hspan := span?_of_toScheduler? hs w
    rw [Window.span?_eq] at hspan
    exact (secondsWithin?_eq_some_iff.mp hspan).1
  · intro hfit
    refine exists_toScheduler? fun w => ⟨.ofSeconds (w.seconds c.pending), ?_⟩
    rw [Window.span?_eq]
    exact secondsWithin?_eq_some_iff.mpr ⟨hfit w, rfl⟩
  · exact fun s hs w => hexact w _ (span?_of_toScheduler? hs w)

/-- The settings that hold when nothing is said. -/
theorem accepted_windows_default :
    ({} : Config).violation? = none ∧
      ∃ s, ({} : Config).toScheduler? = some s ∧
        Window.wait.ofScheduler s = .ofSeconds 900 ∧ 0 < (Window.wait.ofScheduler s).nanos := by
  have haccepted : ({} : Config).violation? = none := by decide
  obtain ⟨_, hscheduler, hwindows⟩ := accepted_windows {} haccepted
  obtain ⟨s, hs⟩ := hscheduler.mpr fun w => by cases w <;> decide
  exact ⟨haccepted, s, hs, hwindows s hs .wait⟩

/-- A wait of some five hundred thousand million years. -/
def endlessWait : Config :=
  { pending := { pendingWaitIntervalMinutes := 307445734561825861 } }

/-- The rules accept a wait that has no span, and the scheduler no settings. What
64 bits keep of its seconds is less than a minute. -/
theorem endlessWait_accepted :
    endlessWait.violation? = none ∧
      endlessWait.pending.pendingWaitIntervalMinutes ≤ Bounds.maxUInt64 ∧
      Window.wait.span? endlessWait.pending = none ∧
      endlessWait.toScheduler? = none ∧
      Window.wait.seconds endlessWait.pending % (Bounds.maxUInt64 + 1) = 44 := by
  decide

end Config

end HearingRelay
