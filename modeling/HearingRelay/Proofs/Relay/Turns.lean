import HearingRelay.Proofs.Relay.Rounds
import HearingRelay.Proofs.Relay.Settlement

/-!
Runs of the whole relay. Messages are published, the worker and the scheduler
do their rounds, and the clock moves, in any order and any number of times, with
any answers of the service. Every run keeps the balance, so no event is lost:
a message that was completed has its event delivered or still in the ledger.
-/

namespace HearingRelay

/-- What happens to the relay from outside, one thing at a time. -/
inductive Turn where
  | publish (e : Envelope)
  | work (settings : DispatchSettings) (batch : Nat)
  | schedule (settings : SchedulerSettings) (timeout : Time.Span)
  | clock (now : Int)

namespace Observed

variable (service : Service) (visibility : Nat)

def publish (o : Observed) (e : Envelope) : Observed :=
  { o with world := { o.world with
      broker := o.world.broker.publish World.inboundQueue o.world.now e } }

def setClock (o : Observed) (now : Int) : Observed :=
  { o with world := { o.world with now := now } }

def turn (o : Observed) : Turn → Observed
  | .publish e => o.publish e
  | .work settings batch => ((Worker.runOnce settings batch).run (handle service visibility) o).1
  | .schedule settings timeout =>
    ((Scheduler.runOnce settings timeout).run (handle service visibility) o).1
  | .clock now => o.setClock now

def after (o : Observed) (turns : List Turn) : Observed :=
  turns.foldl (turn service visibility) o

/-- The record of a turn goes on from the one before it. -/
theorem turn_trace_suffix (o : Observed) (turn : Turn) :
    o.trace <:+ (o.turn service visibility turn).trace := by
  cases turn with
  | publish e => exact List.suffix_refl _
  | work settings batch => exact trace_suffix_run service visibility _ o
  | schedule settings timeout => exact trace_suffix_run service visibility _ o
  | clock now => exact List.suffix_refl _

theorem after_trace_suffix (o : Observed) (turns : List Turn) :
    o.trace <:+ (o.after service visibility turns).trace := by
  induction turns generalizing o with
  | nil => exact List.suffix_refl _
  | cons turn rest ih => exact (o.turn_trace_suffix service visibility turn).trans (ih _)

end Observed

variable (service : Service) (visibility : Nat)

/-- The balance concerns neither the queues nor the clock. -/
theorem Balanced.publish {o : Observed} (h : Balanced none o) (e : Envelope) :
    Balanced none (o.publish e) :=
  ⟨h.wellFormed, h.delivered_of_completed, h.completed_of_delivered, h.delivered_le,
    h.repeated_le, h.accounted, h.sound⟩

theorem Balanced.setClock {o : Observed} (h : Balanced none o) (now : Int) :
    Balanced none (o.setClock now) :=
  ⟨h.wellFormed, h.delivered_of_completed, h.completed_of_delivered, h.delivered_le,
    h.repeated_le, h.accounted, h.sound⟩

theorem turn_balanced {o : Observed} (h : Balanced none o) (turn : Turn) :
    Balanced none (o.turn service visibility turn) := by
  cases turn with
  | publish e => exact h.publish e
  | work settings batch => exact Worker.runOnce_balanced service visibility settings batch h
  | schedule settings timeout =>
    exact Scheduler.runOnce_balanced service visibility settings timeout h
  | clock now => exact h.setClock now

theorem after_balanced {o : Observed} (h : Balanced none o) (turns : List Turn) :
    Balanced none (o.after service visibility turns) := by
  induction turns generalizing o with
  | nil => exact h
  | cons turn rest ih => exact ih (turn_balanced service visibility h turn)

namespace Observed.Faithful

variable {o : Observed}

theorem publish (h : o.Faithful) (e : Envelope) : (o.publish e).Faithful :=
  ⟨Broker.publish_wellFormed h.wellFormed _ _ _, h.read⟩

theorem setClock (h : o.Faithful) (now : Int) : (o.setClock now).Faithful :=
  ⟨h.wellFormed, h.read⟩

theorem turn (h : o.Faithful) (turn : Turn) : (o.turn service visibility turn).Faithful := by
  cases turn with
  | publish e => exact h.publish e
  | work settings batch => exact h.workerRound service visibility settings batch
  | schedule settings timeout => exact h.schedulerRun service visibility settings timeout
  | clock now => exact h.setClock now

theorem after (h : o.Faithful) (turns : List Turn) :
    (o.after service visibility turns).Faithful := by
  induction turns generalizing o with
  | nil => exact h
  | cons turn rest ih => exact ih (h.turn service visibility turn)

end Observed.Faithful

/-- No event is lost. A message that is gone as completed is the one that was
read, and its event has had a successful call for a row of it, or such a row is
in the ledger and not completed. Rows are completed only after a successful
call for them, and they disappear only while they are completed; calls are made
for rows in progress, with what the rows say. -/
theorem no_event_lost (now : Int) (turns : List Turn) :
    let o := (Observed.start (.empty now)).after service visibility turns
    (∀ x ∈ o.trace, ∀ leased m, x.Completes leased m →
      Envelope.parse m.payload = .ok leased.envelope ∧
        ∀ event, Dispatch.eventOf leased.envelope = .ok event →
          (∃ d ∈ deliveries o.trace, d.carries event = true) ∨
            ∃ row ∈ o.world.ledger.rows, row.carries event = true ∧ row.is .completed = false) ∧
      ∀ x earlier, x :: earlier <:+ o.trace →
        (∀ row ∈ x.after.ledger.rows, row.is .completed = true →
          ∃ d ∈ deliveries earlier, d.SameEvent row) ∧
        (∀ row ∈ x.before.ledger.rows, row.is .completed = false →
          ∃ q ∈ x.after.ledger.rows, row.SameEvent q) ∧
        ∀ call, x.question = .send call →
          ∃ row, x.subject? = some row ∧ call.IsFor row x.before.ledger := by
  intro o
  have h : Balanced none o := after_balanced service visibility (start_balanced now) turns
  have hfaithful : o.Faithful := (start_faithful now).after service visibility turns
  refine ⟨?_, ?_⟩
  · intro x hx leased m hcompletes
    refine ⟨hfaithful.read x hx leased m hcompletes, ?_⟩
    intro event hevent
    exact h.accounted x hx event ⟨leased, hcompletes.question, hevent⟩
  · intro x earlier hsuffix
    have hsound := h.sound x earlier hsuffix
    refine ⟨hsound.delivered, ?_, hsound.called⟩
    intro row hrow hopen
    rcases hsound.kept row hrow with hcompleted | hkept
    · rw [hcompleted] at hopen
      cases hopen
    · exact hkept

end HearingRelay
