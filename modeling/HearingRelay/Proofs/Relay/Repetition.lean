import HearingRelay.Proofs.Relay.Turns

/-!
How often one event can be delivered. A message that comes back after its
event was delivered is recognised by the newest row of its hearing only: when
a later event of the hearing has a row by then, or when the row was purged, a
new row is added and may be delivered again. Nothing else repeats a delivery.
-/

namespace HearingRelay

def Turn.event? : Turn → Option Dispatch.Event
  | .publish e => (Dispatch.eventOf e).toOption
  | _ => none

/-- Whether the clock never goes back. -/
def isForward (now : Int) : List Turn → Bool
  | [] => true
  | .clock later :: rest => now ≤ later && isForward later rest
  | _ :: rest => isForward now rest

/-- Successful calls for an event are at most one more than the rows that were
added for it after a success. Such a row is added only when all rows of the
event that are left are completed and the newest row of its hearing, if there
is one, carries another event; and no call is made but for a row. -/
theorem deliveries_le_reentries (service : Service) (visibility : Nat) (now : Int)
    (turns : List Turn) :
    let o := (Observed.start (.empty now)).after service visibility turns
    (∀ event, (deliveries o.trace).countP (·.carries event) ≤ 1 + reentries event o.trace) ∧
      ∀ x earlier, x :: earlier <:+ o.trace →
        (∀ event, x.creates event = true →
          (∀ row ∈ x.before.ledger.rows, row.carries event = true → row.is .completed = true) ∧
          ∀ row, x.before.ledger.latest? event.key.hearing = some row →
            row.carries event = false) ∧
        ∀ call, x.question = .send call →
          ∃ row, x.subject? = some row ∧ call.IsFor row x.before.ledger := by
  intro o
  have h : Balanced none o := after_balanced service visibility (start_balanced now) turns
  refine ⟨?_, ?_⟩
  · intro event
    have hle := h.repeated_le event
    omega
  · intro x earlier hsuffix
    have hsound := h.sound x earlier hsuffix
    refine ⟨?_, hsound.called⟩
    intro event hcreates
    have hsettles := hsound.settled event hcreates
    exact ⟨hsettles.completed, hsettles.superseded⟩

def refusesFirst : Service := fun calls _ =>
  if calls.isEmpty then some (.error (.rejected 503 none none)) else some (.ok ⟨200, none⟩)

/-- A request fails and stays in the queue, the later amendment of its hearing
is deferred, and the scheduler delivers the request before it comes back. -/
def overtaken : List Turn :=
  let message id type : Envelope :=
    ⟨id, Properties.ofList [("message_type", type), ("hearing_id", "1")], "\x7b\x7d"⟩
  let dispatching : DispatchSettings := { timeout := .ofMillis 5000 }
  let scheduling : SchedulerSettings := {
    runInterval := .ofSeconds 120, pendingWait := .ofSeconds 900,
    exceptionLimit := .ofSeconds 14400, escalationThreshold := .ofSeconds 86400,
    retention := .ofSeconds 2592000, processingTimeout := .ofSeconds 1800, deployment := "local" }
  [.publish (message "a" "REQUEST_HEARING"), .publish (message "b" "AMEND_HEARING"),
    .work dispatching 10, .clock 1700000900001, .schedule scheduling (.ofMillis 5000),
    .work dispatching 10, .schedule scheduling (.ofMillis 5000),
    .schedule scheduling (.ofMillis 5000)]

/-- Distinct events, a clock that goes forward and no failure of the store or
of a queue do not keep an event from being delivered twice. -/
theorem overtaken_event_repeats :
    ¬ ∀ (service : Service) (visibility : Nat) (now : Int) (turns : List Turn),
      isForward now turns = true → (turns.filterMap Turn.event?).Nodup →
        (∀ x ∈ ((Observed.start (.empty now)).after service visibility turns).trace,
          x.storeFails = false ∧ x.queueFails = false) →
        ∀ event, (deliveries ((Observed.start (.empty now)).after service visibility
          turns).trace).countP (·.carries event) ≤ 1 := by
  intro h
  have hle := h refusesFirst 30 1700000000000 overtaken (by decide +kernel) (by decide +kernel)
    (by decide +kernel) ⟨⟨.request, 1⟩, "\x7b\x7d"⟩
  have htwice : (deliveries ((Observed.start (.empty 1700000000000)).after refusesFirst 30
      overtaken).trace).countP (·.carries ⟨⟨.request, 1⟩, "\x7b\x7d"⟩) = 2 := by
    decide +kernel
  omega

end HearingRelay
