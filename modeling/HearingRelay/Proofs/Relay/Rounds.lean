import HearingRelay.Proofs.Relay.Balance
import HearingRelay.Proofs.Relay.Course
import HearingRelay.Scheduler.Run
import HearingRelay.Worker

/-!
Rounds of the worker and of the scheduler keep the balance. Both attempt a row
in the same way: the row in progress gets one call, the call is reported, and
the row is completed after a success or made to wait after a failure. A
message that is dispatched to completion has its event accounted for.
-/

namespace HearingRelay

open Ledger

variable (service : Service) (visibility : Nat)

namespace Balanced

variable {recording : Option Int} {o : Observed}

theorem announced (h : Balanced recording o) (hearing : Int) (report : Option SyncResponse) :
    Balanced recording (o.announced service visibility hearing report) := by
  cases report with
  | none => exact h
  | some report =>
    refine h.ask_plain service visibility (by simp) (by simp) ?_
    intro event hevent
    exact absurd hevent (Request.not_completes (by simp) event)

theorem deliveries_announced (o : Observed) (hearing : Int) (report : Option SyncResponse) :
    deliveries (o.announced service visibility hearing report).trace = deliveries o.trace := by
  cases report with
  | none => rfl
  | some report => exact deliveries_cons_none rfl _

/-- A row in progress that is called with success and completed. -/
theorem attempt_ok (h : Balanced none o) {row : Row} {call : DownstreamCall}
    (hfor : call.IsFor row o.world.ledger) {timeout : Time.Span} {response : HearingResponse}
    (hok : o.resultOf service timeout call = .ok response) (deployment : String) :
    Balanced none ((o.called service visibility timeout call).ask service visibility
      (.store (.markCompleted row.id deployment))) ∧
        row ∈ deliveries ((o.called service visibility timeout call).ask service visibility
          (.store (.markCompleted row.id deployment))).trace := by
  obtain ⟨hsent, hdelivered⟩ := h.ask_send_ok service visibility hfor hok
  have hcalled : Balanced (some row.id) (o.called service visibility timeout call) :=
    hsent.announced service visibility call.hearing _
  have hstill : row ∈ deliveries (o.called service visibility timeout call).trace := by
    unfold Observed.called
    rw [deliveries_announced]
    exact hdelivered
  have hthere : row ∈ (o.called service visibility timeout call).world.ledger.rows := by
    rw [Observed.called_ledger]
    exact hfor.mem
  refine ⟨hcalled.ask_markCompleted service visibility hthere hfor.processing hstill deployment, ?_⟩
  rw [Observed.ask_trace, deliveries_cons_none rfl]
  exact hstill

/-- A row in progress that is called in vain. -/
theorem attempt_error (h : Balanced none o) {row : Row} {call : DownstreamCall}
    (hfor : call.IsFor row o.world.ledger) {timeout : Time.Span} {e : DownstreamError}
    (he : o.resultOf service timeout call = .error e) :
    Balanced none (o.called service visibility timeout call) :=
  (h.ask_send_error service visibility hfor he).announced service visibility call.hearing _

/-- Calls that neither add nor complete a row. -/
theorem ask_upkeep (h : Balanced none o) {c : StoreCall}
    (hcompleted : ∀ id deployment, c ≠ .markCompleted id deployment)
    (hcreate : ∀ event, c.creates event = false) :
    Balanced none (o.ask service visibility (.store c)) := by
  refine h.ask_store_open service visibility hcompleted ?_
  intro event hevent
  rw [hcreate event] at hevent
  cases hevent

end Balanced

namespace Dispatch

variable {settings : DispatchSettings} {event : Event} {o o' : Observed}

theorem creates_creation {event event' : Event} {deployment : String}
    (h : (event.creation deployment).creates event' = true) : event = event' := by
  obtain ⟨⟨type, hearing⟩, body⟩ := event
  obtain ⟨⟨type', hearing'⟩, body'⟩ := event'
  simp only [Event.creation, StoreCall.creates, Bool.and_eq_true, beq_iff_eq] at h
  obtain ⟨⟨rfl, rfl⟩, rfl⟩ := h
  rfl

/-- After a lookup the ledger is as it was. -/
theorem looked_balanced (h : Balanced none o) :
    Balanced none (looked service visibility event o) :=
  h.ask_upkeep service visibility (by simp) (fun _ => rfl)

theorem created_balanced (h : Balanced none o) (hsettles : o.world.ledger.Settles event) :
    Balanced none ((looked service visibility event o).ask service visibility
      (.store (event.creation settings.deployment))) := by
  refine (looked_balanced service visibility h).ask_store_open service visibility ?_ ?_
  · intro id deployment hcall
    cases hcall
  · intro event' hcreates
    obtain rfl := creates_creation hcreates
    exact hsettles

theorem Readied.balanced {row : Row}
    (hready : Readied service visibility settings event o row o') (h : Balanced none o) :
    Balanced none o' := by
  cases hready with
  | waiting => exact looked_balanced service visibility h
  | replayed =>
    exact (looked_balanced service visibility h).ask_upkeep service visibility (by simp)
      (fun _ => rfl)
  | created hsettles => exact created_balanced service visibility h hsettles

/-- A lookup keeps the balance, and a row found completed or in progress
accounts for the event. -/
theorem Found.balanced {answer : Except StoreError Entry}
    (hfound : Found service visibility settings event o answer o') (h : Balanced none o) :
    Balanced none o' ∧ ∀ r, answer = .ok (.completed r) ∨ answer = .ok (.inFlight r) →
      o'.Accounts event := by
  cases hfound with
  | unread => exact ⟨looked_balanced service visibility h, by simp⟩
  | completed row r hrow hcarries hcompleted =>
    refine ⟨looked_balanced service visibility h, fun _ _ => ?_⟩
    obtain ⟨d, hd, hsame⟩ := h.delivered_of_completed row hrow hcompleted
    exact Or.inl ⟨d, hd, (hsame.carries event).symm.trans hcarries⟩
  | inFlight row r hrow hcarries hprocessing =>
    refine ⟨looked_balanced service visibility h, fun _ _ => ?_⟩
    exact Or.inr ⟨row, hrow, hcarries, Row.is_eq_false hprocessing (by decide)⟩
  | claimable row r _ hready => exact ⟨hready.balanced service visibility h, by simp⟩
  | refused e hsettles => exact ⟨created_balanced service visibility h hsettles, by simp⟩

theorem asked_balanced (h : Balanced none o) (settings : DispatchSettings) (row : Row) :
    Balanced none (asked service visibility settings o row) :=
  h.ask_upkeep service visibility (by simp) (fun _ => rfl)

theorem failureCall_balanced (h : Balanced none o) (id : Int) (deliveryCount : Nat)
    (e : DispatchError) :
    Balanced none (o.ask service visibility
      (.store (failureCall settings id deliveryCount e))) := by
  unfold failureCall
  split
  · exact h.ask_upkeep service visibility (by simp) (fun _ => rfl)
  · exact h.ask_upkeep service visibility (by simp) (fun _ => rfl)

/-- Every course keeps the balance, and one without a failure accounts for the event. -/
theorem Course.balanced {document : Json.Value} {deliveryCount : Nat}
    {result : Except DispatchError Outcome}
    (hcourse : Course service visibility settings event document deliveryCount o result o')
    (hdoc : Json.parse event.body = .ok document) (h : Balanced none o) :
    Balanced none o' ∧ ∀ outcome, result = .ok outcome → o'.Accounts event := by
  cases hcourse with
  | failed e o' hfound => exact ⟨(hfound.balanced service visibility h).1, by simp⟩
  | duplicate r o' hfound =>
    obtain ⟨hbalanced, haccounts⟩ := hfound.balanced service visibility h
    exact ⟨hbalanced, fun _ _ => haccounts r (Or.inl rfl)⟩
  | underway r o' hfound =>
    obtain ⟨hbalanced, haccounts⟩ := hfound.balanced service visibility h
    exact ⟨hbalanced, fun _ _ => haccounts r (Or.inr rfl)⟩
  | held row o₁ hready hblocked =>
    obtain ⟨hrow, hcarries, hpending⟩ := hready.row service visibility settings event h.wellFormed
    have hbalanced := hready.balanced service visibility h
    have hasked := asked_balanced service visibility hbalanced settings row
    have hopen : row.is .completed = false := Row.is_eq_false hpending (by decide)
    have haccounts : o₁.Accounts event := Or.inr ⟨row, hrow, hcarries, hopen⟩
    refine ⟨hasked, fun _ _ => ?_⟩
    exact haccounts.ask_store service visibility hbalanced.wellFormed.ids_increase
      hasked.delivered_of_completed
  | delivered row o₁ hready hfree response hresult =>
    obtain ⟨_, hcarries, _⟩ := hready.row service visibility settings event h.wellFormed
    have hasked := asked_balanced service visibility
      (hready.balanced service visibility h) settings row
    have hfor := hready.isFor service visibility settings event h.wellFormed hfree hdoc
    obtain ⟨hbalanced, hdelivered⟩ := hasked.attempt_ok service visibility hfor hresult
      settings.deployment
    exact ⟨hbalanced, fun _ _ => Or.inl ⟨_, hdelivered, hcarries⟩⟩
  | rejected row o₁ hready hfree e hresult =>
    have hasked := asked_balanced service visibility
      (hready.balanced service visibility h) settings row
    have hfor := hready.isFor service visibility settings event h.wellFormed hfree hdoc
    have hcalled := hasked.attempt_error service visibility hfor hresult
    exact ⟨failureCall_balanced service visibility hcalled row.id deliveryCount _, by simp⟩

theorem dispatch_balanced (h : Balanced none o) (settings : DispatchSettings) (e : Envelope)
    (deliveryCount : Nat) :
    let ended := (dispatch settings e deliveryCount).run (Observed.handle service visibility) o
    Balanced none ended.1 ∧ (ended.2 = .complete →
      ∀ event, eventOf e = .ok event → ended.1.Accounts event) := by
  intro ended
  unfold ended
  cases hevent : eventOf e with
  | error error =>
    rw [run_dispatch_unreadable hevent]
    exact ⟨h, fun _ event hevent' => by cases hevent'⟩
  | ok event =>
    obtain ⟨_, document, hdoc⟩ := body_of_eventOf hevent
    have hcourse := course_process service visibility settings event h.wellFormed hdoc deliveryCount
    obtain ⟨hbalanced, haccounts⟩ := hcourse.balanced service visibility hdoc h
    rw [run_dispatch hevent]
    refine ⟨hbalanced, fun hcomplete event' hevent' => ?_⟩
    obtain rfl := Except.ok.inj hevent'
    obtain ⟨outcome, hresult⟩ := exists_of_conclusion hcomplete
    exact haccounts outcome hresult

end Dispatch

namespace Worker

theorem handleAll_balanced (settings : DispatchSettings) (batch : List Leased) {o : Observed}
    (h : Balanced none o) :
    Balanced none ((handleAll settings batch).run (Observed.handle service visibility) o).1 := by
  induction batch generalizing o with
  | nil => exact h
  | cons m rest ih =>
    obtain ⟨hdispatched, haccounts⟩ :=
      Dispatch.dispatch_balanced service visibility h settings m.envelope m.deliveryCount
    unfold handleAll
    rw [Program.run_bind, Program.run_bind]
    refine ih (hdispatched.ask_plain service visibility (by simp) (by simp) ?_)
    rintro event ⟨leased, hq, hevent⟩
    injection hq with hleased hdisposition
    subst hleased
    exact haccounts hdisposition event hevent

/-- A round of the worker keeps the balance. -/
theorem runOnce_balanced (settings : DispatchSettings) (batch : Nat) {o : Observed}
    (h : Balanced none o) :
    Balanced none ((runOnce settings batch).run (Observed.handle service visibility) o).1 := by
  have hpolled : Balanced none (o.ask service visibility (.poll batch)) := by
    refine h.ask_plain service visibility (by simp) (by simp) ?_
    intro event hevent
    exact absurd hevent (Request.not_completes (by simp) event)
  rw [run_runOnce]
  cases (o.world.poll visibility batch).2 with
  | error e => exact hpolled
  | ok messages => exact handleAll_balanced service visibility settings messages hpolled

end Worker

namespace Redrive

def recordCall (deployment : String) (id : Int) : Except DispatchError HearingResponse → StoreCall
  | .ok _ => .markCompleted id deployment
  | .error e =>
    if e.kind = .undecodablePayload then .markException id deployment
    else .markPendingWithRetry id deployment

def recordOutcome : Except DispatchError HearingResponse → RedriveOutcome
  | .ok _ => .completed
  | .error e => if e.kind = .undecodablePayload then .rejected else .retried

/-- A change of one row cannot fail, so the outcome stands. -/
theorem run_conclude (id : Int) {call : StoreCall} (hcall : marks id call = true)
    (outcome : RedriveOutcome) (o : Observed) :
    (conclude call outcome).run (Observed.handle service visibility) o =
      (o.ask service visibility (.store call), .ok outcome) := by
  cases call with
  | markProcessing | markCompleted | markException | markPendingWithRetry | requeueException => rfl
  | _ => cases hcall

theorem run_record (deployment : String) (id : Int)
    (result : Except DispatchError HearingResponse) (o : Observed) :
    (record deployment id result).run (Observed.handle service visibility) o =
      (o.ask service visibility (.store (recordCall deployment id result)),
        .ok (recordOutcome result)) := by
  cases result with
  | ok response => exact run_conclude service visibility id (by simp [marks]) _ o
  | error e =>
    unfold record recordCall recordOutcome
    dsimp only
    split
    · exact run_conclude service visibility id (by simp [marks]) _ o
    · exact run_conclude service visibility id (by simp [marks]) _ o

/-- The age of a row decides whether it is given up or delivered. -/
theorem run_attempt (settings : SchedulerSettings) (timeout : Time.Span) (r : PendingRequest)
    (o : Observed) :
    (attempt settings timeout r).run (Observed.handle service visibility) o =
      let clocked := o.ask service visibility .clock
      let delivered := (Delivery.deliver timeout r.hearing r.eventType r.message).run
        (Observed.handle service visibility) clocked
      match r.elapsed? settings.exceptionLimit (Time.Instant.ofMillis o.world.now) with
      | none => (clocked, .error .limitOutOfRange)
      | some true =>
        (clocked.ask service visibility (.store (.markException r.id settings.deployment)),
          .ok .expired)
      | some false =>
        (delivered.1.ask service visibility
          (.store (recordCall settings.deployment r.id delivered.2)),
          .ok (recordOutcome delivered.2)) := by
  unfold attempt
  rw [Program.run_bind, Observed.run_clock]
  dsimp only
  cases r.elapsed? settings.exceptionLimit (Time.Instant.ofMillis o.world.now) with
  | none => rfl
  | some overdue =>
    cases overdue with
    | true => exact run_conclude service visibility r.id (by simp [marks]) _ _
    | false =>
      dsimp only
      rw [Program.run_bind, run_record]

theorem recordCall_error_balanced {o : Observed} (h : Balanced none o) (deployment : String)
    (id : Int) (e : DispatchError) :
    Balanced none (o.ask service visibility (.store (recordCall deployment id (.error e)))) := by
  unfold recordCall
  dsimp only
  split
  · exact h.ask_upkeep service visibility (by simp) (fun _ => rfl)
  · exact h.ask_upkeep service visibility (by simp) (fun _ => rfl)

/-- The call of an attempt says what its row says. -/
theorem isFor_of_shows {row : Row} {r : PendingRequest} (hshows : row.Shows r) {l : Ledger}
    (hrow : row ∈ l.rows) (hprocessing : row.is .processing = true) {document : Json.Value}
    (hdoc : Json.parse r.message = .ok document) :
    DownstreamCall.IsFor ⟨r.eventType, r.hearing, document⟩ row l :=
  ⟨hrow, hprocessing, hshows.hearing.symm, hshows.eventType.symm, hshows.message ▸ hdoc⟩

/-- An attempt on a row in progress keeps the balance. -/
theorem attempt_balanced {o : Observed} (h : Balanced none o) (settings : SchedulerSettings)
    (timeout : Time.Span) {row : Row} (hrow : row ∈ o.world.ledger.rows)
    (hprocessing : row.is .processing = true) {r : PendingRequest} (hshows : row.Shows r) :
    Balanced none
      ((attempt settings timeout r).run (Observed.handle service visibility) o).1 := by
  have hclock : Balanced none (o.ask service visibility .clock) := by
    refine h.ask_plain service visibility (by simp) (by simp) ?_
    intro event hevent
    exact absurd hevent (Request.not_completes (by simp) event)
  rw [run_attempt]
  dsimp only
  cases r.elapsed? settings.exceptionLimit (Time.Instant.ofMillis o.world.now) with
  | none => exact hclock
  | some overdue =>
    cases overdue with
    | true => exact hclock.ask_upkeep service visibility (by simp) (fun _ => rfl)
    | false =>
      dsimp only
      cases hdoc : Json.parse r.message with
      | error e =>
        rw [Observed.run_deliver_unreadable service visibility _ _ _ hdoc]
        exact recordCall_error_balanced service visibility hclock _ _ _
      | ok document =>
        have hfor := isFor_of_shows hshows (l := (o.ask service visibility .clock).world.ledger)
          hrow hprocessing hdoc
        rw [Observed.run_deliver service visibility _ _ _ hdoc]
        cases hresult : (o.ask service visibility .clock).resultOf service timeout
            ⟨r.eventType, r.hearing, document⟩ with
        | ok response =>
          rw [hshows.id]
          exact (hclock.attempt_ok service visibility hfor hresult settings.deployment).1
        | error e =>
          exact recordCall_error_balanced service visibility
            (hclock.attempt_error service visibility hfor hresult) _ _ _

end Redrive

/-- A re-drive goes on as the claim has answered. -/
theorem run_redriveNext (settings : SchedulerSettings) (timeout : Time.Span) (o : Observed) :
    (redriveNext settings timeout).run (Observed.handle service visibility) o =
      let claimed := o.ask service visibility
        (.store (.claim settings.pendingWait settings.deployment))
      match (o.world.ledger.step o.world.now
        (.claim settings.pendingWait settings.deployment)).2 with
      | .error e => (claimed, .error (.store e))
      | .ok none => (claimed, .ok .idle)
      | .ok (some r) =>
        (Redrive.attempt settings timeout r).run (Observed.handle service visibility) claimed := by
  unfold redriveNext
  rw [Program.run_bind, Observed.run_store service visibility
    (.claim settings.pendingWait settings.deployment)]
  cases (o.world.ledger.step o.world.now
      (.claim settings.pendingWait settings.deployment)).2 with
  | error e => rfl
  | ok taken => cases taken <;> rfl

theorem redriveNext_balanced (settings : SchedulerSettings) (timeout : Time.Span) {o : Observed}
    (h : Balanced none o) :
    Balanced none
      ((redriveNext settings timeout).run (Observed.handle service visibility) o).1 := by
  have hclaimed : Balanced none (o.ask service visibility
      (.store (.claim settings.pendingWait settings.deployment))) :=
    h.ask_upkeep service visibility (by simp) (fun _ => rfl)
  rw [run_redriveNext]
  dsimp only
  cases hanswer : (o.world.ledger.step o.world.now
      (.claim settings.pendingWait settings.deployment)).2 with
  | error e => exact hclaimed
  | ok claimed =>
    cases claimed with
    | none => exact hclaimed
    | some r =>
      obtain ⟨row, hrow, _, hpass, hread⟩ := row_of_claim hanswer
      exact Redrive.attempt_balanced service visibility hclaimed settings timeout
        (mem_step_of_rowAfter h.wellFormed.ids_increase hrow hpass) (by simp)
        (Row.shows_of_read hread)

theorem Housekeeping.escalate_balanced (settings : SchedulerSettings) {o : Observed}
    (h : Balanced none o) :
    Balanced none
      ((Housekeeping.escalate settings).run (Observed.handle service visibility) o).1 := by
  have hread : Balanced none (o.ask service visibility
      (.store (.escalationCandidates settings.escalationThreshold))) :=
    h.ask_upkeep service visibility (by simp) (fun _ => rfl)
  unfold Housekeeping.escalate
  rw [Program.run_bind, Observed.run_store service visibility
    (.escalationCandidates settings.escalationThreshold)]
  cases (o.world.ledger.step o.world.now
      (.escalationCandidates settings.escalationThreshold)).2 with
  | error e => exact hread
  | ok rows => exact hread.ask_upkeep service visibility (by simp) (fun _ => rfl)

namespace Scheduler

theorem upkeep_balanced (settings : SchedulerSettings) (summary : RunSummary) {o : Observed}
    (h : Balanced none o) :
    Balanced none ((upkeep settings summary).run (Observed.handle service visibility) o).1 := by
  have hescalated := Housekeeping.escalate_balanced service visibility settings h
  unfold upkeep
  rw [Program.run_bind, Program.run_bind, Program.run_bind, Program.run_pure]
  have hdeleted : Balanced none ((Housekeeping.deleteCompleted settings).run
      (Observed.handle service visibility)
        ((Housekeeping.escalate settings).run (Observed.handle service visibility) o).1).1 :=
    hescalated.ask_upkeep service visibility (by simp) (fun _ => rfl)
  exact hdeleted.ask_upkeep service visibility (by simp) (fun _ => rfl)

/-- A run of the scheduler keeps the balance. -/
theorem runOnce_balanced (settings : SchedulerSettings) (timeout : Time.Span) {o : Observed}
    (h : Balanced none o) :
    Balanced none ((runOnce settings timeout).run (Observed.handle service visibility) o).1 := by
  have hredriven := redriveNext_balanced service visibility settings timeout h
  unfold runOnce
  rw [Program.run_bind]
  generalize (redriveNext settings timeout).run (Observed.handle service visibility) o = p
    at hredriven ⊢
  obtain ⟨o', answer⟩ := p
  cases answer with
  | ok outcome =>
    dsimp only
    rw [map_eq_pure_bind, Program.run_bind, Program.run_pure]
    exact upkeep_balanced service visibility settings _ hredriven
  | error e =>
    cases e with
    | store e =>
      dsimp only
      rw [map_eq_pure_bind, Program.run_bind, Program.run_pure]
      exact upkeep_balanced service visibility settings _ hredriven
    | limitOutOfRange => exact hredriven

end Scheduler

end HearingRelay
