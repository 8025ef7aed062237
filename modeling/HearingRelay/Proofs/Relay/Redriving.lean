import HearingRelay.Proofs.Ledger.Claim
import HearingRelay.Proofs.Relay.Agreement
import HearingRelay.Proofs.Relay.Rounds

/-!
What one re-drive does. It takes the row that is next, if there is one, and
attempts it once. How the attempt ends is told alike by the outcome, by the row
and by the calls: a row past the exception limit and a row that is not JSON are
given up without a call, and of a call that is made only the result counts.
-/

namespace HearingRelay

open Ledger

namespace Redrive

def Overdue (limit : Time.Span) (now : Int) (row : Row) : Prop :=
  row.submitted * 1000000 < now * 1000000 - limit.nanos

instance (limit : Time.Span) (now : Int) (row : Row) : Decidable (Overdue limit now row) :=
  inferInstanceAs (Decidable (_ < _))

def CalledOnce (service : Service) (timeout : Time.Span) (before : World) (row : Row)
    (calls : List (DownstreamCall × Option CallResult)) (result : CallResult) : Prop :=
  ∃ eventType document, EventType.name eventType = row.eventType ∧
    Json.parse row.message = .ok document ∧
    calls = [(⟨eventType, row.hearing, document⟩,
      service before.calls ⟨eventType, row.hearing, document⟩)] ∧
    Delivery.resultWithin timeout (service before.calls ⟨eventType, row.hearing, document⟩) = result

/-- What an outcome says of the row that was taken, of the calls, and of the
surroundings afterwards. Without a call only the ledger has changed, so nothing
is published. -/
def Agrees (service : Service) (settings : SchedulerSettings) (timeout : Time.Span)
    (before : World) (row : Row) (after : World)
    (calls : List (DownstreamCall × Option CallResult)) : RedriveOutcome → Prop
  | .idle => False
  | .expired => Overdue settings.exceptionLimit before.now row ∧
      calls = [] ∧ after = { before with ledger := after.ledger } ∧
      after.ledger.row? row.id = some (finish .exception before.now settings.deployment
        (begin before.now settings.deployment row))
  | .rejected => ¬ Overdue settings.exceptionLimit before.now row ∧
      (∃ e, Json.parse row.message = .error e) ∧
      calls = [] ∧ after = { before with ledger := after.ledger } ∧
      after.ledger.row? row.id = some (finish .exception before.now settings.deployment
        (begin before.now settings.deployment row))
  | .completed => ¬ Overdue settings.exceptionLimit before.now row ∧
      (∃ response, CalledOnce service timeout before row calls (.ok response)) ∧
      after.ledger.row? row.id = some (finish .completed before.now settings.deployment
        (begin before.now settings.deployment row))
  | .retried => ¬ Overdue settings.exceptionLimit before.now row ∧
      (∃ e, CalledOnce service timeout before row calls (.error e)) ∧
      after.ledger.row? row.id = some (retry before.now settings.deployment
        (begin before.now settings.deployment row))

section Agreement

variable {service : Service} {settings : SchedulerSettings} {timeout : Time.Span}
  {before after : World} {row : Row} {calls : List (DownstreamCall × Option CallResult)}
  {outcome other : RedriveOutcome}

theorem CalledOnce.length_eq {result : CallResult}
    (h : CalledOnce service timeout before row calls result) : calls.length = 1 := by
  obtain ⟨_, _, _, _, rfl, _⟩ := h
  rfl

theorem Agrees.length_le (h : Agrees service settings timeout before row after calls outcome) :
    calls.length ≤ 1 := by
  cases outcome with
  | idle => exact h.elim
  | expired =>
    obtain ⟨_, rfl, _⟩ := h
    exact Nat.zero_le 1
  | rejected =>
    obtain ⟨_, _, rfl, _⟩ := h
    exact Nat.zero_le 1
  | completed =>
    obtain ⟨_, ⟨_, hcalled⟩, _⟩ := h
    exact Nat.le_of_eq hcalled.length_eq
  | retried =>
    obtain ⟨_, ⟨_, hcalled⟩, _⟩ := h
    exact Nat.le_of_eq hcalled.length_eq

def status : RedriveOutcome → Status
  | .idle | .retried => .pending
  | .completed => .completed
  | .expired | .rejected => .exception

theorem Agrees.exists_row (h : Agrees service settings timeout before row after calls outcome) :
    ∃ final, after.ledger.row? row.id = some final ∧ final.is (status outcome) = true := by
  cases outcome with
  | idle => exact h.elim
  | expired => exact ⟨_, h.2.2.2, by simp [status]⟩
  | rejected => exact ⟨_, h.2.2.2.2, by simp [status]⟩
  | completed => exact ⟨_, h.2.2, by simp [status]⟩
  | retried => exact ⟨_, h.2.2, by simp [status]⟩

theorem Agrees.overdue_iff (h : Agrees service settings timeout before row after calls outcome) :
    Overdue settings.exceptionLimit before.now row ↔ outcome = .expired := by
  cases outcome with
  | idle => exact h.elim
  | expired => exact iff_of_true h.1 rfl
  | rejected => exact iff_of_false h.1 (by simp)
  | completed => exact iff_of_false h.1 (by simp)
  | retried => exact iff_of_false h.1 (by simp)

/-- The age of the row and its final status tell the outcome. -/
theorem Agrees.unique (h : Agrees service settings timeout before row after calls outcome)
    (h' : Agrees service settings timeout before row after calls other) : other = outcome := by
  obtain ⟨final, hfinal, hstatus⟩ := h.exists_row
  obtain ⟨final', hfinal', hstatus'⟩ := h'.exists_row
  obtain rfl : final = final' := Option.some.inj (hfinal.symm.trans hfinal')
  have hsame : status other = status outcome := Row.status_unique hstatus' hstatus
  have hexpired : other = .expired ↔ outcome = .expired := h'.overdue_iff.symm.trans h.overdue_iff
  cases outcome with
  | idle => exact h.elim
  | expired => exact hexpired.mpr rfl
  | rejected | completed | retried =>
    cases other with
    | idle => exact h'.elim
    | expired => cases hexpired.mp rfl
    | rejected | completed | retried => first | rfl | cases hsame

end Agreement

structure Leaves (service : Service) (settings : SchedulerSettings) (timeout : Time.Span)
    (before : World) (row : Row) (ended : Observed × Except SchedulerError RedriveOutcome) :
    Prop where
  /-- No other row has changed. -/
  lastId : ended.1.world.ledger.lastId = before.ledger.lastId
  others : ended.1.world.ledger.rows.filter (·.id != row.id) =
    before.ledger.rows.filter (·.id != row.id)
  /-- No row is in progress that was not. -/
  processing : ∀ q ∈ ended.1.world.ledger.rows, q.is .processing = true → q ∈ before.ledger.rows
  outcome : ∃ outcome, ended.2 = .ok outcome ∧
    Agrees service settings timeout before row ended.1.world (callsIn ended.1.trace) outcome

section Attempt

variable {service : Service} {visibility : Nat} {settings : SchedulerSettings}
  {timeout : Time.Span} {w : World} {row : Row} (hwf : w.ledger.WellFormed)
  (hnext : w.ledger.IsNext w.now settings.pendingWait row)
include hwf hnext

/-- After the claim one call records how the attempt ended. -/
theorem leaves_of_agrees {o : Observed} {c : StoreCall} (hc : marks row.id c = true) {final : Row}
    (hfinal : ∀ l, Ledger.rowAfter l w.now c (begin w.now settings.deployment row) = some final)
    (hrest : final.is .processing = false)
    (hledger : o.world.ledger =
      ((w.ledger.step w.now (.claim settings.pendingWait settings.deployment)).1.step w.now c).1)
    {outcome : RedriveOutcome} (hagrees : o.world.ledger.row? row.id = some final →
      Agrees service settings timeout w row o.world (callsIn o.trace) outcome) :
    Leaves service settings timeout w row (o, .ok outcome) := by
  obtain ⟨hwf', hlastId, hothers, hrow⟩ := hnext.settled hwf settings.deployment hc hfinal
  rw [← hledger] at hwf' hlastId hothers hrow
  obtain ⟨hmem, hid⟩ := mem_of_row? hrow
  refine ⟨hlastId, hothers, ?_, outcome, rfl, hagrees hrow⟩
  exact mem_of_processing hwf'.ids_increase (hid ▸ hothers) hmem hrest

section Ends

variable {o : Observed} (hworld : o.world = { w with
  ledger := (w.ledger.step w.now (.claim settings.pendingWait settings.deployment)).1 })
  (hcalls : callsIn o.trace = []) {outcome : RedriveOutcome}
include hworld hcalls

/-- Without a call the row becomes an exception, and nothing but the ledger changes. -/
theorem givenUp_leaves (hagrees : ∀ after : World, after = { w with ledger := after.ledger } →
      after.ledger.row? row.id = some (finish .exception w.now settings.deployment
        (begin w.now settings.deployment row)) →
      Agrees service settings timeout w row after [] outcome) :
    Leaves service settings timeout w row ((o.ask service visibility .clock).ask service
      visibility (.store (.markException row.id settings.deployment)), .ok outcome) := by
  have hprocessing : (begin w.now settings.deployment row).is .processing = true := by simp
  have htrace : callsIn ((o.ask service visibility .clock).ask service visibility
      (.store (.markException row.id settings.deployment))).trace = [] := hcalls
  refine leaves_of_agrees hwf hnext (c := .markException row.id settings.deployment)
    (by simp [marks]) (fun _ => rowAfter_markException hprocessing) (by simp) ?_ fun hrow => ?_
  · rw [Observed.ask_store_ledger, Observed.ask_clock_world, hworld]
  · rw [htrace]
    refine hagrees _ ?_ hrow
    rw [Observed.ask_store_world, Observed.ask_clock_world, hworld]

/-- With a call the row becomes what is recorded of the result. -/
theorem called_leaves (call : DownstreamCall) {c : StoreCall} (hc : marks row.id c = true)
    {final : Row}
    (hfinal : ∀ l, Ledger.rowAfter l w.now c (begin w.now settings.deployment row) = some final)
    (hrest : final.is .processing = false) (hagrees : ∀ after : World,
      after.ledger.row? row.id = some final →
      Agrees service settings timeout w row after [(call, service w.calls call)] outcome) :
    Leaves service settings timeout w row (((o.ask service visibility .clock).called service
      visibility timeout call).ask service visibility (.store c), .ok outcome) := by
  have htrace : callsIn (((o.ask service visibility .clock).called service visibility timeout
      call).ask service visibility (.store c)).trace = [(call, service w.calls call)] := by
    refine (Observed.callsIn_called service visibility _ timeout call).trans ?_
    rw [Observed.ask_clock_world, hworld]
    exact congrArg _ hcalls
  refine leaves_of_agrees hwf hnext hc hfinal hrest ?_ fun hrow => ?_
  · rw [Observed.ask_store_ledger, Observed.called_ledger, Observed.called_now,
      Observed.ask_clock_world, hworld]
  · rw [htrace]
    exact hagrees _ hrow

end Ends

/-- However an attempt ends, its row, its calls and its outcome agree. -/
theorem attempt_leaves (hlimit : Time.Instant.Measures settings.exceptionLimit w.now)
    {r : PendingRequest} (hread : (begin w.now settings.deployment row).read = .ok r)
    {o : Observed} (hworld : o.world = { w with
      ledger := (w.ledger.step w.now (.claim settings.pendingWait settings.deployment)).1 })
    (hcalls : callsIn o.trace = []) :
    Leaves service settings timeout w row
      ((attempt settings timeout r).run (Observed.handle service visibility) o) := by
  have hshows := Row.shows_of_read hread
  obtain ⟨hsubmitted, hdate, hreading⟩ := Row.dates_of_check (Row.check_of_read hread)
  have hid : r.id = row.id := hshows.id
  have hmessage : r.message = row.message := hshows.message
  have hhearing : r.hearing = row.hearing := hshows.hearing
  have hprocessing : (begin w.now settings.deployment row).is .processing = true := by simp
  have helapsed : r.elapsed? settings.exceptionLimit (Time.Instant.ofMillis o.world.now) =
      some (decide (Overdue settings.exceptionLimit w.now row)) := by
    unfold PendingRequest.elapsed?
    rw [hdate, hworld]
    exact Time.Instant.elapsed?_ofMillis hsubmitted (hreading w.now rfl) hlimit
  rw [run_attempt, helapsed]
  dsimp only
  by_cases hoverdue : Overdue settings.exceptionLimit w.now row
  · rw [decide_eq_true hoverdue, hid]
    exact givenUp_leaves hwf hnext hworld hcalls fun after hafter hrow =>
      ⟨hoverdue, rfl, hafter, hrow⟩
  · rw [decide_eq_false hoverdue, hid]
    dsimp only
    cases hdoc : Json.parse r.message with
    | error e =>
      rw [Observed.run_deliver_unreadable service visibility _ _ _ hdoc]
      exact givenUp_leaves hwf hnext hworld hcalls fun after hafter hrow =>
        ⟨hoverdue, ⟨e, hmessage ▸ hdoc⟩, rfl, hafter, hrow⟩
    | ok document =>
      have hcalled : ∀ result, (o.ask service visibility .clock).resultOf service timeout
          ⟨r.eventType, r.hearing, document⟩ = result → CalledOnce service timeout w row
            [(⟨r.eventType, r.hearing, document⟩,
              service w.calls ⟨r.eventType, r.hearing, document⟩)] result := by
        intro result hresult
        unfold Observed.resultOf at hresult
        rw [Observed.ask_clock_world, hworld] at hresult
        rw [hhearing] at hresult ⊢
        exact ⟨r.eventType, document, hshows.eventType, hmessage ▸ hdoc, rfl, hresult⟩
      rw [Observed.run_deliver service visibility _ _ _ hdoc]
      cases hresult : (o.ask service visibility .clock).resultOf service timeout
          ⟨r.eventType, r.hearing, document⟩ with
      | ok response =>
        simp only [Except.mapError, recordCall, recordOutcome]
        exact called_leaves hwf hnext hworld hcalls _ (by simp [marks])
          (fun _ => rowAfter_markCompleted hprocessing) (by simp) fun after hrow =>
            ⟨hoverdue, ⟨response, hcalled _ hresult⟩, hrow⟩
      | error e =>
        have hkind : (DispatchError.downstream e).kind ≠ .undecodablePayload := by
          cases e <;> simp [DispatchError.kind, DownstreamError.kind]
        simp only [Except.mapError, recordCall, recordOutcome, if_neg hkind]
        exact called_leaves hwf hnext hworld hcalls _ (by simp [marks])
          (fun _ => rowAfter_markPendingWithRetry hprocessing) (by simp) fun after hrow =>
            ⟨hoverdue, ⟨e, hcalled _ hresult⟩, hrow⟩

end Attempt

/-- Where nothing is eligible a re-drive asks for a row, and that changes nothing. -/
theorem run_redriveNext_of_none (service : Service) (visibility : Nat)
    (settings : SchedulerSettings) (timeout : Time.Span) {o : Observed}
    (hnone : ∀ row, ¬ o.world.ledger.Eligible o.world.now settings.pendingWait row) :
    let claimed := o.ask service visibility
      (.store (.claim settings.pendingWait settings.deployment))
    (redriveNext settings timeout).run (Observed.handle service visibility) o =
      (claimed, .ok .idle) ∧ claimed.world = o.world := by
  intro claimed
  have hclaim := claim_of_none hnone settings.deployment
  constructor
  · rw [run_redriveNext, hclaim]
  · unfold claimed
    rw [Observed.ask_store_world, hclaim]

section Next

variable {service : Service} {visibility : Nat} {settings : SchedulerSettings}
  {timeout : Time.Span} {w : World}

/-- Where nothing is eligible the claim is all that happens, and it changes nothing. -/
theorem run_redriveNext_idle (hnone : ∀ row, ¬ w.ledger.Eligible w.now settings.pendingWait row) :
    let ended := (redriveNext settings timeout).run (Observed.handle service visibility) (.start w)
    ended.2 = .ok .idle ∧ ended.1.world = w ∧ callsIn ended.1.trace = [] := by
  intro ended
  obtain ⟨hrun, hworld⟩ :=
    run_redriveNext_of_none service visibility settings timeout (o := .start w) hnone
  have hended : ended = _ := hrun
  rw [hended]
  exact ⟨rfl, hworld, rfl⟩

/-- The row that is next is attempted, unless it cannot be read. -/
theorem redriveNext_leaves (hwf : w.ledger.WellFormed)
    (hlimit : Time.Instant.Measures settings.exceptionLimit w.now)
    (hstore : ∀ x ∈ ((redriveNext settings timeout).run (Observed.handle service visibility)
      (.start w)).1.trace, x.storeFails = false)
    {row : Row} (hnext : w.ledger.IsNext w.now settings.pendingWait row) :
    Leaves service settings timeout w row
      ((redriveNext settings timeout).run (Observed.handle service visibility) (.start w)) := by
  have hanswer : ((Observed.start w).world.ledger.step (Observed.start w).world.now
      (.claim settings.pendingWait settings.deployment)).2 =
        (begin w.now settings.deployment row).read.map some :=
    congrArg Prod.snd (claim_of_isNext hwf.ids_increase hnext settings.deployment)
  have hrun := run_redriveNext service visibility settings timeout (.start w)
  rw [hanswer] at hrun
  cases hread : (begin w.now settings.deployment row).read with
  | error e =>
    rw [hread] at hanswer hrun
    have hfails := Observed.storeFails_exchange service visibility hanswer
    rw [hrun] at hstore
    rw [hstore _ List.mem_cons_self] at hfails
    cases hfails
  | ok r =>
    rw [hread] at hrun
    rw [hrun]
    exact attempt_leaves hwf hnext hlimit hread
      (Observed.ask_store_world service visibility (.start w) _) rfl

end Next

/-- What a re-drive does to every ledger that calls of the store lead to, for
every reading at which the exception limit can be measured and every answer of
the service, if the store does not fail. It is idle exactly when no row is
eligible, and then nothing changes and nobody is called. Otherwise it attempts
the row that is next: no other row changes, one call is made at most, no row is
left in progress that was not, and exactly one outcome agrees with the row and
the calls, which is the one it ends with. -/
theorem redrive_outcome_agrees (service : Service) (visibility : Nat)
    (settings : SchedulerSettings) (timeout : Time.Span) (w : World)
    (history : List (Int × StoreCall)) (hreachable : w.ledger = Ledger.empty.after history)
    (hlimit : Time.Instant.Measures settings.exceptionLimit w.now)
    (hstore : ∀ x ∈ ((redriveNext settings timeout).run (Observed.handle service visibility)
      (.start w)).1.trace, x.storeFails = false) :
    let ended := (redriveNext settings timeout).run (Observed.handle service visibility) (.start w)
    let after := ended.1.world
    let calls := callsIn ended.1.trace
    (ended.2 = .ok .idle ↔ ∀ row, ¬ w.ledger.Eligible w.now settings.pendingWait row) ∧
      (ended.2 = .ok .idle → after = w ∧ calls = []) ∧
      ((∃ row, w.ledger.Eligible w.now settings.pendingWait row) →
        ∃ row, w.ledger.IsNext w.now settings.pendingWait row ∧
          after.ledger.lastId = w.ledger.lastId ∧
          after.ledger.rows.filter (·.id != row.id) = w.ledger.rows.filter (·.id != row.id) ∧
          calls.length ≤ 1 ∧
          (∀ q ∈ after.ledger.rows, q.is .processing = true → q ∈ w.ledger.rows) ∧
          ∃ outcome, ended.2 = .ok outcome ∧ ∀ other,
            Agrees service settings timeout w row after calls other ↔ other = outcome) := by
  intro ended after calls
  have hwf : w.ledger.WellFormed := hreachable ▸ after_wellFormed empty_wellFormed history
  have hidle : ended.2 = .ok .idle ↔
      ∀ row, ¬ w.ledger.Eligible w.now settings.pendingWait row := by
    refine ⟨fun hended row hrow => ?_, fun hnone => (run_redriveNext_idle hnone).1⟩
    obtain ⟨q, hnext⟩ := exists_isNext hwf.ids_increase ⟨row, hrow⟩
    obtain ⟨outcome, houtcome, hagrees⟩ := (redriveNext_leaves hwf hlimit hstore hnext).outcome
    obtain rfl := Except.ok.inj (hended.symm.trans houtcome)
    exact hagrees.elim
  refine ⟨hidle, fun hended => (run_redriveNext_idle (hidle.mp hended)).2, fun heligible => ?_⟩
  obtain ⟨row, hnext⟩ := exists_isNext hwf.ids_increase heligible
  have hleaves := redriveNext_leaves hwf hlimit hstore hnext
  obtain ⟨outcome, houtcome, hagrees⟩ := hleaves.outcome
  refine ⟨row, hnext, hleaves.lastId, hleaves.others, hagrees.length_le, hleaves.processing,
    outcome, houtcome, fun other => ⟨hagrees.unique, ?_⟩⟩
  rintro rfl
  exact hagrees

/-- An event that has failed once, and one of another hearing that came later. -/
def onceFailed : List (Int × StoreCall) :=
  [(0, .create 1 .request "\x7b\x7d" "local"), (3, .create 2 .amend "[]" "local"),
    (5, .markProcessing 1 "local"), (9, .markPendingWithRetry 1 "local")]

def shortWaits : SchedulerSettings :=
  { runInterval := .ofMillis 100, pendingWait := .ofMillis 10, exceptionLimit := .ofMillis 50,
    escalationThreshold := .ofMillis 100, retention := .ofMillis 1000,
    processingTimeout := .ofMillis 100, deployment := "local" }

/-- The event that has failed is tried once more, and its call times out. -/
def secondTry : Observed × Except SchedulerError RedriveOutcome :=
  (redriveNext shortWaits (.ofMillis 20)).run (Observed.handle (fun _ _ => none) 30)
    (.start { World.empty 20 with ledger := Ledger.empty.after onceFailed })

theorem secondTry_agrees :
    Time.Instant.Measures shortWaits.exceptionLimit 20 ∧
      (∀ x ∈ secondTry.1.trace, x.storeFails = false) ∧
      ∃ row, (Ledger.empty.after onceFailed).IsNext 20 shortWaits.pendingWait row ∧
        (callsIn secondTry.1.trace).length ≤ 1 ∧
        ∃ outcome, secondTry.2 = .ok outcome ∧ ∀ other,
          Agrees (fun _ _ => none) shortWaits (.ofMillis 20)
            { World.empty 20 with ledger := Ledger.empty.after onceFailed } row
            secondTry.1.world (callsIn secondTry.1.trace) other ↔ other = outcome := by
  have hlimit : Time.Instant.Measures shortWaits.exceptionLimit 20 := Or.inr (by decide)
  have hstore : ∀ x ∈ secondTry.1.trace, x.storeFails = false := by decide +kernel
  have hagrees := redrive_outcome_agrees (fun _ _ => none) 30 shortWaits (.ofMillis 20)
    { World.empty 20 with ledger := Ledger.empty.after onceFailed } onceFailed rfl hlimit
    hstore
  have heligible : ∃ row, (Ledger.empty.after onceFailed).Eligible 20 shortWaits.pendingWait
      row := by
    refine ⟨_, eligible_iff.mpr ⟨List.mem_cons_self, ?_⟩⟩
    decide +kernel
  obtain ⟨row, hnext, _, _, hcalls, _, houtcome⟩ := hagrees.2.2 heligible
  exact ⟨hlimit, hstore, row, hnext, hcalls, houtcome⟩

end Redrive

end HearingRelay
