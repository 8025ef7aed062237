import HearingRelay.Proofs.Ledger.LifeCycle
import HearingRelay.Proofs.Relay.Course

/-!
The fate of a message and the fate of its row agree. A dispatch of an event
that meets no failure of the store makes one call at most and changes one row
at most, which carries the event. What became of the row can be read off the
disposition of the message and the call, and the other way round.
-/

namespace HearingRelay

open Ledger

structure Ledger.Changes (event : Dispatch.Event) (id : Int) (l l' : Ledger) : Prop where
  others : l'.rows.filter (·.id != id) = l.rows.filter (·.id != id)
  before : ∀ row ∈ l.rows, row.id = id → row.carries event = true
  after : ∀ row ∈ l'.rows, row.id = id → row.carries event = true

namespace Dispatch

inductive Fate where
  | delivered
  /-- Nothing was attempted, because a row stands for the event already. -/
  | held
  | retried
  | givenUp
deriving DecidableEq

def Fate.shown : Disposition → List (DownstreamCall × Option CallResult) → Fate
  | .complete, [] => .held
  | .complete, _ => .delivered
  | .retry, _ => .retried
  | .deadLetter .., _ => .givenUp

variable (settings : DispatchSettings) (event : Event) (deliveryCount : Nat)

def CalledOnce (calls : List (DownstreamCall × Option CallResult)) (result : CallResult) : Prop :=
  ∃ document answer, Json.parse event.body = .ok document ∧
    calls = [(event.call document, answer)] ∧ Delivery.resultWithin settings.timeout answer = result

def Fate.Holds (id : Int) (before after : Ledger) (disposition : Disposition)
    (calls : List (DownstreamCall × Option CallResult)) : Fate → Prop
  | .delivered => disposition = .complete ∧
      (∃ response, CalledOnce settings event calls (.ok response)) ∧
      ∃ row ∈ after.rows, row.id = id ∧ row.is .completed = true
  | .held => disposition = .complete ∧ calls = [] ∧
      ∃ row ∈ after.rows, row.id = id ∧ (row.is .pending = true ∨ row.is .processing = true ∨
        (row.is .completed = true ∧ after.latest? event.key.hearing = some row))
  | .retried => disposition = .retry ∧ deliveryCount < settings.maxDeliveries ∧
      (∃ e, CalledOnce settings event calls (.error e) ∧ e.kind.isRetryable = true) ∧
      ∃ row ∈ after.rows, row.id = id ∧ row.is .pending = true ∧
        row.retryCount = before.retriesOf id + 1
  | .givenUp => settings.maxDeliveries ≤ deliveryCount ∧
      (∃ e, CalledOnce settings event calls (.error e) ∧
        disposition = .deadLetter e.kind.reason
          (deadLetterDescription event.body (DispatchError.downstream e).message)) ∧
      ∃ row ∈ after.rows, row.id = id ∧ row.is .exception = true ∧
        row.retryCount = before.retriesOf id

section Holds

variable {settings event deliveryCount} {id : Int} {before after : Ledger}
  {disposition : Disposition} {calls : List (DownstreamCall × Option CallResult)} {fate : Fate}

theorem Fate.Holds.eq_shown
    (h : fate.Holds settings event deliveryCount id before after disposition calls) :
    fate = Fate.shown disposition calls := by
  cases fate with
  | delivered =>
    obtain ⟨rfl, ⟨_, _, _, _, rfl, _⟩, _⟩ := h
    rfl
  | held =>
    obtain ⟨rfl, rfl, _⟩ := h
    rfl
  | retried =>
    obtain ⟨rfl, _⟩ := h
    rfl
  | givenUp =>
    obtain ⟨_, ⟨_, _, rfl⟩, _⟩ := h
    rfl

theorem CalledOnce.length_eq {result : CallResult} (h : CalledOnce settings event calls result) :
    calls.length = 1 := by
  obtain ⟨_, _, _, rfl, _⟩ := h
  rfl

theorem Fate.Holds.length_le
    (h : fate.Holds settings event deliveryCount id before after disposition calls) :
    calls.length ≤ 1 := by
  cases fate with
  | delivered =>
    obtain ⟨_, ⟨_, hcalled⟩, _⟩ := h
    exact Nat.le_of_eq hcalled.length_eq
  | held =>
    obtain ⟨_, rfl, _⟩ := h
    exact Nat.zero_le 1
  | retried =>
    obtain ⟨_, _, ⟨_, hcalled, _⟩, _⟩ := h
    exact Nat.le_of_eq hcalled.length_eq
  | givenUp =>
    obtain ⟨_, ⟨_, hcalled, _⟩, _⟩ := h
    exact Nat.le_of_eq hcalled.length_eq

end Holds

structure Agrees (id : Int) (before after : Ledger) (disposition : Disposition)
    (calls : List (DownstreamCall × Option CallResult)) : Prop where
  changes : before.Changes event id after
  fate : ∃ fate : Fate,
    fate.Holds settings event deliveryCount id before after disposition calls
  /-- No row is left in progress that was not. -/
  processing : ∀ row ∈ after.rows, row.is .processing = true → row ∈ before.rows

end Dispatch

namespace Ledger.Changes

variable {event : Dispatch.Event} {id : Int} {l l' : Ledger}

theorem refl (hinc : l.IdsIncrease) {row : Row} (hrow : row ∈ l.rows)
    (hcarries : row.carries event = true) : l.Changes event row.id l := by
  have hall : ∀ q ∈ l.rows, q.id = row.id → q.carries event = true := by
    intro q hq hid
    rw [eq_of_id_eq hinc hq hrow hid]
    exact hcarries
  exact ⟨rfl, hall, hall⟩

theorem step (h : l.Changes event id l') (hinc : l'.IdsIncrease) {c : StoreCall}
    (hc : marks id c = true) (now : Int) : l.Changes event id (l'.step now c).1 := by
  refine ⟨?_, h.before, ?_⟩
  · rw [← h.others]
    exact filter_step_rows_of_marks hinc hc
  · intro q hq hid
    rcases (mem_step_rows hinc).mp hq with ⟨r, hr, hpass⟩ | hnew
    · have hsame := (passage_of_rowAfter hpass).sameEvent
      rw [hsame.carries event]
      exact h.after r hr (hsame.id.symm.trans hid)
    · rw [added_of_marks hc] at hnew
      cases hnew

/-- When the changed row is not in progress, no other row has come into progress. -/
theorem processing (h : l.Changes event id l') (hinc : l'.IdsIncrease) {row : Row}
    (hrow : row ∈ l'.rows) (hid : row.id = id) (hrest : row.is .processing = false) :
    ∀ q ∈ l'.rows, q.is .processing = true → q ∈ l.rows := by
  subst hid
  exact mem_of_processing hinc h.others hrow hrest

end Ledger.Changes

namespace Dispatch

variable {service : Service} {visibility : Nat} {settings : DispatchSettings} {event : Event}
  {o o' : Observed} {row : Row}

theorem callsIn_readied (h : Readied service visibility settings event o row o') :
    callsIn o'.trace = callsIn o.trace := by
  cases h <;> rfl

/-- Making a row ready changes that row only, and no count of failures. -/
theorem Readied.changes (h : Readied service visibility settings event o row o')
    (hwf : o.world.ledger.WellFormed) :
    o.world.ledger.Changes event row.id o'.world.ledger ∧
      row.retryCount = o.world.ledger.retriesOf row.id := by
  have hinc := hwf.ids_increase
  cases h with
  | waiting row hrow hcarries =>
    refine ⟨.refl hinc hrow hcarries, ?_⟩
    simp [Ledger.retriesOf, row?_of_mem hinc hrow]
  | replayed r hrow hcarries =>
    refine ⟨(Ledger.Changes.refl hinc hrow hcarries).step hinc (by simp [marks]) _, ?_⟩
    simp [Ledger.retriesOf, requeue, row?_of_mem hinc hrow]
  | created hsettles hspace =>
    have hready : Readied service visibility settings event o _ _ := .created hsettles hspace
    obtain ⟨hnew, hcarries, _⟩ := hready.row service visibility settings event hwf
    have hinc' := (hready.wellFormed service visibility settings event hwf).ids_increase
    have hnone := row?_of_lastId_lt hwf (Int.lt_succ o.world.ledger.lastId)
    have hfresh := row?_eq_none hnone
    refine ⟨⟨?_, ?_, ?_⟩, ?_⟩
    · exact filter_step_rows (c := event.creation settings.deployment) hinc (fun r _ _ => rfl)
        (fun q hq => (added_spec hq).1)
    · intro r hr hid
      exact absurd hid (hfresh r hr)
    · intro q hq hid
      rw [eq_of_id_eq hinc' hq hnew hid]
      exact hcarries
    · simp [Ledger.retriesOf, Event.newRow, Ledger.newRow, hnone]

/-- A lookup that fails shows it in the record. -/
theorem Found.storeFails {e : StoreError}
    (h : Found service visibility settings event o (.error e) o') :
    ∃ x ∈ o'.trace, x.storeFails = true := by
  cases h with
  | unread e he =>
    exact ⟨_, List.mem_cons_self, Observed.storeFails_exchange service visibility
      (c := .rowsOfHearing event.key.hearing) he⟩
  | refused e hsettles he =>
    exact ⟨_, List.mem_cons_self, Observed.storeFails_exchange service visibility
      (o := looked service visibility event o) (c := event.creation settings.deployment) he⟩

theorem marks_failureCall (settings : DispatchSettings) (id : Int) (deliveryCount : Nat)
    (e : DispatchError) : marks id (failureCall settings id deliveryCount e) = true := by
  unfold failureCall
  split <;> simp [marks]

/-- A row was taken, called for, and the outcome recorded: it is what the
recording call makes of it, and no other row has changed. -/
theorem Readied.recorded (h : Readied service visibility settings event o row o')
    (hwf : o.world.ledger.WellFormed) (hfree : o'.world.ledger.isBlocked row = false)
    (call : DownstreamCall) {c : StoreCall} (hc : marks row.id c = true) {final : Row}
    (hfinal : ∀ l, Ledger.rowAfter l ((asked service visibility settings o' row).called service
      visibility settings.timeout call).world.now c (begin o'.world.now settings.deployment row) =
        some final) :
    let after := (((asked service visibility settings o' row).called service visibility
      settings.timeout call).ask service visibility (.store c)).world.ledger
    o.world.ledger.Changes event row.id after ∧ after.IdsIncrease ∧ final ∈ after.rows := by
  intro after
  have hwf' := h.wellFormed service visibility settings event hwf
  have htaken := h.taken service visibility settings event hwf hfree
  have hasked := step_wellFormed hwf' o'.world.now (.markProcessing row.id settings.deployment)
  have hchanges : o.world.ledger.Changes event row.id
      (asked service visibility settings o' row).world.ledger :=
    (h.changes hwf).1.step hwf'.ids_increase (by simp [marks]) _
  have hafter : after = ((asked service visibility settings o' row).world.ledger.step
      ((asked service visibility settings o' row).called service visibility settings.timeout
        call).world.now c).1 := by
    rw [← Observed.called_ledger service visibility (asked service visibility settings o' row)
      settings.timeout call]
    rfl
  rw [hafter]
  exact ⟨hchanges.step hasked.ids_increase hc _, (step_wellFormed hasked _ c).ids_increase,
    mem_step_of_rowAfter hasked.ids_increase htaken (hfinal _)⟩

/-- Every failure of a call may end differently another time. -/
theorem isRetryable_downstream (e : DownstreamError) : e.kind.isRetryable = true := by
  cases e <;> rfl

theorem willRetry_downstream (settings : DispatchSettings) (deliveryCount : Nat)
    (e : DownstreamError) :
    willRetry settings e.kind deliveryCount = decide (deliveryCount < settings.maxDeliveries) := by
  simp [willRetry, isRetryable_downstream]

theorem callsIn_recorded (h : Readied service visibility settings event o row o')
    (hstart : callsIn o.trace = []) (timeout : Time.Span) (call : DownstreamCall) (c : StoreCall) :
    callsIn (((asked service visibility settings o' row).called service visibility timeout
      call).ask service visibility (.store c)).trace =
        [(call, service (asked service visibility settings o' row).world.calls call)] := by
  change callsIn ((asked service visibility settings o' row).called service visibility timeout
    call).trace = _
  rw [Observed.callsIn_called]
  change _ :: callsIn o'.trace = _
  rw [callsIn_readied h, hstart]

/-- Whatever course a dispatch takes, if the store did not fail, the fates agree. -/
theorem Course.agrees {document : Json.Value} {deliveryCount : Nat}
    {result : Except DispatchError Outcome}
    (hcourse : Course service visibility settings event document deliveryCount o result o')
    (hwf : o.world.ledger.WellFormed) (hdoc : Json.parse event.body = .ok document)
    (hstart : callsIn o.trace = []) (hstore : ∀ x ∈ o'.trace, x.storeFails = false) :
    ∃ id, Agrees settings event deliveryCount id o.world.ledger o'.world.ledger
      (conclusion settings event.body deliveryCount result) (callsIn o'.trace) := by
  have hinc := hwf.ids_increase
  cases hcourse with
  | failed e o' hfound =>
    obtain ⟨x, hx, hfails⟩ := hfound.storeFails
    rw [hstore x hx] at hfails
    cases hfails
  | duplicate r o' hfound =>
    obtain ⟨⟩ | ⟨row, _, hrow, hcarries, hcompleted, hlatest⟩ | ⟨⟩ | ⟨⟩ | ⟨⟩ := hfound
    refine ⟨row.id, .refl hinc hrow hcarries, ⟨.held, rfl, hstart, ?_⟩, fun q hq _ => hq⟩
    exact ⟨row, hrow, rfl, Or.inr (Or.inr ⟨hcompleted, hlatest⟩)⟩
  | underway r o' hfound =>
    obtain ⟨⟩ | ⟨⟩ | ⟨row, _, hrow, hcarries, hprocessing⟩ | ⟨⟩ | ⟨⟩ := hfound
    refine ⟨row.id, .refl hinc hrow hcarries, ⟨.held, rfl, hstart, ?_⟩, fun q hq _ => hq⟩
    exact ⟨row, hrow, rfl, Or.inr (Or.inl hprocessing)⟩
  | held row o₁ hready hblocked =>
    obtain ⟨hrow, _, hpending⟩ := hready.row service visibility settings event hwf
    have hwf₁ := hready.wellFormed service visibility settings event hwf
    have hchanges : o.world.ledger.Changes event row.id
        (asked service visibility settings o₁ row).world.ledger :=
      (hready.changes hwf).1.step hwf₁.ids_increase (by simp [marks]) _
    have hstill : row ∈ (asked service visibility settings o₁ row).world.ledger.rows := by
      refine mem_step_of_rowAfter hwf₁.ids_increase hrow ?_
      simp [rowAfter, Row.changeIf, hblocked]
    refine ⟨row.id, hchanges, ⟨.held, rfl, ?_, ?_⟩, ?_⟩
    · exact (callsIn_readied hready).trans hstart
    · exact ⟨row, hstill, rfl, Or.inl hpending⟩
    · refine hchanges.processing (step_wellFormed hwf₁ _ _).ids_increase hstill rfl ?_
      exact Row.is_eq_false hpending (by decide)
  | delivered row o₁ hready hfree response hresult =>
    obtain ⟨hchanges, hinc', hfinal⟩ := hready.recorded hwf hfree (event.call document)
      (c := .markCompleted row.id settings.deployment) (by simp [marks])
      (fun _ => rowAfter_markCompleted (r := begin o₁.world.now settings.deployment row) (by simp))
    have hcalls := callsIn_recorded hready hstart settings.timeout (event.call document)
      (.markCompleted row.id settings.deployment)
    refine ⟨row.id, hchanges, ⟨.delivered, rfl, ?_, ?_⟩, ?_⟩
    · exact ⟨response, document, _, hdoc, hcalls, hresult⟩
    · exact ⟨_, hfinal, rfl, by simp⟩
    · exact hchanges.processing hinc' hfinal rfl (by simp)
  | rejected row o₁ hready hfree e hresult =>
    have hcalls := callsIn_recorded hready hstart settings.timeout (event.call document)
      (failureCall settings row.id deliveryCount (.downstream e))
    have hretries := (hready.changes hwf).2
    have hwill := willRetry_downstream settings deliveryCount e
    have hmarks := marks_failureCall settings row.id deliveryCount (.downstream e)
    by_cases hagain : deliveryCount < settings.maxDeliveries
    · have hcall : failureCall settings row.id deliveryCount (.downstream e) =
          .markPendingWithRetry row.id settings.deployment := by
        simp [failureCall, DispatchError.kind, hwill, hagain]
      have hconclusion : conclusion settings event.body deliveryCount (.error (.downstream e)) =
          .retry := by
        simp [conclusion, failureDisposition, DispatchError.kind, hwill, hagain]
      rw [hcall] at hmarks hcalls ⊢
      rw [hconclusion]
      obtain ⟨hchanges, hinc', hfinal⟩ := hready.recorded hwf hfree (event.call document) hmarks
        (fun _ => rowAfter_markPendingWithRetry
          (r := begin o₁.world.now settings.deployment row) (by simp))
      refine ⟨row.id, hchanges, ⟨.retried, rfl, hagain, ?_, ?_⟩, ?_⟩
      · exact ⟨e, ⟨document, _, hdoc, hcalls, hresult⟩, isRetryable_downstream e⟩
      · refine ⟨_, hfinal, rfl, by simp, ?_⟩
        rw [← hretries]
        rfl
      · exact hchanges.processing hinc' hfinal rfl (by simp)
    · have hcall : failureCall settings row.id deliveryCount (.downstream e) =
          .markException row.id settings.deployment := by
        simp [failureCall, DispatchError.kind, hwill, hagain]
      have hconclusion : conclusion settings event.body deliveryCount (.error (.downstream e)) =
          .deadLetter e.kind.reason
            (deadLetterDescription event.body (DispatchError.downstream e).message) := by
        simp [conclusion, failureDisposition, DispatchError.kind, hwill, hagain]
      rw [hcall] at hmarks hcalls ⊢
      rw [hconclusion]
      obtain ⟨hchanges, hinc', hfinal⟩ := hready.recorded hwf hfree (event.call document) hmarks
        (fun _ => rowAfter_markException
          (r := begin o₁.world.now settings.deployment row) (by simp))
      refine ⟨row.id, hchanges, ⟨.givenUp, Nat.not_lt.mp hagain, ?_, ?_⟩, ?_⟩
      · exact ⟨e, ⟨document, _, hdoc, hcalls, hresult⟩, rfl⟩
      · refine ⟨_, hfinal, rfl, by simp, ?_⟩
        rw [← hretries]
        rfl
      · exact hchanges.processing hinc' hfinal rfl (by simp)

/-- The fate of a message agrees with the fate of its row. In every ledger that
calls of the store lead to, for every message of an event, every delivery and
every answer of the service, if the store does not fail, a dispatch makes one
call at most and changes one row at most, which carries the event; exactly one
fate holds of the message and the row, and no row comes into progress to stay. -/
theorem disposition_agrees_with_row (service : Service) (visibility : Nat)
    (settings : DispatchSettings) (e : Envelope) (deliveryCount : Nat) (w : World)
    (history : List (Int × StoreCall)) (event : Event)
    (hreachable : w.ledger = Ledger.empty.after history) (hevent : eventOf e = .ok event)
    (hstore : ∀ x ∈ ((dispatch settings e deliveryCount).run
      (Observed.handle service visibility) (.start w)).1.trace, x.storeFails = false) :
    let ended := (dispatch settings e deliveryCount).run (Observed.handle service visibility)
      (.start w)
    let after := ended.1.world.ledger
    let calls := callsIn ended.1.trace
    calls.length ≤ 1 ∧
      (∃ id, after.rows.filter (·.id != id) = w.ledger.rows.filter (·.id != id) ∧
        (∀ row ∈ w.ledger.rows ++ after.rows, row.id = id → row.carries event = true) ∧
        ∃! fate : Fate,
          fate.Holds settings event deliveryCount id w.ledger after ended.2 calls) ∧
      ∀ row ∈ after.rows, row.is .processing = true → row ∈ w.ledger.rows := by
  intro ended after calls
  have hwf : w.ledger.WellFormed := hreachable ▸ after_wellFormed empty_wellFormed history
  obtain ⟨hbody, document, hdoc⟩ := body_of_eventOf hevent
  have hcourse := course_process service visibility settings event (o := .start w) hwf hdoc
    deliveryCount
  have hagrees : ∃ id, Agrees settings event deliveryCount id w.ledger after ended.2 calls := by
    rw [run_dispatch hevent] at hstore
    have hended : ended = _ := run_dispatch hevent deliveryCount _
    unfold calls after
    rw [hended, ← hbody]
    exact hcourse.agrees hwf hdoc rfl hstore
  obtain ⟨id, hchanges, ⟨fate, hfate⟩, hprocessing⟩ := hagrees
  refine ⟨hfate.length_le, ⟨id, hchanges.others, ?_, fate, hfate, ?_⟩, hprocessing⟩
  · intro row hrow hid
    rcases List.mem_append.mp hrow with hbefore | hafter
    · exact hchanges.before row hbefore hid
    · exact hchanges.after row hafter hid
  · intro other hother
    exact hother.eq_shown.trans hfate.eq_shown.symm

/-- A ledger with an event of another hearing, and one that was given up before. -/
def replayHistory : List (Int × StoreCall) :=
  [(0, .create 1 .request "\x7b\x7d" "local"), (0, .create 2 .amend "[]" "local"),
    (5, .markProcessing 2 "local"), (9, .markException 2 "local")]

def replayedMessage : Envelope :=
  ⟨"m", Properties.ofList [("message_type", "AMEND_HEARING"), ("hearing_id", "2")], "[]"⟩

/-- The event that was given up is sent once more, and its call times out. -/
def replay : Observed × Disposition :=
  (dispatch { maxDeliveries := 1, timeout := .ofMillis 50 } replayedMessage 1).run
    (Observed.handle (fun _ _ => none) 30)
    (.start { World.empty 20 with ledger := Ledger.empty.after replayHistory })

theorem replay_agrees :
    eventOf replayedMessage = .ok ⟨⟨.amend, 2⟩, "[]"⟩ ∧
      (∀ x ∈ replay.1.trace, x.storeFails = false) ∧
      (callsIn replay.1.trace).length ≤ 1 ∧
      (∃ id, replay.1.world.ledger.rows.filter (·.id != id) =
          (Ledger.empty.after replayHistory).rows.filter (·.id != id) ∧
        (∀ row ∈ (Ledger.empty.after replayHistory).rows ++ replay.1.world.ledger.rows,
          row.id = id → row.carries ⟨⟨.amend, 2⟩, "[]"⟩ = true) ∧
        ∃! fate : Fate, fate.Holds { maxDeliveries := 1, timeout := .ofMillis 50 }
          ⟨⟨.amend, 2⟩, "[]"⟩ 1 id (Ledger.empty.after replayHistory) replay.1.world.ledger
            replay.2 (callsIn replay.1.trace)) ∧
      ∀ row ∈ replay.1.world.ledger.rows, row.is .processing = true →
        row ∈ (Ledger.empty.after replayHistory).rows := by
  have hevent : eventOf replayedMessage = .ok ⟨⟨.amend, 2⟩, "[]"⟩ := by decide +kernel
  have hstore : ∀ x ∈ replay.1.trace, x.storeFails = false := by decide +kernel
  exact ⟨hevent, hstore, disposition_agrees_with_row (fun _ _ => none) 30
    { maxDeliveries := 1, timeout := .ofMillis 50 } replayedMessage 1
    { World.empty 20 with ledger := Ledger.empty.after replayHistory } replayHistory _ rfl hevent
    hstore⟩

end Dispatch

end HearingRelay
