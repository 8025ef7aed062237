import HearingRelay.Proofs.Relay.Course

/-!
Messages that are not valid. One without a routing key, or with a body that is
not JSON, becomes a dead letter of a reason of its own before anything is asked
of the surroundings. A valid one never gets either reason: its body is read a
second time, from a row, but the row was found by this very body or made of it.
So whatever fails afterwards is the store or the service.
-/

namespace HearingRelay

def DispatchError.isOfMessage : DispatchError → Bool
  | .routing _ | .payload _ => true
  | .downstream _ | .store _ => false

/-- The two reasons are those of failures of a message itself. -/
theorem DispatchError.isOfMessage_of_reason {err : DispatchError}
    (h : err.kind.reason = "malformed message" ∨ err.kind.reason = "deserialization error") :
    err.isOfMessage = true := by
  have happlication : ¬ (FailureKind.application.reason = "malformed message" ∨
      FailureKind.application.reason = "deserialization error") := by decide
  have hgeneric : ¬ (FailureKind.generic.reason = "malformed message" ∨
      FailureKind.generic.reason = "deserialization error") := by decide
  cases err with
  | routing e => rfl
  | payload e => rfl
  | store e => exact absurd h hgeneric
  | downstream e =>
    cases e with
    | invalidResponse text => exact absurd h hgeneric
    | client text => exact absurd h hgeneric
    | _ => exact absurd h happlication

/-- Surroundings whose store answers a creation with the body that it was given. -/
def KeepsBodies {σ : Type} (handle : Handler Request.Answer σ) : Prop :=
  ∀ s hearing eventType message deployment r,
    (handle (.store (.create hearing eventType message deployment)) s).2 = .ok r →
      r.message = message

theorem World.keepsBodies (service : Service) (visibility : Nat) :
    KeepsBodies (World.handle service visibility) := by
  intro w hearing eventType message deployment r h
  exact (Dispatch.shows_of_create ⟨⟨eventType, hearing⟩, message⟩ h).2.message

namespace Dispatch

theorem eventOf_of_routing_error {e : Envelope} {err : RoutingError}
    (h : RoutingKey.ofProperties e.properties = .error err) :
    eventOf e = .error (.routing err) := by
  unfold eventOf
  rw [h]
  rfl

theorem eventOf_of_payload_error {e : Envelope} {key : RoutingKey} {err : Json.Error}
    (hkey : RoutingKey.ofProperties e.properties = .ok key) (h : Json.parse e.body = .error err) :
    eventOf e = .error (.payload err) := by
  unfold eventOf
  rw [hkey, h]
  rfl

theorem eventOf_of_ok {e : Envelope} {key : RoutingKey} {document : Json.Value}
    (hkey : RoutingKey.ofProperties e.properties = .ok key)
    (h : Json.parse e.body = .ok document) : eventOf e = .ok ⟨key, e.body⟩ := by
  unfold eventOf
  rw [hkey, h]
  rfl

section Run

variable {σ : Type} {handle : Handler Request.Answer σ} {s : σ} {settings : DispatchSettings}
  {event : Event}

/-- The row of an attempt has the body of the message, whether it waited, was
an exception that is sent once more, or is new. -/
theorem message_of_findEntry (hkeeps : KeepsBodies handle) {deployment : String}
    {r : PendingRequest}
    (h : ((findEntry deployment event).run handle s).2 = .ok (.claimable r)) :
    r.message = event.body := by
  unfold findEntry at h
  rw [Program.run_bind] at h
  cases hread : ((Relay.store (.rowsOfHearing event.key.hearing)).run handle s).2 with
  | error err =>
    rw [hread] at h
    cases h
  | ok rows =>
    rw [hread] at h
    dsimp only at h
    cases hmatch : matchRow? event rows with
    | some q =>
      have hmessage := message_of_matchRow? hmatch
      rw [hmatch] at h
      dsimp only at h
      cases hstatus : q.status with
      | completed =>
        rw [hstatus] at h
        cases h
      | processing =>
        rw [hstatus] at h
        cases h
      | pending =>
        rw [hstatus] at h
        cases h
        exact hmessage
      | exception =>
        rw [hstatus] at h
        dsimp only at h
        rw [Program.run_bind] at h
        split at h
        · cases h
        · cases h
          exact hmessage
    | none =>
      rw [hmatch] at h
      dsimp only at h
      rw [Program.run_bind] at h
      split at h
      · cases h
      · next created hcreated =>
        cases h
        exact hkeeps _ _ _ _ _ _ hcreated

/-- The result of a delivery whose payload can be read is that of its call. -/
theorem deliver_result (handle : Handler Request.Answer σ) {payload : String}
    {document : Json.Value} (hdoc : Json.parse payload = .ok document) (timeout : Time.Span)
    (hearing : Int) (eventType : EventType) (s : σ) :
    ∃ answer, ((Delivery.deliver timeout hearing eventType payload).run handle s).2 =
      (Delivery.resultWithin timeout answer).mapError .downstream := by
  unfold Delivery.deliver
  simp only [hdoc, Program.run_bind, Program.run_pure]
  exact ⟨_, rfl⟩

theorem isOfMessage_of_deliver {payload : String} {document : Json.Value}
    (hdoc : Json.parse payload = .ok document) {timeout : Time.Span} {hearing : Int}
    {eventType : EventType} {err : DispatchError}
    (h : ((Delivery.deliver timeout hearing eventType payload).run handle s).2 = .error err) :
    err.isOfMessage = false := by
  obtain ⟨answer, hanswer⟩ := deliver_result handle hdoc timeout hearing eventType s
  rw [hanswer] at h
  cases hresult : Delivery.resultWithin timeout answer with
  | ok response =>
    rw [hresult] at h
    cases h
  | error e =>
    rw [hresult] at h
    cases h
    rfl

theorem isOfMessage_of_attempt {r : PendingRequest} {document : Json.Value}
    (hdoc : Json.parse r.message = .ok document) {deliveryCount : Nat} {err : DispatchError}
    (h : ((attempt settings event r deliveryCount).run handle s).2 = .error err) :
    err.isOfMessage = false := by
  unfold attempt at h
  rw [Program.run_bind] at h
  split at h
  · rw [Program.run_bind] at h
    split at h
    · cases h
      rfl
    · cases h
  · next e hdelivered =>
    rw [Program.run_bind] at h
    cases h
    exact isOfMessage_of_deliver hdoc hdelivered

/-- An event whose body is JSON fails for the store or the service only. -/
theorem isOfMessage_of_process (hkeeps : KeepsBodies handle) {document : Json.Value}
    (hdoc : Json.parse event.body = .ok document) {deliveryCount : Nat} {err : DispatchError}
    (h : ((process settings event deliveryCount).run handle s).2 = .error err) :
    err.isOfMessage = false := by
  unfold process at h
  rw [Program.run_bind] at h
  split at h
  · cases h
    rfl
  · cases h
  · cases h
  · next r hfound =>
    have hmessage : r.message = event.body := message_of_findEntry hkeeps hfound
    rw [Program.run_bind] at h
    split at h
    · cases h
      rfl
    · cases h
    · exact isOfMessage_of_attempt (hmessage ▸ hdoc) h

/-- What a message becomes that has no routing key. The surroundings stay as they are. -/
theorem dispatch_of_routing_error {e : Envelope} {err : RoutingError}
    (h : RoutingKey.ofProperties e.properties = .error err) (deliveryCount : Nat) :
    (dispatch settings e deliveryCount).run handle s =
      (s, .deadLetter "malformed message" (deadLetterDescription e.body err.message)) :=
  run_dispatch_unreadable (eventOf_of_routing_error h) deliveryCount s

/-- What a message becomes whose body is not JSON. The surroundings stay as they are. -/
theorem dispatch_of_payload_error {e : Envelope} {key : RoutingKey} {err : Json.Error}
    (hkey : RoutingKey.ofProperties e.properties = .ok key) (h : Json.parse e.body = .error err)
    (deliveryCount : Nat) :
    (dispatch settings e deliveryCount).run handle s =
      (s, .deadLetter "deserialization error"
        (deadLetterDescription e.body (DispatchError.payload err).message)) :=
  run_dispatch_unreadable (eventOf_of_payload_error hkey h) deliveryCount s

/-- A valid message never becomes a dead letter for a reason of its own. -/
theorem reason_of_dispatch (hkeeps : KeepsBodies handle) {e : Envelope} {key : RoutingKey}
    {document : Json.Value} (hkey : RoutingKey.ofProperties e.properties = .ok key)
    (hdoc : Json.parse e.body = .ok document) {deliveryCount : Nat} {reason description : String}
    (h : ((dispatch settings e deliveryCount).run handle s).2 = .deadLetter reason description) :
    ¬ (reason = "malformed message" ∨ reason = "deserialization error") := by
  rw [run_dispatch (eventOf_of_ok hkey hdoc)] at h
  cases hresult : ((process settings ⟨key, e.body⟩ deliveryCount).run handle s).2 with
  | ok outcome =>
    rw [hresult] at h
    cases h
  | error err =>
    have hbody : Json.parse (Event.mk key e.body).body = .ok document := hdoc
    have herr := isOfMessage_of_process hkeeps hbody hresult
    rw [hresult] at h
    simp only [conclusion, failureDisposition] at h
    split at h
    · cases h
    · obtain ⟨hsame, _⟩ := Disposition.deadLetter.inj h
      rw [← hsame]
      intro hreason
      rw [DispatchError.isOfMessage_of_reason hreason] at herr
      cases herr

inductive Verdict (e : Envelope) (s : σ) : σ × Disposition → Prop
  | malformed (err : RoutingError) (hkey : RoutingKey.ofProperties e.properties = .error err)
      (description : String) : Verdict e s (s, .deadLetter "malformed message" description)
  | undecodable (key : RoutingKey) (hkey : RoutingKey.ofProperties e.properties = .ok key)
      (err : Json.Error) (hbody : Json.parse e.body = .error err) (description : String) :
      Verdict e s (s, .deadLetter "deserialization error" description)
  | valid (key : RoutingKey) (hkey : RoutingKey.ofProperties e.properties = .ok key)
      (document : Json.Value) (hbody : Json.parse e.body = .ok document)
      (ended : σ × Disposition) (hended : ∀ reason description,
        ended.2 = .deadLetter reason description →
          ¬ (reason = "malformed message" ∨ reason = "deserialization error")) :
      Verdict e s ended

theorem verdict_of_dispatch (hkeeps : KeepsBodies handle) (e : Envelope) (deliveryCount : Nat)
    (s : σ) : Verdict e s ((dispatch settings e deliveryCount).run handle s) := by
  cases hkey : RoutingKey.ofProperties e.properties with
  | error err =>
    rw [dispatch_of_routing_error hkey]
    exact .malformed err hkey _
  | ok key =>
    cases hbody : Json.parse e.body with
    | error err =>
      rw [dispatch_of_payload_error hkey hbody]
      exact .undecodable key hkey err hbody _
    | ok document =>
      exact .valid key hkey document hbody _ fun _ _ => reason_of_dispatch hkeeps hkey hbody

end Run

/-- Invalid messages are inert, and valid ones are never taken for invalid.
Whatever the ledger holds, however often a message was delivered and however
the service ends its calls: a message becomes a malformed one exactly when its
routing key cannot be read, and one that cannot be decoded exactly when its key
can be read and its body is no JSON; both leave all surroundings as they are.
What a valid message finds to deliver, a row that waited, one that is sent once
more or a new one, has the body of the message, so its delivery never fails for
its payload. -/
theorem invalid_messages_inert (service : Service) (visibility : Nat)
    (settings : DispatchSettings) (e : Envelope) (deliveryCount : Nat) (w : World) :
    let ended := (dispatch settings e deliveryCount).run (World.handle service visibility) w
    ((∃ description, ended.2 = .deadLetter "malformed message" description) ↔
        ∃ err, RoutingKey.ofProperties e.properties = .error err) ∧
      ((∃ description, ended.2 = .deadLetter "deserialization error" description) ↔
        (∃ key, RoutingKey.ofProperties e.properties = .ok key) ∧
          ∃ err, Json.parse e.body = .error err) ∧
      (∀ reason description, ended.2 = .deadLetter reason description →
        reason = "malformed message" ∨ reason = "deserialization error" → ended.1 = w) ∧
      ∀ event, eventOf e = .ok event → ∀ r,
        ((findEntry settings.deployment event).run (World.handle service visibility) w).2 =
            .ok (.claimable r) →
          r.message = e.body ∧ ∀ hearing eventType w' err,
            ((Delivery.deliver settings.timeout hearing eventType r.message).run
              (World.handle service visibility) w').2 ≠ .error (.payload err) := by
  intro ended
  have hkeeps := World.keepsBodies service visibility
  have hverdict : Verdict e w ended := verdict_of_dispatch hkeeps e deliveryCount w
  generalize ended = result at hverdict ⊢
  refine ⟨?_, ?_, ?_, fun event hevent r hfound => ?_⟩
  · cases hverdict with
    | malformed err hkey description => simp [hkey]
    | undecodable key hkey err hbody description => simp [hkey]
    | valid key hkey document hbody result hvalid =>
      simp only [hkey, reduceCtorEq, exists_false, iff_false, not_exists]
      exact fun description hended => hvalid _ description hended (Or.inl rfl)
  · cases hverdict with
    | malformed err hkey description => simp [hkey]
    | undecodable key hkey err hbody description => simp [hkey, hbody]
    | valid key hkey document hbody result hvalid =>
      simp only [hbody, reduceCtorEq, exists_false, and_false, iff_false, not_exists]
      exact fun description hended => hvalid _ description hended (Or.inr rfl)
  · intro reason description hended hreason
    cases hverdict with
    | malformed => rfl
    | undecodable => rfl
    | valid key hkey document hbody result hvalid =>
      exact absurd hreason (hvalid reason description hended)
  · obtain ⟨hbody, document, hdoc⟩ := body_of_eventOf hevent
    have hmessage : r.message = event.body := message_of_findEntry hkeeps hfound
    refine ⟨hmessage.trans hbody, fun hearing eventType w' err hfailed => ?_⟩
    have herr := isOfMessage_of_deliver (hmessage ▸ hdoc) hfailed
    cases herr

end Dispatch

end HearingRelay
