import HearingRelay.Dispatch
import HearingRelay.Proofs.Relay.Protocol
import HearingRelay.World
import Mathlib.Data.List.Basic

/-!
Dispatches over a store that fails. Any call of the store may end with an error,
with or without effect. Before the service is called an error ends the dispatch
without a call. After a call that was accepted one call of the store is left,
which completes the row: the message is complete when that call succeeds, and
is delivered again or becomes a dead letter when it fails.
-/

namespace HearingRelay

def isAcceptance : Reply Request.Answer → Bool
  | ⟨.send _, some (.ok _)⟩ => true
  | _ => false

def isStoreFailure : Reply Request.Answer → Bool
  | ⟨.store _, .error _⟩ => true
  | _ => false

structure Uneventful (replies : List (Reply Request.Answer)) : Prop where
  no_acceptance : replies.any isAcceptance = false
  no_failure : replies.any isStoreFailure = false

section

open Program Dispatch

variable {α : Type} {settings : DispatchSettings} {event : Event}
  {past : List (Reply Request.Answer)}

def BeforeCall (result : Except StoreError α) (replies : List (Reply Request.Answer)) : Prop :=
  replies.any isAcceptance = false ∧ ∀ a, result = .ok a → Uneventful replies

theorem BeforeCall.error (h : past.any isAcceptance = false) (err : StoreError) :
    BeforeCall (.error err : Except StoreError α) past := ⟨h, fun _ he => by cases he⟩

theorem Uneventful.beforeCall (h : Uneventful past) (a : α) : BeforeCall (.ok a) past :=
  ⟨h.no_acceptance, fun _ _ => h⟩

theorem store_recorded (c : StoreCall) :
    (Relay.store c).Follows (.recording Request.Answer)
      (fun answer replies => replies = past ++ [⟨.store c, answer⟩]) past :=
  follows_call trivial fun _ => rfl

theorem store_beforeCall (c : StoreCall) (h : Uneventful past) :
    (Relay.store c).Follows (.recording Request.Answer) BeforeCall past := by
  refine (store_recorded c).mono ?_
  rintro answer _ rfl
  refine ⟨by simp [h.no_acceptance, isAcceptance], ?_⟩
  rintro a rfl
  exact ⟨by simp [h.no_acceptance, isAcceptance], by simp [h.no_failure, isStoreFailure]⟩

theorem findEntry_beforeCall (deployment : String) (h : Uneventful past) :
    (findEntry deployment event).Follows (.recording Request.Answer) BeforeCall past := by
  refine (store_beforeCall _ h).bind fun answer replies h => ?_
  cases answer with
  | error err => exact follows_pure (.error h.1 err)
  | ok rows =>
    have hlooked : Uneventful replies := h.2 rows rfl
    dsimp only
    split
    · split
      · exact follows_pure (hlooked.beforeCall _)
      · exact follows_pure (hlooked.beforeCall _)
      · exact follows_pure (hlooked.beforeCall _)
      · refine (store_beforeCall _ hlooked).bind fun answer replies h => ?_
        cases answer with
        | error err => exact follows_pure (.error h.1 err)
        | ok applied => exact follows_pure ((h.2 applied rfl).beforeCall _)
    · refine (store_beforeCall _ hlooked).bind fun answer replies h => ?_
      cases answer with
      | error err => exact follows_pure (.error h.1 err)
      | ok r => exact follows_pure ((h.2 r rfl).beforeCall _)

/-- How a dispatch ends: unless no call was accepted, the row was completed or
the completion of the row has failed, which was the last that was asked. -/
def Ends (deployment : String) (result : Except DispatchError Outcome)
    (replies : List (Reply Request.Answer)) : Prop :=
  replies.any isAcceptance = false ∨
    (result = .ok .delivered ∧ replies.any isStoreFailure = false) ∨
    ∃ earlier id err, replies = earlier ++ [⟨.store (.markCompleted id deployment), .error err⟩] ∧
      earlier.any isStoreFailure = false ∧ result = .error (.store err)

/-- A delivery fails when its call is not accepted, and makes no call of the store. -/
theorem deliver_recorded (timeout : Time.Span) (hearing : Int) (eventType : EventType)
    (payload : String) (h : Uneventful past) :
    (Delivery.deliver timeout hearing eventType payload).Follows (.recording Request.Answer)
      (fun result replies => replies.any isStoreFailure = false ∧
        ∀ e, result = .error e → replies.any isAcceptance = false) past := by
  refine Delivery.deliver_follows (fun answer replies =>
    replies.any isStoreFailure = false ∧
      ((∃ response, answer = some (.ok response)) ∨ replies.any isAcceptance = false)) ?_ ?_ ?_ ?_
  · exact fun e _ => ⟨h.no_failure, fun _ _ => h.no_acceptance⟩
  · refine fun document _ => ⟨trivial, fun answer => ?_⟩
    simp only [Protocol.recording_after]
    refine ⟨by simp [h.no_failure, isStoreFailure], ?_⟩
    match answer with
    | some (.ok response) => exact Or.inl ⟨response, rfl⟩
    | some (.error e) => exact Or.inr (by simp [h.no_acceptance, isAcceptance])
    | none => exact Or.inr (by simp [h.no_acceptance, isAcceptance])
  · rintro answer replies report ⟨hfailure, hcalled⟩
    refine ⟨trivial, fun reply => ?_⟩
    simp only [Protocol.recording_after]
    refine ⟨by simp [hfailure, isStoreFailure], ?_⟩
    exact hcalled.imp_right fun hnone => by simp [hnone, isAcceptance]
  · rintro answer replies ⟨hfailure, hcalled⟩
    refine ⟨hfailure, fun e he => ?_⟩
    rcases hcalled with ⟨response, rfl⟩ | hnone
    · cases he
    · exact hnone

theorem attempt_ends (r : PendingRequest) (deliveryCount : Nat) (h : Uneventful past) :
    (attempt settings event r deliveryCount).Follows (.recording Request.Answer)
      (Ends settings.deployment) past := by
  refine (deliver_recorded _ _ _ _ h).bind fun result replies h => ?_
  obtain ⟨hfailure, hrefused⟩ := h
  cases result with
  | ok response =>
    refine (store_recorded _).bind fun answer _ h => ?_
    subst h
    cases answer with
    | error err => exact follows_pure (Or.inr (Or.inr ⟨replies, r.id, err, rfl, hfailure, rfl⟩))
    | ok applied =>
      refine follows_pure (Or.inr (Or.inl ⟨rfl, ?_⟩))
      simp [hfailure, isStoreFailure]
  | error err =>
    have hnone := hrefused err rfl
    have hrecorded : (recordFailure settings r.id deliveryCount err).Follows
        (.recording Request.Answer) (fun _ replies => replies.any isAcceptance = false)
        replies := by
      unfold recordFailure
      split
      · refine (store_recorded _).bind fun answer _ h => follows_pure ?_
        subst h
        simp [hnone, isAcceptance]
      · refine (store_recorded _).bind fun answer _ h => follows_pure ?_
        subst h
        simp [hnone, isAcceptance]
    exact hrecorded.bind fun _ _ h => follows_pure (Or.inl h)

theorem process_ends (deliveryCount : Nat) (h : Uneventful past) :
    (process settings event deliveryCount).Follows (.recording Request.Answer)
      (Ends settings.deployment) past := by
  refine (findEntry_beforeCall settings.deployment h).bind fun entry replies h => ?_
  split
  · exact follows_pure (Or.inl h.1)
  · exact follows_pure (Or.inl h.1)
  · exact follows_pure (Or.inl h.1)
  · next r =>
    refine (store_beforeCall _ (h.2 _ rfl)).bind fun answer replies h => ?_
    split
    · exact follows_pure (Or.inl h.1)
    · exact follows_pure (Or.inl h.1)
    · exact attempt_ends r deliveryCount (h.2 true rfl)

/-- Whatever a dispatch is answered and whichever calls of the store fail: when its call of the
service was accepted, every call of the store up to then had succeeded, and one was left. The
message is complete exactly when that one succeeds too; otherwise it is delivered again, or
becomes a dead letter with its last delivery, although its event was delivered. -/
theorem disposition_of_accepted {σ : Type} (handle : Handler Request.Answer σ) (s : σ)
    (settings : DispatchSettings) (e : Envelope) (deliveryCount : Nat)
    (haccepted : ((dispatch settings e deliveryCount).replies handle s).any isAcceptance = true) :
    let replies := (dispatch settings e deliveryCount).replies handle s
    let disposition := ((dispatch settings e deliveryCount).run handle s).2
    (disposition = .complete ∧ replies.any isStoreFailure = false) ∨
      ∃ earlier id err,
        replies = earlier ++ [⟨.store (.markCompleted id settings.deployment), .error err⟩] ∧
        earlier.any isStoreFailure = false ∧
        disposition =
          if deliveryCount < settings.maxDeliveries then .retry
          else .deadLetter "generic error"
            (deadLetterDescription e.body (DispatchError.store err).message) := by
  intro replies disposition
  have hends : (dispatch settings e deliveryCount).Follows (.recording Request.Answer)
      (fun disposition replies => replies.any isAcceptance = true →
        (disposition = .complete ∧ replies.any isStoreFailure = false) ∨
          ∃ earlier id err,
            replies = earlier ++ [⟨.store (.markCompleted id settings.deployment), .error err⟩] ∧
            earlier.any isStoreFailure = false ∧
            disposition = failureDisposition settings e.body deliveryCount (.store err)) [] := by
    unfold dispatch
    cases eventOf e with
    | error err =>
      refine follows_pure ?_
      rintro ⟨⟩
    | ok event =>
      refine (process_ends deliveryCount ⟨rfl, rfl⟩).bind fun result replies h => ?_
      rcases h with hnone | ⟨rfl, hfailure⟩ | ⟨earlier, id, err, rfl, hfailure, rfl⟩
      · cases result <;> exact follows_pure fun hsome => by rw [hnone] at hsome; cases hsome
      · exact follows_pure fun _ => Or.inl ⟨rfl, hfailure⟩
      · exact follows_pure fun _ => Or.inr ⟨earlier, id, err, rfl, hfailure, rfl⟩
  have hrun := hends.run handle s
  rw [Protocol.recording_advance, List.nil_append] at hrun
  rcases hrun haccepted with hcomplete | ⟨earlier, id, err, hreplies, hfailure, hdisposition⟩
  · exact Or.inl hcomplete
  · refine Or.inr ⟨earlier, id, err, hreplies, hfailure, hdisposition.trans ?_⟩
    simp [failureDisposition, willRetry, DispatchError.kind, FailureKind.isRetryable,
      FailureKind.reason]

end

/-- Surroundings in which some calls of the store, counted from the first, fail without effect. -/
def World.faulty (faults : Nat → Option StoreError) (service : Service) (visibility : Nat) :
    Handler Request.Answer (Nat × World)
  | .store c, (n, w) =>
    match faults n with
    | some err => ((n + 1, w), .error err)
    | none => ((n + 1, (w.store c).1), (w.store c).2)
  | q, (n, w) =>
    let answered := World.handle service visibility q w
    ((n, answered.1), answered.2)

def lastCallFails : Nat → Option StoreError
  | 3 => some .full
  | _ => none

def unrecorded : Handler Request.Answer (Nat × World) :=
  World.faulty lastCallFails (fun _ _ => some (.ok ⟨200, none⟩)) 30

def deliveredMessage : Envelope :=
  ⟨"m", Properties.ofList [("message_type", "REQUEST_HEARING"), ("hearing_id", "1")], "\x7b\x7d"⟩

theorem unrecorded_disposition :
    let settings : DispatchSettings := { timeout := .ofMillis 5000 }
    let replies := (dispatch settings deliveredMessage 1).replies unrecorded (0, .empty 5)
    let disposition := ((dispatch settings deliveredMessage 1).run unrecorded (0, .empty 5)).2
    replies.any isAcceptance = true ∧
      ((disposition = .complete ∧ replies.any isStoreFailure = false) ∨
        ∃ earlier id err,
          replies = earlier ++ [⟨.store (.markCompleted id settings.deployment), .error err⟩] ∧
          earlier.any isStoreFailure = false ∧
          disposition =
            if 1 < settings.maxDeliveries then .retry
            else .deadLetter "generic error"
              (deadLetterDescription deliveredMessage.body
                (DispatchError.store err).message)) := by
  have haccepted : ((dispatch { timeout := .ofMillis 5000 } deliveredMessage 1).replies unrecorded
      (0, .empty 5)).any isAcceptance = true := by decide +kernel
  exact ⟨haccepted, disposition_of_accepted unrecorded (0, .empty 5) { timeout := .ofMillis 5000 }
    deliveredMessage 1 haccepted⟩

/-- An accepted call does not make a message complete when calls of the store may fail. -/
theorem accepted_may_return :
    ¬ ∀ (faults : Nat → Option StoreError) (service : Service) (visibility : Nat) (w : World)
      (settings : DispatchSettings) (e : Envelope) (deliveryCount : Nat),
      (∃ event, Dispatch.eventOf e = .ok event) →
        ((dispatch settings e deliveryCount).replies (World.faulty faults service visibility)
          (0, w)).any isAcceptance = true →
        ((dispatch settings e deliveryCount).run (World.faulty faults service visibility)
          (0, w)).2 = .complete := by
  intro h
  have hcomplete := h lastCallFails (fun _ _ => some (.ok ⟨200, none⟩)) 30 (.empty 5)
    { timeout := .ofMillis 5000 } deliveredMessage 1
    ⟨⟨⟨.request, 1⟩, "\x7b\x7d"⟩, by decide +kernel⟩ (by decide +kernel)
  have hretry : ((dispatch { timeout := .ofMillis 5000 } deliveredMessage 1).run unrecorded
      (0, .empty 5)).2 = .retry := by decide +kernel
  have hsame : Disposition.retry = .complete := hretry.symm.trans hcomplete
  cases hsame

end HearingRelay
