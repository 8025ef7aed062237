import HearingRelay.Proofs.Queue.Leases
import HearingRelay.Proofs.Relay.Observation
import HearingRelay.Proofs.Relay.Protocol
import HearingRelay.Worker
import HearingRelay.Scheduler.Run

/-!
Settlements over a run. Between the poll of a message and its settlement the
queues go on changing, but its receipt stays on it or is taken off. So a
message that is gone after its completion is the one that was dispatched.
-/

namespace HearingRelay

def Request.LeavesInbox : Request → Prop
  | .poll _ | .settle .. => False
  | _ => True

section

open Program

theorem store_only (c : StoreCall) : (Relay.store c).Only Request.LeavesInbox :=
  only_call trivial

theorem deliver_leavesInbox (timeout : Time.Span) (hearing : Int) (eventType : EventType)
    (payload : String) :
    (Delivery.deliver timeout hearing eventType payload).Only Request.LeavesInbox :=
  Delivery.deliver_only (fun _ => trivial) fun _ => trivial

namespace Dispatch

theorem attempt_only (settings : DispatchSettings) (event : Event) (r : PendingRequest)
    (deliveryCount : Nat) :
    (attempt settings event r deliveryCount).Only Request.LeavesInbox := by
  refine (deliver_leavesInbox _ _ _ _).bind fun result => ?_
  cases result with
  | ok response =>
    refine (store_only _).bind fun answer => ?_
    cases answer <;> exact only_pure _
  | error err =>
    refine Only.bind ?_ fun _ => only_pure _
    unfold recordFailure
    split
    · exact (store_only _).bind fun _ => only_pure _
    · exact (store_only _).bind fun _ => only_pure _

theorem process_only (settings : DispatchSettings) (event : Event) (deliveryCount : Nat) :
    (process settings event deliveryCount).Only Request.LeavesInbox := by
  refine (findEntry_only fun c _ => store_only c).bind fun entry => ?_
  split
  · exact only_pure _
  · exact only_pure _
  · exact only_pure _
  · refine (store_only _).bind fun answer => ?_
    split
    · exact only_pure _
    · exact only_pure _
    · exact attempt_only settings event _ deliveryCount

/-- Dispatching a message takes none from the inbound queue and settles none. -/
theorem dispatch_only (settings : DispatchSettings) (e : Envelope) (deliveryCount : Nat) :
    (dispatch settings e deliveryCount).Only Request.LeavesInbox := by
  unfold dispatch
  cases eventOf e with
  | error err => exact only_pure _
  | ok event =>
    refine (process_only settings event deliveryCount).bind fun result => ?_
    cases result <;> exact only_pure _

end Dispatch

namespace Redrive

theorem conclude_only (call : StoreCall) (outcome : RedriveOutcome) :
    (conclude call outcome).Only Request.LeavesInbox := by
  refine (store_only _).bind fun answer => ?_
  cases answer <;> exact only_pure _

theorem attempt_only (settings : SchedulerSettings) (timeout : Time.Span) (r : PendingRequest) :
    (attempt settings timeout r).Only Request.LeavesInbox := by
  refine (only_call trivial).bind fun now => ?_
  split
  · exact only_pure _
  · exact conclude_only _ _
  · refine (deliver_leavesInbox _ _ _ _).bind fun result => ?_
    cases result with
    | ok response => exact conclude_only _ _
    | error e =>
      unfold record
      dsimp only
      split
      · exact conclude_only _ _
      · exact conclude_only _ _

end Redrive

namespace Scheduler

theorem upkeep_only (settings : SchedulerSettings) (summary : RunSummary) :
    (upkeep settings summary).Only Request.LeavesInbox := by
  refine Only.bind ?_ fun _ => (store_only _).bind fun _ => (store_only _).bind fun _ => only_pure _
  refine (store_only _).bind fun answer => ?_
  cases answer with
  | error e => exact only_pure _
  | ok rows => exact store_only _

/-- The scheduler does not touch the inbound queue. -/
theorem runOnce_only (settings : SchedulerSettings) (timeout : Time.Span) :
    (runOnce settings timeout).Only Request.LeavesInbox := by
  refine Only.bind ?_ fun answer => ?_
  · refine (store_only _).bind fun claimed => ?_
    split
    · exact only_pure _
    · exact only_pure _
    · exact Redrive.attempt_only _ _ _
  · split
    · exact (upkeep_only _ _).bind fun _ => only_pure _
    · exact (upkeep_only _ _).bind fun _ => only_pure _
    · exact only_pure _

end Scheduler

end

structure Exchange.Completes (x : Exchange) (leased : Leased) (m : Queued) : Prop where
  question : x.question = .settle leased .complete
  before : m ∈ x.before.broker.messages
  after : m ∉ x.after.broker.messages

/-- Whoever completed a message had read it. -/
structure Observed.Faithful (o : Observed) : Prop where
  wellFormed : o.world.broker.WellFormed
  read : ∀ x ∈ o.trace, ∀ leased m, x.Completes leased m →
    Envelope.parse m.payload = .ok leased.envelope

theorem start_faithful (now : Int) : (Observed.start (.empty now)).Faithful :=
  ⟨Broker.empty_wellFormed, by simp [Observed.start]⟩

/-- Every question keeps the receipts on their payloads. -/
theorem World.handle_broker (service : Service) (visibility : Nat) {w : World}
    (h : w.broker.WellFormed) (q : Request) :
    w.broker.Leads (World.handle service visibility q w).1.broker ∧
      (World.handle service visibility q w).1.broker.WellFormed := by
  cases q with
  | publish hearing report =>
    exact ⟨Broker.publish_leads _ _ _ _, Broker.publish_wellFormed h _ _ _⟩
  | poll limit =>
    obtain ⟨hleads, hwf, _⟩ := Broker.poll_spec h (World.inboundConsumer visibility) w.now limit
    exact ⟨hleads, hwf⟩
  | settle leased disposition =>
    have hleads := Broker.settle_leads w.broker inboundQueue w.now leased.receipt disposition
    exact ⟨hleads, hleads.wellFormed h (Broker.settle_keys h.keys_nodup _ _ _ _)⟩
  | _ => exact ⟨.refl w.broker, h⟩

namespace Observed.Faithful

variable (service : Service) (visibility : Nat) {o : Observed}

/-- A question of a holder whose message is bound, or of no holder. -/
theorem ask (h : o.Faithful) {q : Request}
    (hbinds : ∀ leased, q = .settle leased .complete → o.world.broker.Binds leased) :
    (o.ask service visibility q).Faithful := by
  refine ⟨(World.handle_broker service visibility h.wellFormed q).2, ?_⟩
  intro x hx leased m hcompletes
  rcases List.mem_cons.mp hx with rfl | hold
  · obtain ⟨hquestion, hbefore, hafter⟩ := hcompletes
    obtain rfl : q = .settle leased .complete := hquestion
    exact Broker.envelope_of_complete h.wellFormed (hbinds leased rfl) hbefore hafter
  · exact h.read x hold leased m hcompletes

/-- A program that leaves the inbound queue alone leaves the messages in hand bound. -/
theorem run_only {α : Type} (h : o.Faithful) {x : Relay α} (hx : x.Only Request.LeavesInbox)
    (batch : List Leased) (hbinds : ∀ m ∈ batch, o.world.broker.Binds m) :
    (x.run (Observed.handle service visibility) o).1.Faithful ∧
      ∀ m ∈ batch, (x.run (Observed.handle service visibility) o).1.world.broker.Binds m := by
  refine hx.run (I := fun o : Observed => o.Faithful ∧ ∀ m ∈ batch, o.world.broker.Binds m) ?_
    ⟨h, hbinds⟩
  rintro q o' hq ⟨hfaithful, hbound⟩
  refine ⟨hfaithful.ask service visibility fun leased hsettle => ?_, ?_⟩
  · subst hsettle
    exact hq.elim
  · intro m hm
    exact (hbound m hm).of_leads (World.handle_broker service visibility hfaithful.wellFormed q).1

/-- A batch is dispatched and settled while the rest of it stays bound. -/
theorem handleAll (settings : DispatchSettings) {batch : List Leased} (h : o.Faithful)
    (hbinds : ∀ m ∈ batch, o.world.broker.Binds m) :
    ((Worker.handleAll settings batch).run (Observed.handle service visibility) o).1.Faithful := by
  induction batch generalizing o with
  | nil => exact h
  | cons m rest ih =>
    obtain ⟨hdispatched, hbound⟩ := h.run_only service visibility
      (Dispatch.dispatch_only settings m.envelope m.deliveryCount) (m :: rest) hbinds
    unfold Worker.handleAll
    rw [Program.run_bind, Program.run_bind]
    refine ih (hdispatched.ask service visibility ?_) ?_
    · intro leased hsettle
      injection hsettle with hleased hdisposition
      exact hleased ▸ hbound m List.mem_cons_self
    · intro n hn
      exact (hbound n (List.mem_cons_of_mem m hn)).of_leads
        (World.handle_broker service visibility hdispatched.wellFormed _).1

theorem workerRound (settings : DispatchSettings) (batch : Nat) (h : o.Faithful) :
    ((Worker.runOnce settings batch).run (Observed.handle service visibility) o).1.Faithful := by
  have hpolled : (o.ask service visibility (.poll batch)).Faithful :=
    h.ask service visibility fun leased hsettle => by cases hsettle
  obtain ⟨_, _, hbinds⟩ := Broker.poll_spec h.wellFormed (World.inboundConsumer visibility)
    o.world.now batch
  rw [Worker.run_runOnce]
  cases hanswer : (o.world.poll visibility batch).2 with
  | error e => exact hpolled
  | ok messages => exact hpolled.handleAll service visibility settings (hbinds messages hanswer)

theorem schedulerRun (settings : SchedulerSettings) (timeout : Time.Span) (h : o.Faithful) :
    ((Scheduler.runOnce settings timeout).run
      (Observed.handle service visibility) o).1.Faithful :=
  (h.run_only service visibility (Scheduler.runOnce_only settings timeout) [] (by simp)).1

end Observed.Faithful

end HearingRelay
