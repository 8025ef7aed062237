import HearingRelay.Config.Working
import HearingRelay.Proofs.Queue.Polling
import HearingRelay.Proofs.Relay.Settlement

/-!
What a worker gets done in one round. The messages of a batch are settled one
after the other, all of them, so a round handles a message exactly when its poll
hands one out: the consumer runs, the batch has room, a message is visible, and
all that are due can be read. The settings say how much room a batch has, and the
rules for settings say nothing of it.
-/

namespace HearingRelay

open World (inboundQueue inboundConsumer)

def Exchange.settled? (x : Exchange) : Option String :=
  match x.question with
  | .settle leased _ => some leased.brokerId
  | _ => none

def settledIn (trace : List Exchange) : List String := trace.filterMap (·.settled?)

namespace Broker

/-- A poll hands out what it leases exactly when it can read all of it. -/
theorem leaseAll_ok_iff {b : Broker} {deadline : Int} {ms : List Queued} :
    (∃ batch, (b.leaseAll deadline ms).2 = .ok batch) ↔ ∀ m ∈ ms, Readable m := by
  refine ⟨fun h => ?_, leaseAll_ok⟩
  induction ms generalizing b with
  | nil => simp
  | cons m rest ih =>
    obtain ⟨batch, hbatch⟩ := h
    obtain ⟨_, others, _, hothers, _⟩ := leaseAll_cons_ok hbatch
    refine List.forall_mem_cons.mpr ⟨?_, ih ⟨others, hothers⟩⟩
    cases hparse : Envelope.parse m.payload with
    | ok envelope => exact ⟨envelope, hparse⟩
    | error e =>
      rw [leaseAll_cons, hparse] at hbatch
      cases hbatch

theorem poll_ok_iff {b : Broker} {q : Consumer} {now : Int} {limit : Nat} :
    (∃ batch, (b.poll q now limit).2 = .ok batch) ↔
      q ∉ b.stopped ∧ ∀ m ∈ b.due q.queue now limit, Readable m := by
  by_cases hstopped : q ∈ b.stopped
  · have hpoll : b.poll q now limit = (b, .error .stopped) := by
      rw [poll, if_pos (by simpa using hstopped)]
    rw [hpoll]
    exact iff_of_false (by simp) fun h => h.1 hstopped
  · rw [poll_of_running hstopped, leaseAll_ok_iff]
    exact (and_iff_right hstopped).symm

/-- A batch holds the messages that were due. -/
theorem poll_ids {b : Broker} {q : Consumer} {now : Int} {limit : Nat} {batch : List Leased}
    (h : (b.poll q now limit).2 = .ok batch) :
    batch.map (·.brokerId) = (b.due q.queue now limit).map (·.id) := by
  rw [poll_of_running (poll_ok_iff.mp ⟨batch, h⟩).1] at h
  exact leaseAll_ids h

end Broker

namespace Worker

variable (service : Service) (visibility : Nat) (settings : DispatchSettings)

/-- Only the settlements of a round settle anything. -/
theorem settledIn_dispatch (e : Envelope) (deliveryCount : Nat) (o : Observed) :
    settledIn ((dispatch settings e deliveryCount).run
      (Observed.handle service visibility) o).1.trace = settledIn o.trace := by
  refine (Dispatch.dispatch_only settings e deliveryCount).run
    (I := fun o' : Observed => settledIn o'.trace = settledIn o.trace) ?_ rfl
  intro q o' hq hsame
  cases q with
  | settle leased disposition => exact hq.elim
  | _ => exact hsame

/-- Every message of a batch is settled, in the order of the batch. -/
theorem settledIn_handleAll (batch : List Leased) (o : Observed) :
    settledIn ((handleAll settings batch).run (Observed.handle service visibility) o).1.trace =
      (batch.map (·.brokerId)).reverse ++ settledIn o.trace := by
  induction batch generalizing o with
  | nil => rfl
  | cons l rest ih =>
    unfold handleAll
    rw [Program.run_bind, Program.run_bind, ih, List.map_cons, List.reverse_cons,
      List.append_assoc]
    refine congrArg _ ?_
    exact congrArg (l.brokerId :: ·) (settledIn_dispatch service visibility settings _ _ o)

variable {service visibility settings} {size : Nat} {o : Observed}

theorem runOnce_eq_ok_iff {n : Nat} :
    ((runOnce settings size).run (Observed.handle service visibility) o).2 = .ok n ↔
      ∃ batch, (o.world.poll visibility size).2 = .ok batch ∧ batch.length = n := by
  rw [run_runOnce]
  cases (o.world.poll visibility size).2 <;> simp

/-- A round succeeds when its poll does. -/
theorem exists_runOnce_iff :
    (∃ n, ((runOnce settings size).run (Observed.handle service visibility) o).2 = .ok n) ↔
      inboundConsumer visibility ∉ o.world.broker.stopped ∧
        ∀ m ∈ o.world.broker.due inboundQueue o.world.now size, Broker.Readable m := by
  have hpoll : (∃ batch, (o.world.poll visibility size).2 = .ok batch) ↔ _ := Broker.poll_ok_iff
  refine Iff.trans ?_ hpoll
  constructor
  · rintro ⟨n, hn⟩
    obtain ⟨batch, hbatch, _⟩ := runOnce_eq_ok_iff.mp hn
    exact ⟨batch, hbatch⟩
  · rintro ⟨batch, hbatch⟩
    exact ⟨batch.length, runOnce_eq_ok_iff.mpr ⟨batch, hbatch, rfl⟩⟩

/-- A round that succeeds counts and settles the messages that were due. -/
theorem runOnce_settles {n : Nat}
    (h : ((runOnce settings size).run (Observed.handle service visibility) o).2 = .ok n) :
    let due := o.world.broker.due inboundQueue o.world.now size
    n = due.length ∧
      settledIn ((runOnce settings size).run (Observed.handle service visibility) o).1.trace =
        (due.map (·.id)).reverse ++ settledIn o.trace := by
  intro due
  obtain ⟨batch, hbatch, rfl⟩ := runOnce_eq_ok_iff.mp h
  have hids : batch.map (·.brokerId) = due.map (·.id) := Broker.poll_ids hbatch
  rw [run_runOnce, hbatch, ← hids]
  refine ⟨?_, settledIn_handleAll service visibility settings batch _⟩
  simpa using congrArg List.length hids

end Worker

namespace Config

/-- When a worker with the given settings handles a message in a round. It does
exactly when its consumer runs, the batch of the settings is not empty, a message
is visible, and all messages that are due can be read. It settles all of those
then, as many as are visible or as the batch may hold. The rules for settings
accept a batch of any size, an empty one too. -/
theorem worker_round_handles_iff (c : Config) (service : Service) (w : World) :
    let ended := c.workerRound.run
      (Observed.handle service c.queue.visibilityTimeoutSecs) (.start w)
    let due := w.broker.due inboundQueue w.now c.queue.pollBatchSize
    ((∃ n, 1 ≤ n ∧ ended.2 = .ok n) ↔
      inboundConsumer c.queue.visibilityTimeoutSecs ∉ w.broker.stopped ∧
        0 < c.queue.pollBatchSize ∧
        (∃ m ∈ w.broker.messages, m.isVisible inboundQueue w.now = true) ∧
        ∀ m ∈ due, Broker.Readable m) ∧
      (∀ n, ended.2 = .ok n →
        n = min c.queue.pollBatchSize
          (w.broker.messages.countP (·.isVisible inboundQueue w.now)) ∧
        settledIn ended.1.trace = (due.map (·.id)).reverse) ∧
      ∀ size, violation? { c with queue := { c.queue with pollBatchSize := size } } =
        c.violation? := by
  intro ended due
  have hcount : ∀ n, ended.2 = .ok n → n = min c.queue.pollBatchSize
      (w.broker.messages.countP (·.isVisible inboundQueue w.now)) := fun n hn =>
    (Worker.runOnce_settles hn).1.trans (Broker.length_due _ _ _ _)
  refine ⟨⟨?_, ?_⟩, fun n hn => ⟨hcount n hn, ?_⟩, fun _ => rfl⟩
  · rintro ⟨n, hpos, hn⟩
    obtain ⟨hrunning, hreadable⟩ := Worker.exists_runOnce_iff.mp ⟨n, hn⟩
    have hn := hcount n hn
    exact ⟨hrunning, by omega, List.countP_pos_iff.mp (by omega), hreadable⟩
  · rintro ⟨hrunning, hroom, hvisible, hreadable⟩
    obtain ⟨n, hn⟩ : ∃ n, ended.2 = .ok n :=
      Worker.exists_runOnce_iff.mpr ⟨hrunning, hreadable⟩
    have hvisible := List.countP_pos_iff.mpr hvisible
    have hsize := hcount n hn
    exact ⟨n, by omega, hn⟩
  · exact (Worker.runOnce_settles hn).2.trans (List.append_nil _)

def withoutBatch : Config := { queue := { pollBatchSize := 0 } }

def oneRequest : World :=
  { World.empty 1700000000000 with
    broker := Broker.empty.publish inboundQueue 1700000000000
      ⟨"a", Properties.ofList [("message_type", "REQUEST_HEARING"), ("hearing_id", "1")],
        "\x7b\x7d"⟩ }

/-- The rules accept settings under which a visible message that can be read is
left as it is by every round, whatever the service answers. -/
theorem withoutBatch_handles_nothing :
    withoutBatch.violation? = none ∧
      (∃ m ∈ oneRequest.broker.messages,
        m.isVisible inboundQueue oneRequest.now = true ∧ Broker.Readable m) ∧
      ∀ service : Service, withoutBatch.workerRound.run
        (World.handle service withoutBatch.queue.visibilityTimeoutSecs) oneRequest =
          (oneRequest, .ok 0) :=
  ⟨by decide, ⟨_, List.mem_cons_self, by decide, _, Envelope.parse_write _⟩, fun _ => rfl⟩

end Config

end HearingRelay
