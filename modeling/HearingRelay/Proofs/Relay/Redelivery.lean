import HearingRelay.Proofs.Queue.Batch
import HearingRelay.Proofs.Relay.Course
import HearingRelay.Proofs.Relay.Turns

/-!
How often a message comes back. The queue counts the deliveries of a message,
the dispatcher sends it back only below the limit, and the worker settles it
before the next poll. So between two rounds no message of the inbound queue is
leased or has reached the limit, and the number that the dispatcher sees is the
number of times that the message has been handed out. This needs no other user
of the queue, and polls that succeed.
-/

namespace HearingRelay

open World (inboundQueue)

/-- How often a message was handed to the dispatcher since it was accepted, by
the record of its settlements: the worker settles a message after each dispatch.
One that is gone after its settlement is counted anew when its identifier is
accepted again. -/
def timesHanded (id : String) : List Exchange → Nat
  | [] => 0
  | x :: earlier =>
    match x.question with
    | .settle l _ =>
      if l.brokerId = id then
        if (inboundQueue, id) ∈ x.after.broker.keys then timesHanded id earlier + 1 else 0
      else timesHanded id earlier
    | _ => timesHanded id earlier

theorem timesHanded_cons_of_ne {x : Exchange} {id : String}
    (h : ∀ l disposition, x.question = .settle l disposition → l.brokerId ≠ id)
    (earlier : List Exchange) : timesHanded id (x :: earlier) = timesHanded id earlier := by
  rw [timesHanded]
  split
  · next l disposition hquestion => rw [if_neg (h l disposition hquestion)]
  · rfl

theorem timesHanded_cons_settle {x : Exchange} {l : Leased} {disposition : Disposition}
    (h : x.question = .settle l disposition) (earlier : List Exchange) :
    timesHanded l.brokerId (x :: earlier) =
      if (inboundQueue, l.brokerId) ∈ x.after.broker.keys then
        timesHanded l.brokerId earlier + 1 else 0 := by
  rw [timesHanded, h]
  simp

/-- A message that is not leased, with its deliveries counted, below the limit. -/
structure Queued.Rests (limit : Nat) (o : Observed) (m : Queued) : Prop where
  receipt : m.receipt = none
  count : m.receiveCount = timesHanded m.id o.trace
  lt : m.receiveCount < limit

/-- A message in hand: it is live under its receipt, which is on no other, and
this delivery is counted. -/
structure Leased.InHand (limit : Nat) (o : Observed) (l : Leased) : Prop where
  live : ∃ m ∈ o.world.broker.messages, m.queue = inboundQueue ∧ m.id = l.brokerId ∧
    m.receipt = some l.receipt ∧ m.receiveCount = l.deliveryCount
  own : ∀ m ∈ o.world.broker.messages, m.queue = inboundQueue → m.receipt = some l.receipt →
    m.id = l.brokerId
  count : l.deliveryCount = timesHanded l.brokerId o.trace + 1
  le : l.deliveryCount ≤ limit

/-- In a round some messages are settled and some are still in hand; all others
of the inbound queue rest. -/
structure Counted (limit : Nat) (done : List (Leased × Disposition)) (rest : List Leased)
    (o : Observed) : Prop where
  wellFormed : o.world.broker.WellFormed
  distinct : (rest.map (·.brokerId) ++ done.map (·.1.brokerId)).Nodup
  held : ∀ l ∈ rest, l.InHand limit o
  resting : ∀ m ∈ o.world.broker.messages, m.queue = inboundQueue →
    m.id ∉ rest.map (·.brokerId) → m.Rests limit o
  fresh : ∀ id, (inboundQueue, id) ∉ o.world.broker.keys → timesHanded id o.trace = 0
  handed : ∀ x earlier, x :: earlier <:+ o.trace → ∀ l disposition,
    x.question = .settle l disposition →
      l.deliveryCount = timesHanded l.brokerId earlier + 1 ∧ l.deliveryCount ≤ limit
  resolved : ∀ p ∈ done, o.world.broker.Resolved inboundQueue o.world.now p.1 p.2

/-- No message is in hand, and those that were settled do not matter any more. -/
theorem Counted.rested {limit : Nat} {done : List (Leased × Disposition)} {o : Observed}
    (h : Counted limit done [] o) : Counted limit [] [] o where
  wellFormed := h.wellFormed
  distinct := .nil
  held := by simp
  resting := h.resting
  fresh := h.fresh
  handed := h.handed
  resolved := by simp

theorem start_counted (limit : Nat) (now : Int) : Counted limit [] [] (.start (.empty now)) where
  wellFormed := Broker.empty_wellFormed
  distinct := .nil
  held := by simp
  resting := by simp [Observed.start, World.empty, Broker.empty]
  fresh := fun _ _ => rfl
  handed := by
    intro x earlier h
    exact absurd (List.suffix_nil.mp h) (List.cons_ne_nil x earlier)
  resolved := by simp

/-- Questions of other things leave the inbound messages, the dead letters and
the clock as they are. -/
theorem Request.LeavesInbox.messages_iff {q : Request} (hq : q.LeavesInbox) (service : Service)
    (visibility : Nat) (o : Observed) {m : Queued} (hm : m.queue = inboundQueue) :
    m ∈ (o.ask service visibility q).world.broker.messages ↔ m ∈ o.world.broker.messages := by
  cases q with
  | publish hearing report =>
    have hother : World.egressQueue ≠ inboundQueue := by decide
    refine Broker.mem_publish.trans (or_iff_left ?_)
    rintro ⟨_, rfl⟩
    exact hother hm
  | poll | settle => exact hq.elim
  | _ => rfl

theorem Request.LeavesInbox.deadLetters_eq {q : Request} (hq : q.LeavesInbox) (service : Service)
    (visibility : Nat) (o : Observed) :
    (o.ask service visibility q).world.broker.deadLetters = o.world.broker.deadLetters := by
  cases q with
  | publish hearing report => exact Broker.publish_deadLetters _ _ _ _
  | poll | settle => exact hq.elim
  | _ => rfl

theorem Dispatch.deliveryCount_lt_of_retry {service : Service} {visibility : Nat}
    {settings : DispatchSettings} {e : Envelope} {deliveryCount : Nat} {o : Observed}
    (h : ((dispatch settings e deliveryCount).run (Observed.handle service visibility) o).2 =
      .retry) : deliveryCount < settings.maxDeliveries := by
  cases hevent : eventOf e with
  | error err =>
    have hconclusion : conclusion settings e.body deliveryCount (.error err) = .retry := by
      rw [run_dispatch_unreadable hevent] at h
      exact h
    exact lt_of_conclusion hconclusion
  | ok event =>
    rw [run_dispatch hevent] at h
    exact lt_of_conclusion h

/-- A question that settles nothing leaves the numbers of deliveries as they are. -/
theorem timesHanded_ask (service : Service) (visibility : Nat) (o : Observed) {q : Request}
    (hq : ∀ l disposition, q ≠ .settle l disposition) (id : String) :
    timesHanded id (o.ask service visibility q).trace = timesHanded id o.trace :=
  timesHanded_cons_of_ne (fun l disposition hl => absurd hl (hq l disposition)) _

namespace Counted

variable (service : Service) (visibility : Nat) {limit : Nat}
  {done : List (Leased × Disposition)} {rest : List Leased} {o : Observed}

/-- The record of settlements goes on with one that was counted. -/
theorem handed_ask (h : Counted limit done rest o) {q : Request}
    (hq : ∀ l disposition, q = .settle l disposition →
      l.deliveryCount = timesHanded l.brokerId o.trace + 1 ∧ l.deliveryCount ≤ limit) :
    ∀ x earlier, x :: earlier <:+ (o.ask service visibility q).trace → ∀ l disposition,
      x.question = .settle l disposition →
        l.deliveryCount = timesHanded l.brokerId earlier + 1 ∧ l.deliveryCount ≤ limit := by
  intro x earlier hsuffix
  rw [Observed.ask_trace] at hsuffix
  rcases List.suffix_cons_iff.mp hsuffix with hnew | hold
  · obtain ⟨rfl, rfl⟩ := List.cons.inj hnew
    exact hq
  · exact h.handed x earlier hold

/-- A question that leaves the inbound queue alone. -/
theorem ask_other (h : Counted limit done rest o) {q : Request} (hq : q.LeavesInbox) :
    Counted limit done rest (o.ask service visibility q) := by
  have hmem : ∀ m : Queued, m.queue = inboundQueue →
      (m ∈ (o.ask service visibility q).world.broker.messages ↔ m ∈ o.world.broker.messages) :=
    fun m => hq.messages_iff service visibility o
  have hsettle : ∀ l disposition, q ≠ .settle l disposition := by
    rintro l disposition rfl
    exact hq
  have hcount := timesHanded_ask service visibility o hsettle
  refine ⟨(World.handle_broker service visibility h.wellFormed q).2, h.distinct, ?_, ?_, ?_, ?_, ?_⟩
  · intro l hl
    obtain ⟨⟨m, hm, hqueue, hlive⟩, hown, hnumber, hle⟩ := h.held l hl
    refine ⟨⟨m, (hmem m hqueue).mpr hm, hqueue, hlive⟩, ?_, (hcount _).symm ▸ hnumber, hle⟩
    exact fun m' hm' hqueue' => hown m' ((hmem m' hqueue').mp hm') hqueue'
  · intro m hm hqueue hid
    have hrests := h.resting m ((hmem m hqueue).mp hm) hqueue hid
    exact ⟨hrests.receipt, (hcount _).symm ▸ hrests.count, hrests.lt⟩
  · intro id hfree
    rw [hcount]
    exact h.fresh id (mt (Broker.mem_keys_of_messages fun m hqueue _ => (hmem m hqueue).mpr) hfree)
  · exact h.handed_ask service visibility fun l disposition hl => absurd hl (hsettle l disposition)
  · intro p hp
    rw [Observed.ask_now]
    refine (h.resolved p hp).congr (fun n hqueue _ => hmem n hqueue) fun d hd _ _ => ?_
    rw [hq.deadLetters_eq]
    exact hd

/-- A poll that succeeds takes the messages of its batch in hand. -/
theorem ask_poll (h : Counted limit [] [] o) (hlimit : limit ≤ Bounds.maxUInt32) {size : Nat}
    {batch : List Leased} (hok : (o.world.poll visibility size).2 = .ok batch) :
    Counted limit [] batch (o.ask service visibility (.poll size)) := by
  have hbroker := Broker.poll_handsOut h.wellFormed hok
  have hkeys : (o.ask service visibility (.poll size)).world.broker.keys = o.world.broker.keys :=
    (Broker.poll_rewrites _ _ _ _).keys_eq
  have hcount := timesHanded_ask service visibility o (q := .poll size) (by simp)
  refine ⟨(World.handle_broker service visibility h.wellFormed _).2, ?_, ?_, ?_, ?_, ?_, by simp⟩
  · simpa using hbroker.distinct
  · intro l hl
    obtain ⟨m, hm, hqueue, hid, hnumber, hleased⟩ := hbroker.leased l hl
    obtain ⟨_, hbefore, hlt⟩ := h.resting m hm hqueue (by simp)
    rw [hid] at hbefore
    have hnow : l.deliveryCount = timesHanded l.brokerId o.trace + 1 := by
      rw [hnumber, hbefore]
      unfold Bounds.wrapUInt32
      unfold Bounds.maxUInt32 at hlimit
      omega
    have hcounted : m.receiveCount + 1 = l.deliveryCount := by omega
    have hle : l.deliveryCount ≤ limit := by omega
    refine ⟨⟨_, hleased, hqueue, hid, rfl, hcounted⟩, ?_, (hcount _).symm ▸ hnow, hle⟩
    exact fun m' hm' _ hreceipt => (hbroker.own l hl m' hm' hreceipt).2
  · intro m hm hqueue hid
    have hrests := h.resting m ((hbroker.others m fun _ => hid).mp hm) hqueue (by simp)
    exact ⟨hrests.receipt, (hcount _).symm ▸ hrests.count, hrests.lt⟩
  · intro id hfree
    rw [hcount]
    exact h.fresh id (hkeys ▸ hfree)
  · exact h.handed_ask service visibility fun l disposition hl => by cases hl

section Settle

variable {l : Leased} (disposition : Disposition)

theorem timesHanded_settle_of_ne (o : Observed) {id : String} (hne : id ≠ l.brokerId) :
    timesHanded id (o.ask service visibility (.settle l disposition)).trace =
      timesHanded id o.trace := by
  refine timesHanded_cons_of_ne (fun l' disposition' hl' hsame => hne ?_) _
  obtain rfl : l = l' := by injection hl'
  exact hsame.symm

/-- A settlement applies to the message that is in hand. -/
theorem settled_of_inHand (hkeys : o.world.broker.keys.Nodup) (hl : l.InHand limit o) :
    ∃ m ∈ o.world.broker.messages, m.queue = inboundQueue ∧ m.id = l.brokerId ∧
      m.receiveCount = l.deliveryCount ∧ o.world.broker.Settled m o.world.now disposition
        (o.ask service visibility (.settle l disposition)).world.broker := by
  obtain ⟨m, hm, hqueue, hid, hreceipt, hnumber⟩ := hl.live
  have hown : ∀ n ∈ o.world.broker.messages, n.queue = m.queue → n.receipt = some l.receipt →
      n.id = m.id := fun n hn hsame hleased =>
    (hl.own n hn (hsame.trans hqueue) hleased).trans hid.symm
  have hsettled := Broker.settle_settled hkeys hm hreceipt hown o.world.now disposition
  rw [hqueue] at hsettled
  exact ⟨m, hm, hqueue, hid, hnumber, hsettled⟩

variable {service visibility disposition} {m : Queued} (hqueue : m.queue = inboundQueue)
  (hid : m.id = l.brokerId) (hsettled : o.world.broker.Settled m o.world.now disposition
    (o.ask service visibility (.settle l disposition)).world.broker)

include hid hsettled

theorem mem_settle_iff {n : Queued} (hne : n.id ≠ l.brokerId) :
    n ∈ (o.ask service visibility (.settle l disposition)).world.broker.messages ↔
      n ∈ o.world.broker.messages :=
  hsettled.mem_iff_of_ne fun hsame => hne ((Prod.mk.inj hsame).2.trans hid)

/-- Another message stays in hand. -/
theorem inHand_settle {l' : Leased} (hl' : l'.InHand limit o) (hne : l'.brokerId ≠ l.brokerId) :
    l'.InHand limit (o.ask service visibility (.settle l disposition)) := by
  obtain ⟨⟨m', hm', hqueue', hid', hlive⟩, hown, hcount, hle⟩ := hl'
  have hkept := (mem_settle_iff hid hsettled (hid' ▸ hne)).mpr hm'
  have hsame := timesHanded_settle_of_ne service visibility disposition o hne
  refine ⟨⟨m', hkept, hqueue', hid', hlive⟩, ?_, hsame.symm ▸ hcount, hle⟩
  intro n hn hnqueue hnreceipt
  rcases (hsettled.mem_iff n).mp hn with ⟨hbefore, _⟩ | ⟨_, rfl⟩
  · exact hown n hbefore hnqueue hnreceipt
  · cases hnreceipt

include hqueue

/-- A message that is given back below the limit rests with one more delivery counted. -/
theorem returned_rests (hnumber : m.receiveCount = l.deliveryCount) (hl : l.InHand limit o)
    (hgiven : disposition = .retry) (hlt : l.deliveryCount < limit) :
    (Broker.returned o.world.now m).Rests limit
      (o.ask service visibility (.settle l disposition)) := by
  have hreturned := (hsettled.mem_iff _).mpr (Or.inr ⟨hgiven, rfl⟩)
  have hlive : (inboundQueue, l.brokerId) ∈
      (o.ask service visibility (.settle l disposition)).world.broker.keys :=
    Broker.mem_keys.mpr ⟨_, hreturned, Prod.ext hqueue hid⟩
  have hnow : timesHanded l.brokerId (o.ask service visibility (.settle l disposition)).trace =
      l.deliveryCount := by
    rw [Observed.ask_trace, timesHanded_cons_settle rfl, Observed.exchange_after, if_pos hlive,
      hl.count]
  refine ⟨rfl, ?_, ?_⟩
  · change m.receiveCount = timesHanded m.id _
    rw [hid, hnow, hnumber]
  · change m.receiveCount < limit
    omega

end Settle

/-- A message in hand is settled. It may be given back only below the limit. -/
theorem ask_settle {l : Leased} (h : Counted limit done (l :: rest) o) {disposition : Disposition}
    (hretry : disposition = .retry → l.deliveryCount < limit) :
    Counted limit ((l, disposition) :: done) rest
      (o.ask service visibility (.settle l disposition)) := by
  have hl := h.held l List.mem_cons_self
  obtain ⟨m, hm, hqueue, hid, hnumber, hsettled⟩ :=
    settled_of_inHand service visibility disposition h.wellFormed.keys_nodup hl
  have hdistinct : l.brokerId ∉ rest.map (·.brokerId) ++ done.map (·.1.brokerId) ∧
      (rest.map (·.brokerId) ++ done.map (·.1.brokerId)).Nodup := List.nodup_cons.mp h.distinct
  refine ⟨(World.handle_broker service visibility h.wellFormed _).2,
    List.nodup_middle.mpr h.distinct, ?_, ?_, ?_, ?_, ?_⟩
  · intro l' hl'
    have hne : l'.brokerId ≠ l.brokerId := fun hsame =>
      hdistinct.1 (List.mem_append_left _ (hsame ▸ List.mem_map_of_mem hl'))
    exact inHand_settle hid hsettled (h.held l' (List.mem_cons_of_mem l hl')) hne
  · intro n hn hnqueue hnid
    -- A message that rests now rested before, or is the one that was given back.
    rcases (hsettled.mem_iff n).mp hn with ⟨hbefore, hkey⟩ | ⟨hgiven, rfl⟩
    · have hne : n.id ≠ l.brokerId := fun hsame =>
        hkey (Prod.ext (hnqueue.trans hqueue.symm) (hsame.trans hid.symm))
      have hrests := h.resting n hbefore hnqueue (by simpa [hne] using hnid)
      have hsame := timesHanded_settle_of_ne service visibility disposition o hne
      exact ⟨hrests.receipt, hsame.symm ▸ hrests.count, hrests.lt⟩
    · exact returned_rests hqueue hid hsettled hnumber hl hgiven (hretry hgiven)
  · intro id hfree
    by_cases hsame : id = l.brokerId
    · subst hsame
      rw [Observed.ask_trace, timesHanded_cons_settle rfl, Observed.exchange_after, if_neg hfree]
    · rw [timesHanded_settle_of_ne service visibility disposition o hsame]
      refine h.fresh id (mt (Broker.mem_keys_of_messages fun n _ hnid => ?_) hfree)
      exact (mem_settle_iff hid hsettled (hnid ▸ hsame)).mpr
  · refine h.handed_ask service visibility fun l' disposition' hl' => ?_
    obtain rfl : l = l' := by injection hl'
    exact ⟨hl.count, hl.le⟩
  · intro p hp
    rw [Observed.ask_now]
    rcases List.mem_cons.mp hp with rfl | hp
    · rw [← hqueue]
      exact hsettled.resolved hid hnumber
    · have hne : p.1.brokerId ≠ l.brokerId := fun hsame =>
        hdistinct.1 (List.mem_append_right _ (hsame ▸ List.mem_map_of_mem hp))
      refine (h.resolved p hp).congr (fun n _ hnid => ?_) fun d hd _ hdid => ?_
      · exact mem_settle_iff hid hsettled (hnid ▸ hne)
      · refine hsettled.letters d hd fun hkey => hne ?_
        exact hdid.symm.trans ((Prod.mk.inj hkey).2.trans hid)

/-- A program that leaves the inbound queue alone. -/
theorem run_other (h : Counted limit done rest o) {α : Type} {x : Relay α}
    (hx : x.Only Request.LeavesInbox) :
    Counted limit done rest (x.run (Observed.handle service visibility) o).1 :=
  hx.run (I := fun o : Observed => Counted limit done rest o)
    (fun _ _ hq h => h.ask_other service visibility hq) h

/-- A batch is dispatched and settled, and each message of it is resolved. -/
theorem handleAll {settings : DispatchSettings} (hsettings : settings.maxDeliveries = limit)
    (h : Counted limit done rest o) :
    ∃ done', Counted limit done' []
        ((Worker.handleAll settings rest).run (Observed.handle service visibility) o).1 ∧
      done ⊆ done' ∧ ∀ l ∈ rest, ∃ disposition, (l, disposition) ∈ done' := by
  induction rest generalizing done o with
  | nil => exact ⟨done, h, List.Subset.refl done, by simp⟩
  | cons l rest ih =>
    have hdispatched := h.run_other service visibility
      (Dispatch.dispatch_only settings l.envelope l.deliveryCount)
    have hretry : ((dispatch settings l.envelope l.deliveryCount).run
        (Observed.handle service visibility) o).2 = .retry → l.deliveryCount < limit := by
      intro hgiven
      have hlt := Dispatch.deliveryCount_lt_of_retry hgiven
      omega
    obtain ⟨done', hcounted, hkept, hall⟩ := ih (hdispatched.ask_settle service visibility hretry)
    unfold Worker.handleAll
    rw [Program.run_bind, Program.run_bind]
    refine ⟨done', hcounted, fun p hp => hkept (List.mem_cons_of_mem _ hp), ?_⟩
    intro l' hl'
    rcases List.mem_cons.mp hl' with rfl | hl'
    · exact ⟨_, hkept List.mem_cons_self⟩
    · exact hall l' hl'

/-- A round whose poll succeeds resolves every message that it polled. -/
theorem workerRound (h : Counted limit [] [] o) (hlimit : limit ≤ Bounds.maxUInt32)
    {settings : DispatchSettings} (hsettings : settings.maxDeliveries = limit) {size : Nat}
    (hfaults : ∀ x ∈ ((Worker.runOnce settings size).run
      (Observed.handle service visibility) o).1.trace, x.queueFails = false) :
    ∃ done, Counted limit done []
        ((Worker.runOnce settings size).run (Observed.handle service visibility) o).1 ∧
      ∀ batch, (o.world.poll visibility size).2 = .ok batch →
        ∀ l ∈ batch, ∃ disposition, (l, disposition) ∈ done := by
  rw [Worker.run_runOnce] at hfaults ⊢
  cases hanswer : (o.world.poll visibility size).2 with
  | error e =>
    rw [hanswer] at hfaults
    have hfails := hfaults (o.exchange service visibility (.poll size)) List.mem_cons_self
    rw [Observed.queueFails_poll service visibility hanswer] at hfails
    cases hfails
  | ok batch =>
    obtain ⟨done, hcounted, _, hall⟩ := (h.ask_poll service visibility hlimit hanswer).handleAll
      service visibility hsettings
    refine ⟨done, hcounted, ?_⟩
    intro batch' hsame
    obtain rfl := Except.ok.inj hsame
    exact hall

theorem publish (h : Counted limit [] [] o) (hlimit : 1 ≤ limit) (e : Envelope) :
    Counted limit [] [] (o.publish e) := by
  refine ⟨Broker.publish_wellFormed h.wellFormed _ _ _, .nil, by simp, ?_, ?_, h.handed, by simp⟩
  · intro m hm hqueue hid
    rcases Broker.mem_publish.mp hm with hold | ⟨hfree, rfl⟩
    · have hrests := h.resting m hold hqueue hid
      exact ⟨hrests.receipt, hrests.count, hrests.lt⟩
    · have hnone := h.fresh e.id hfree
      refine ⟨rfl, ?_, ?_⟩
      · change (0 : Int) = timesHanded e.id o.trace
        rw [hnone]
        rfl
      · change (0 : Int) < limit
        omega
  · intro id hfree
    refine h.fresh id (mt (Broker.mem_keys_of_messages fun m _ _ hm => ?_) hfree)
    exact Broker.mem_publish.mpr (Or.inl hm)

theorem setClock (h : Counted limit [] [] o) (now : Int) :
    Counted limit [] [] (o.setClock now) where
  wellFormed := h.wellFormed
  distinct := .nil
  held := by simp
  resting := fun m hm hqueue hid =>
    have hrests := h.resting m hm hqueue hid
    ⟨hrests.receipt, hrests.count, hrests.lt⟩
  fresh := h.fresh
  handed := h.handed
  resolved := by simp

/-- Between two turns no message is in hand. -/
theorem turn (h : Counted limit [] [] o) (hpositive : 1 ≤ limit)
    (hlimit : limit ≤ Bounds.maxUInt32) {turn : Turn}
    (hsettings : ∀ settings size, turn = .work settings size → settings.maxDeliveries = limit)
    (hfaults : ∀ x ∈ (o.turn service visibility turn).trace, x.queueFails = false) :
    Counted limit [] [] (o.turn service visibility turn) := by
  cases turn with
  | publish e => exact h.publish hpositive e
  | work settings size =>
    obtain ⟨done, hcounted, _⟩ :=
      h.workerRound service visibility hlimit (hsettings settings size rfl) hfaults
    exact hcounted.rested
  | schedule settings timeout =>
    exact h.run_other service visibility (Scheduler.runOnce_only settings timeout)
  | clock now => exact h.setClock now

theorem after (h : Counted limit [] [] o) (hpositive : 1 ≤ limit)
    (hlimit : limit ≤ Bounds.maxUInt32) {turns : List Turn}
    (hsettings : ∀ settings size, .work settings size ∈ turns → settings.maxDeliveries = limit)
    (hfaults : ∀ x ∈ (o.after service visibility turns).trace, x.queueFails = false) :
    Counted limit [] [] (o.after service visibility turns) := by
  induction turns generalizing o with
  | nil => exact h
  | cons turn rest ih =>
    have hkept := Observed.after_trace_suffix service visibility
      (o.turn service visibility turn) rest
    have hturn : Counted limit [] [] (o.turn service visibility turn) := by
      refine h.turn service visibility hpositive hlimit ?_ fun x hx => hfaults x (hkept.subset hx)
      rintro settings size rfl
      exact hsettings settings size List.mem_cons_self
    refine ih hturn (fun settings size hmem => ?_) hfaults
    exact hsettings settings size (List.mem_cons_of_mem turn hmem)

end Counted

def refusing : Service := fun _ _ => some (.error (.rejected 503 none none))

def twoDeliveries : DispatchSettings := { maxDeliveries := 2, timeout := .ofMillis 5000 }

def refusedOnce : List Turn :=
  [.publish ⟨"a", Properties.ofList [("message_type", "REQUEST_HEARING"), ("hearing_id", "1")],
    "\x7b\x7d"⟩, .work twoDeliveries 10]

end HearingRelay
