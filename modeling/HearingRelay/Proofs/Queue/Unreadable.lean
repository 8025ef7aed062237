import HearingRelay.Proofs.Queue.Receipts

/-!
Polls that meet a payload which is not an envelope. A poll takes the leases one
by one and reads each message behind its lease, so it ends with the first
message that it cannot read: those up to there have lost a delivery and are
hidden for the visibility timeout, and none of them is handed out. The messages
behind stay as they are.
-/

namespace HearingRelay.Broker

def Readable (m : Queued) : Prop := ∃ envelope, Envelope.parse m.payload = .ok envelope

def due (b : Broker) (queue : String) (now : Int) (limit : Nat) : List Queued :=
  (b.visible queue now).take limit

structure Takes (b : Broker) (deadline : Int) (taken : List Queued) (b' : Broker) : Prop where
  /-- Each of them is leased once, under a new receipt. -/
  leased : ∀ m ∈ taken, ∃ serial, b.issued ≤ serial ∧
    m.lease (.issued serial) deadline ∈ b'.messages
  others : ∀ m ∈ b.messages, m ∉ taken → m ∈ b'.messages
  /-- There are no other messages, and contents stay. -/
  rewrites : b.Rewrites b'

/-- A message whose lease is taken by a poll that does not hand it out. -/
def Wastes (b b' : Broker) (answer : Except QueueError (List Leased)) (m : Queued) : Prop :=
  m ∈ b.messages ∧ m ∉ b'.messages ∧
    ∀ batch, answer = .ok batch → ∀ l ∈ batch, (l.queue, l.brokerId) ≠ (m.queue, m.id)

theorem lease_ne (m : Queued) (receipt : Receipt) (deadline : Int) :
    m.lease receipt deadline ≠ m := by
  intro hsame
  have hcount : m.receiveCount + 1 = m.receiveCount := congrArg Queued.receiveCount hsame
  omega

namespace Takes

variable {b b' : Broker} {deadline : Int} {taken : List Queued}

theorem nil (b : Broker) (deadline : Int) : b.Takes deadline [] b :=
  ⟨by simp, fun _ hm _ => hm, .refl b⟩

/-- The first message is leased, and then the others. -/
theorem cons (hkeys : b.keys.Nodup) {m : Queued} (hm : m ∈ b.messages)
    (hnew : ∀ n ∈ taken, n.queue = m.queue → n.id ≠ m.id)
    (h : (b.leased m deadline).Takes deadline taken b') : b.Takes deadline (m :: taken) b' := by
  refine ⟨?_, ?_, (leased_rewrites b m deadline).trans h.rewrites⟩
  · intro n hn
    rcases List.mem_cons.mp hn with rfl | hn
    · refine ⟨b.issued, Nat.le_refl _, h.others _ (mem_update_self hm) fun hagain => ?_⟩
      exact hnew _ hagain rfl rfl
    · obtain ⟨serial, hle, hleased⟩ := h.leased n hn
      exact ⟨serial, Nat.le_of_succ_le hle, hleased⟩
  · intro n hn hnot
    obtain ⟨hne, hrest⟩ := List.ne_and_not_mem_of_not_mem_cons hnot
    refine h.others n ((mem_leased_of_ne fun hqueue hid => ?_).mpr hn) hrest
    exact hne (eq_of_key_eq hkeys hn hm hqueue hid)

/-- A message is as it was exactly when its lease was not taken. -/
theorem mem_iff (hkeys : b.keys.Nodup) (h : b.Takes deadline taken b') {m : Queued}
    (hm : m ∈ b.messages) : m ∈ b'.messages ↔ m ∉ taken := by
  refine ⟨fun hafter htaken => ?_, h.others m hm⟩
  obtain ⟨serial, _, hleased⟩ := h.leased m htaken
  have hsame := eq_of_key_eq (h.rewrites.keys_eq ▸ hkeys) hleased hafter rfl rfl
  exact lease_ne m _ deadline hsame

end Takes

inductive Polled (b : Broker) (deadline : Int) :
    List Queued → Broker × Except QueueError (List Leased) → Prop
  | delivered (ms : List Queued) (b' : Broker) (batch : List Leased)
      (readable : ∀ m ∈ ms, Readable m) (takes : b.Takes deadline ms b')
      (handed : batch.map (fun l => (l.queue, l.brokerId)) = ms.map fun m => (m.queue, m.id)) :
      Polled b deadline ms (b', .ok batch)
  | aborted (before : List Queued) (m : Queued) (rest : List Queued) (b' : Broker)
      (e : Json.Error) (readable : ∀ n ∈ before, Readable n)
      (unreadable : Envelope.parse m.payload = .error e)
      (takes : b.Takes deadline (before ++ [m]) b') :
      Polled b deadline (before ++ m :: rest) (b', .error (.serialization e))

/-- A message that can be read passes on what becomes of the others. -/
theorem Polled.cons {b : Broker} (hkeys : b.keys.Nodup) {deadline : Int} {m : Queued}
    (hm : m ∈ b.messages) {rest : List Queued}
    (hnew : ∀ n ∈ rest, n.queue = m.queue → n.id ≠ m.id)
    (hread : Readable m)
    (h : (b.leased m deadline).Polled deadline rest
      ((b.leased m deadline).leaseAll deadline rest)) :
    b.Polled deadline (m :: rest) (b.leaseAll deadline (m :: rest)) := by
  obtain ⟨envelope, hparse⟩ := hread
  rw [leaseAll_cons, hparse]
  dsimp only
  generalize (b.leased m deadline).leaseAll deadline rest = outcome at h ⊢
  cases h with
  | delivered _ b' batch readable takes handed =>
    refine .delivered _ b' _ ?_ (takes.cons hkeys hm hnew) ?_
    · exact List.forall_mem_cons.mpr ⟨⟨envelope, hparse⟩, readable⟩
    · rw [List.map_cons, List.map_cons, handed]
  | aborted before n after b' e readable unreadable takes =>
    have htaken : ∀ k ∈ before ++ [n], k.queue = m.queue → k.id ≠ m.id := by
      intro k hk
      refine hnew k ?_
      rcases List.mem_append.mp hk with hk | hk
      · exact List.mem_append_left _ hk
      · exact List.mem_append_right _ (List.mem_singleton.mp hk ▸ List.mem_cons_self)
    refine .aborted (m :: before) n after b' e ?_ unreadable (takes.cons hkeys hm htaken)
    exact List.forall_mem_cons.mpr ⟨⟨envelope, hparse⟩, readable⟩

theorem leaseAll_polled {b : Broker} (hkeys : b.keys.Nodup) {queue : String} (deadline : Int)
    {ms : List Queued} (hms : ∀ m ∈ ms, m ∈ b.messages ∧ m.queue = queue)
    (hdistinct : (ms.map (·.id)).Nodup) : b.Polled deadline ms (b.leaseAll deadline ms) := by
  induction ms generalizing b with
  | nil => exact .delivered [] b [] (by simp) (.nil b deadline) rfl
  | cons m rest ih =>
    obtain ⟨hm, _⟩ := hms m List.mem_cons_self
    have hnodup : m.id ∉ rest.map (·.id) ∧ (rest.map (·.id)).Nodup := List.nodup_cons.mp hdistinct
    have hnew : ∀ n ∈ rest, n.queue = m.queue → n.id ≠ m.id :=
      fun n hn _ hid => hnodup.1 (hid ▸ List.mem_map_of_mem hn)
    have hleased : (b.leased m deadline).keys.Nodup :=
      (leased_rewrites b m deadline).keys_eq ▸ hkeys
    have hrest : ∀ n ∈ rest, n ∈ (b.leased m deadline).messages ∧ n.queue = queue :=
      mem_leased_of_notMem (fun n hn => hms n (List.mem_cons_of_mem m hn)) hnodup.1
    cases hparse : Envelope.parse m.payload with
    | error e =>
      rw [leaseAll_cons, hparse]
      refine .aborted [] m rest _ e (by simp) hparse ?_
      exact (Takes.nil (b.leased m deadline) deadline).cons hkeys hm (by simp)
    | ok envelope => exact .cons hkeys hm hnew ⟨envelope, hparse⟩ (ih hleased hrest hnodup.2)

theorem poll_polled {b : Broker} (hkeys : b.keys.Nodup) {q : Consumer} (hrunning : q ∉ b.stopped)
    (now : Int) (limit : Nat) :
    b.Polled (now + q.visibilitySeconds * 1000) (b.due q.queue now limit) (b.poll q now limit) := by
  obtain ⟨hms, hdistinct⟩ := visible_spec hkeys q.queue now limit
  rw [poll, if_neg (by simpa using hrunning)]
  exact leaseAll_polled hkeys _ hms hdistinct

/-- Deliveries are wasted by the polls that an unreadable payload ends. -/
theorem Polled.wastes_iff {b : Broker} (hkeys : b.keys.Nodup) {deadline : Int} {ms : List Queued}
    (hms : ∀ m ∈ ms, m ∈ b.messages) {outcome : Broker × Except QueueError (List Leased)}
    (h : b.Polled deadline ms outcome) :
    (∃ m, b.Wastes outcome.1 outcome.2 m) ↔ ∃ m ∈ ms, ¬ Readable m := by
  cases h with
  | delivered _ b' batch readable takes handed =>
    constructor
    · rintro ⟨m, hm, hgone, hnot⟩
      have htaken : m ∈ ms := by
        by_contra hleft
        exact hgone ((takes.mem_iff hkeys hm).mpr hleft)
      have hkey : (m.queue, m.id) ∈ batch.map fun l => (l.queue, l.brokerId) :=
        handed ▸ List.mem_map.mpr ⟨m, htaken, rfl⟩
      obtain ⟨l, hl, hsame⟩ := List.mem_map.mp hkey
      exact absurd hsame (hnot batch rfl l hl)
    · rintro ⟨m, hm, hunreadable⟩
      exact absurd (readable m hm) hunreadable
  | aborted before m rest b' e readable unreadable takes =>
    have hmem : m ∈ b.messages := hms m (List.mem_append_right _ List.mem_cons_self)
    constructor
    · rintro -
      refine ⟨m, List.mem_append_right _ List.mem_cons_self, ?_⟩
      rintro ⟨envelope, hparse⟩
      rw [unreadable] at hparse
      cases hparse
    · rintro -
      refine ⟨m, hmem, fun hstays => ?_, fun batch hbatch => by cases hbatch⟩
      exact (takes.mem_iff hkeys hmem).mp hstays
        (List.mem_append_right _ (List.mem_singleton_self m))

/-- A poll by a consumer that was stopped touches nothing. Any other poll hands out
all that it leases, or it ends at a message that it cannot read, has taken the
leases up to there and hands out nothing. So deliveries are wasted exactly when
one of the messages that are due cannot be read. -/
theorem poll_wastes_iff {b : Broker} (hkeys : b.keys.Nodup) (q : Consumer) (now : Int)
    (limit : Nat) :
    (q ∈ b.stopped → b.poll q now limit = (b, .error .stopped)) ∧
    (q ∉ b.stopped →
      b.Polled (now + q.visibilitySeconds * 1000) (b.due q.queue now limit) (b.poll q now limit) ∧
      ((∃ m, b.Wastes (b.poll q now limit).1 (b.poll q now limit).2 m) ↔
        ∃ m ∈ b.due q.queue now limit, ¬ Readable m)) := by
  constructor
  · intro hstopped
    rw [poll, if_pos (by simpa using hstopped)]
  · intro hrunning
    have hpolled := poll_polled hkeys hrunning now limit
    have hms : ∀ m ∈ b.due q.queue now limit, m ∈ b.messages :=
      fun m hm => ((visible_spec hkeys q.queue now limit).1 m hm).1
    exact ⟨hpolled, hpolled.wastes_iff hkeys hms⟩

/-- A message that can be read, and behind it one that cannot. -/
def spoiled : Broker :=
  { empty with messages := [
      ⟨"inbound", "a", Envelope.write ⟨"a", .empty, "\x7b\x7d"⟩, none, 0, 0, 0⟩,
      ⟨"inbound", "b", "not json", none, 0, 0, 0⟩] }

/-- The unreadable message is due. -/
theorem poll_wastes_iff_spoiled :
    let q : Consumer := ⟨"inbound", 0, 30⟩
    spoiled.keys.Nodup ∧ q ∉ spoiled.stopped ∧
      ∃ m, spoiled.Wastes (spoiled.poll q 0 10).1 (spoiled.poll q 0 10).2 m := by
  intro q
  have hkeys : spoiled.keys.Nodup := by decide
  have hrunning : q ∉ spoiled.stopped := by decide
  have hdue : (⟨"inbound", "b", "not json", none, 0, 0, 0⟩ : Queued) ∈
      spoiled.due "inbound" 0 10 := by decide
  have hunreadable : Envelope.parse "not json" = .error ⟨.expectedIdent, 1, 2⟩ := by
    decide +kernel
  refine ⟨hkeys, hrunning, ((poll_wastes_iff hkeys q 0 10).2 hrunning).2.mpr ?_⟩
  refine ⟨_, hdue, ?_⟩
  rintro ⟨envelope, hparse⟩
  rw [hunreadable] at hparse
  cases hparse

/-- The poll fails on the second message and has used up a delivery of the first. -/
theorem readable_delivery_wasted :
    let polled := spoiled.poll ⟨"inbound", 0, 30⟩ 0 10
    ∃ m ∈ spoiled.messages, Readable m ∧ m.receiveCount = 0 ∧
      polled.2 = .error (.serialization ⟨.expectedIdent, 1, 2⟩) ∧
      m.lease (.issued 0) 30000 ∈ polled.1.messages ∧ spoiled.Wastes polled.1 polled.2 m := by
  intro polled
  have hanswer : polled.2 = .error (.serialization ⟨.expectedIdent, 1, 2⟩) := by decide +kernel
  refine ⟨_, List.mem_cons_self, ⟨_, Envelope.parse_write _⟩, rfl, hanswer, by decide +kernel,
    List.mem_cons_self, by decide +kernel, ?_⟩
  intro batch hbatch
  rw [hanswer] at hbatch
  cases hbatch

end HearingRelay.Broker
