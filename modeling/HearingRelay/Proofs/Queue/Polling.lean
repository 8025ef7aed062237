import HearingRelay.Proofs.Queue.Unreadable
import Mathlib.Algebra.Ring.Int.Defs
import Mathlib.Algebra.Ring.Nat

/-!
What a poll hands out, and for how long it keeps that from other polls. A poll
takes the oldest visible messages, as many as it may, and counts one more
delivery of each. From then on no poll that reads the clock before the lease
ends sees the message, however the clock moves and whoever polls, unless the
message is given back, or settled and published anew.
-/

namespace HearingRelay

namespace Queued

theorem olderOrSame_iff {m n : Queued} : m.olderOrSame n = true ↔
    m.createdAt < n.createdAt ∨ (m.createdAt = n.createdAt ∧ m.visibleAt ≤ n.visibleAt) := by
  simp [olderOrSame]

theorem olderOrSame_total (m n : Queued) : m.olderOrSame n = true ∨ n.olderOrSame m = true := by
  rw [olderOrSame_iff, olderOrSame_iff]
  omega

theorem olderOrSame_trans (m n k : Queued) (hmn : m.olderOrSame n = true)
    (hnk : n.olderOrSame k = true) : m.olderOrSame k = true := by
  rw [olderOrSame_iff] at *
  omega

/-- How a message is handed out: its next delivery is counted in 32 bits. -/
structure DeliveredAs (m : Queued) (l : Leased) : Prop where
  queue : l.queue = m.queue
  id : l.brokerId = m.id
  count : l.deliveryCount = Bounds.wrapUInt32 (m.receiveCount + 1)

end Queued

def QueueCall.polls : QueueCall → Bool
  | .poll _ => true
  | _ => false

namespace Broker

/-- The visible messages of a queue that come first, as many as the limit allows. -/
structure Selects (b : Broker) (queue : String) (now : Int) (limit : Nat) (taken : List Queued) :
    Prop where
  visible : ∀ m ∈ taken, m ∈ b.messages ∧ m.isVisible queue now = true
  distinct : taken.Nodup
  length : taken.length = min limit (b.messages.countP (·.isVisible queue now))
  oldest_first : taken.Pairwise fun m n => m.createdAt ≤ n.createdAt
  left_newer : ∀ m ∈ taken, ∀ n ∈ b.messages, n.isVisible queue now = true → n ∉ taken →
    m.createdAt ≤ n.createdAt

section Selection

variable {b : Broker} {queue : String} {now : Int}

theorem visible_sorted (b : Broker) (queue : String) (now : Int) :
    (b.visible queue now).Pairwise fun m n => m.createdAt ≤ n.createdAt := by
  refine (Sorting.sort_pairwise Queued.olderOrSame_total Queued.olderOrSame_trans _).imp ?_
  intro m n hle
  rw [Queued.olderOrSame_iff] at hle
  omega

theorem mem_visible {m : Queued} :
    m ∈ b.visible queue now ↔ m ∈ b.messages ∧ m.isVisible queue now = true := by
  rw [visible, Sorting.mem_sort, List.mem_filter]

theorem length_visible (b : Broker) (queue : String) (now : Int) :
    (b.visible queue now).length = b.messages.countP (·.isVisible queue now) := by
  rw [visible, (Sorting.sort_perm _ _).length_eq, List.countP_eq_length_filter]

theorem length_due (b : Broker) (queue : String) (now : Int) (limit : Nat) :
    (b.due queue now limit).length = min limit (b.messages.countP (·.isVisible queue now)) := by
  rw [due, List.length_take, length_visible]

/-- What is due is the front of the visible messages. -/
theorem due_selects (hkeys : b.keys.Nodup) (queue : String) (now : Int) (limit : Nat) :
    b.Selects queue now limit (b.due queue now limit) where
  visible m hm := mem_visible.mp (List.mem_of_mem_take hm)
  distinct := List.Nodup.of_map _ (visible_spec hkeys queue now limit).2
  length := length_due b queue now limit
  oldest_first := (visible_sorted b queue now).sublist (List.take_sublist limit _)
  left_newer := by
    intro m hm n hn hvisible hleft
    have hsplit := List.take_append_drop limit (b.visible queue now)
    have hsorted := visible_sorted b queue now
    have hmem : n ∈ b.visible queue now := mem_visible.mpr ⟨hn, hvisible⟩
    rw [← hsplit] at hsorted hmem
    have hdropped := (List.mem_append.mp hmem).resolve_left hleft
    exact (List.pairwise_append.mp hsorted).2.2 m hm n hdropped

theorem poll_of_running {q : Consumer} (hrunning : q ∉ b.stopped) (now : Int) (limit : Nat) :
    b.poll q now limit =
      b.leaseAll (now + q.visibilitySeconds * 1000) (b.due q.queue now limit) := by
  rw [poll, if_neg (by simpa using hrunning), due]

/-- A batch hands out the messages that were leased, one by one. -/
theorem leaseAll_delivers {deadline : Int} {ms : List Queued} {batch : List Leased}
    (h : (b.leaseAll deadline ms).2 = .ok batch) :
    List.Forall₂ Queued.DeliveredAs ms batch := by
  induction ms generalizing b batch with
  | nil =>
    obtain rfl := Except.ok.inj h
    exact .nil
  | cons m rest ih =>
    obtain ⟨envelope, others, rfl, hothers, _⟩ := leaseAll_cons_ok h
    exact .cons ⟨rfl, rfl, rfl⟩ (ih hothers)

end Selection

section Origin

variable {b b' : Broker} {q : Consumer} {now deadline : Int}

def GivesBack (b : Broker) (q : Consumer) (now : Int) (c : QueueCall) (queue : String)
    (receipt : Receipt) : Prop :=
  q.queue = queue ∧ ∃ delaySeconds, c = .abandon receipt delaySeconds ∧
    (b.step q now (.abandon receipt delaySeconds)).2 = .ok ()

inductive Origin (b : Broker) (q : Consumer) (now : Int) : QueueCall → Queued → Prop
  | kept (c : QueueCall) (m : Queued) (hm : m ∈ b.messages) : Origin b q now c m
  | published (e : Envelope) (hfree : (q.queue, e.id) ∉ b.keys) :
      Origin b q now (.publish e) ⟨q.queue, e.id, e.write, none, now, now, 0⟩
  | leased (limit serial : Nat) (m : Queued) (hm : m ∈ b.messages)
      (hvisible : m.isVisible q.queue now = true) :
      Origin b q now (.poll limit)
        (m.lease (.issued serial) (now + q.visibilitySeconds * 1000))
  | returned (receipt : Receipt) (delaySeconds : Nat) (m : Queued) (hm : m ∈ b.messages)
      (hreceipt : m.receipt = some receipt)
      (hback : b.GivesBack q now (.abandon receipt delaySeconds) m.queue receipt) :
      Origin b q now (.abandon receipt delaySeconds)
        { m with visibleAt := now + delaySeconds * 1000, receipt := none }

/-- After some leases a message is as it was, or it has one of them. -/
theorem Takes.mem_cases {taken : List Queued} (hkeys : b.keys.Nodup)
    (h : b.Takes deadline taken b') {m' : Queued} (hm' : m' ∈ b'.messages) :
    m' ∈ b.messages ∨ ∃ m ∈ taken, ∃ serial, m' = m.lease (.issued serial) deadline := by
  have hkeys' : b'.keys.Nodup := h.rewrites.keys_eq ▸ hkeys
  obtain ⟨m, hm, hsame⟩ := h.rewrites.exists_of_mem hm'
  by_cases hin : m ∈ taken
  · obtain ⟨serial, _, hleased⟩ := h.leased m hin
    exact Or.inr ⟨m, hin, serial, eq_of_key_eq hkeys' hm' hleased hsame.queue hsame.id⟩
  · have hkept := h.others m hm hin
    exact Or.inl (eq_of_key_eq hkeys' hm' hkept hsame.queue hsame.id ▸ hm)

/-- A poll takes leases of messages that are due, whether or not it hands them out. -/
theorem Polled.exists_takes {ms : List Queued} {outcome : Broker × Except QueueError (List Leased)}
    (h : b.Polled deadline ms outcome) :
    ∃ taken, (∀ m ∈ taken, m ∈ ms) ∧ b.Takes deadline taken outcome.1 := by
  cases h with
  | delivered _ b' batch readable takes handed => exact ⟨ms, fun _ hm => hm, takes⟩
  | aborted before m rest b' e readable unreadable takes =>
    refine ⟨before ++ [m], fun n hn => ?_, takes⟩
    rcases List.mem_append.mp hn with hn | hn
    · exact List.mem_append_left _ hn
    · exact List.mem_append_right _ (List.mem_singleton.mp hn ▸ List.mem_cons_self)

theorem origin_poll (hkeys : b.keys.Nodup) (limit : Nat) {m' : Queued}
    (hm' : m' ∈ (b.step q now (.poll limit)).1.messages) :
    b.Origin q now (.poll limit) m' := by
  by_cases hrunning : q ∈ b.stopped
  · have hsame : b.step q now (.poll limit) = (b, .error .stopped) := by
      rw [step, poll, if_pos (by simpa using hrunning)]
    rw [hsame] at hm'
    exact .kept _ m' hm'
  · obtain ⟨taken, hdue, htakes⟩ :=
      (poll_polled hkeys hrunning now limit).exists_takes
    rcases htakes.mem_cases hkeys hm' with hkept | ⟨m, hm, serial, rfl⟩
    · exact .kept _ m' hkept
    · obtain ⟨hmem, hvisible⟩ := mem_visible.mp (List.mem_of_mem_take (hdue m hm))
      exact .leased limit serial m hmem hvisible

theorem origin_abandon (hkeys : b.keys.Nodup) (receipt : Receipt) (delaySeconds : Nat)
    {m' : Queued} (hm' : m' ∈ (b.step q now (.abandon receipt delaySeconds)).1.messages) :
    b.Origin q now (.abandon receipt delaySeconds) m' := by
  rcases b.settleWith_cases q.queue receipt fun m => b.update q.queue m.id fun m =>
      { m with visibleAt := now + delaySeconds * 1000, receipt := none } with
    ⟨m, hm, hqueue, hreceipt, heq⟩ | ⟨_, hlost⟩
  · have hstep : b.step q now (.abandon receipt delaySeconds) =
        (b.update m.queue m.id fun m =>
          { m with visibleAt := now + delaySeconds * 1000, receipt := none }, .ok ()) := by
      rw [hqueue]
      exact heq
    rw [hstep] at hm'
    obtain ⟨n, hn, rfl⟩ := List.mem_map.mp hm'
    by_cases hkey : n.hasKey m.queue m.id = true
    · have hsame : n.queue = m.queue ∧ n.id = m.id := by simpa [Queued.hasKey] using hkey
      obtain rfl : n = m := eq_of_key_eq hkeys hn hm hsame.1 hsame.2
      rw [if_pos hkey]
      exact .returned receipt delaySeconds n hn hreceipt
        ⟨hqueue.symm, delaySeconds, rfl, by rw [hstep]⟩
    · rw [if_neg hkey]
      exact .kept _ n hn
  · have hsame : b.step q now (.abandon receipt delaySeconds) = (b, .error (.leaseLost receipt)) :=
      hlost
    rw [hsame] at hm'
    exact .kept _ m' hm'

/-- Where every message comes from that is there after a call. -/
theorem origin_of_mem (hkeys : b.keys.Nodup) {c : QueueCall} {m' : Queued}
    (hm' : m' ∈ (b.step q now c).1.messages) : b.Origin q now c m' := by
  have hremoved : ∀ id, m' ∈ (b.remove q.queue id).messages → b.Origin q now c m' :=
    fun _ hm => .kept _ m' (mem_remove.mp hm).1
  cases c with
  | publish e =>
    rcases mem_publish.mp hm' with hold | ⟨hfree, rfl⟩
    · exact .kept _ m' hold
    · exact .published e hfree
  | poll limit => exact origin_poll hkeys limit hm'
  | abandon receipt delaySeconds => exact origin_abandon hkeys receipt delaySeconds hm'
  | complete receipt =>
    exact settleWith_induction (P := fun b' => m' ∈ b'.messages → b.Origin q now _ m')
      (.kept _ m') (fun m _ => hremoved m.id) hm'
  | deadLetter receipt reason description =>
    refine settleWith_induction (P := fun b' => m' ∈ b'.messages → b.Origin q now _ m')
      (.kept _ m') ?_ hm'
    exact fun m _ => hremoved m.id
  | stop =>
    simp only [step, stop] at hm'
    split at hm' <;> exact .kept _ m' hm'

end Origin

section Counting

/-- Deliveries are counted from zero, and only polls count one. -/
theorem after_received (history : QueueHistory) :
    ∀ m ∈ (empty.after history).messages,
      0 ≤ m.receiveCount ∧ m.receiveCount ≤ history.countP (·.2.2.polls) := by
  induction history using List.reverseRecOn with
  | nil => simp [after, empty]
  | append_singleton history call ih =>
    obtain ⟨q, now, c⟩ := call
    have hkeys : (empty.after history).keys.Nodup :=
      (after_fenced empty_fenced history).wellFormed.keys_nodup
    intro m' hm'
    rw [after_append] at hm'
    rw [List.countP_append, List.countP_singleton]
    cases origin_of_mem hkeys hm' with
    | kept _ _ hm =>
      have hbounds := ih m' hm
      split <;> omega
    | published =>
      change (0 : Int) ≤ 0 ∧ (0 : Int) ≤ _
      omega
    | leased limit serial m hm =>
      have hbounds := ih m hm
      change 0 ≤ m.receiveCount + 1 ∧ m.receiveCount + 1 ≤ ((_ + 1 : Nat) : Int)
      omega
    | returned receipt delaySeconds m hm =>
      have hbounds := ih m hm
      change 0 ≤ m.receiveCount ∧ m.receiveCount ≤ ((_ + 0 : Nat) : Int)
      omega

theorem wrapUInt32_eq_self {n : Int} (hpos : 0 ≤ n) (hlt : n < 2 ^ 32) :
    (Bounds.wrapUInt32 n : Int) = n := by
  unfold Bounds.wrapUInt32
  omega

end Counting

section Exclusion

variable {b b' : Broker} {q : Consumer} {now deadline : Int} {key : String × String}

def HiddenUntil (b : Broker) (key : String × String) (deadline : Int) : Prop :=
  ∀ m ∈ b.messages, (m.queue, m.id) = key → deadline ≤ m.visibleAt

/-- Whether a call lets a message be seen: an accepted abandonment of it, or a
publication under its key once that is free. -/
def Releases (b : Broker) (q : Consumer) (now : Int) (c : QueueCall) (key : String × String) :
    Prop :=
  (∃ receipt, b.Stands key receipt ∧ b.GivesBack q now c key.1 receipt) ∨
    ∃ e : Envelope, c = .publish e ∧ (q.queue, e.id) = key ∧ key ∉ b.keys

def ReleasedIn (key : String × String) : Broker → QueueHistory → Prop
  | _, [] => False
  | b, (q, now, c) :: rest =>
    b.Releases q now c key ∨ ReleasedIn key (b.step q now c).1 rest

/-- A message that is hidden stays hidden through a call that does not release
it: a poll that takes it reads the clock at its deadline or later. -/
theorem HiddenUntil.step (hkeys : b.keys.Nodup) (h : b.HiddenUntil key deadline) {c : QueueCall}
    (hkeeps : ¬ b.Releases q now c key) : (b.step q now c).1.HiddenUntil key deadline := by
  intro m' hm' hkey
  cases origin_of_mem hkeys hm' with
  | kept _ _ hm => exact h m' hm hkey
  | published e hfree =>
    exact absurd (Or.inr ⟨e, rfl, hkey, hkey ▸ hfree⟩) hkeeps
  | leased limit serial m hm hvisible =>
    have hhidden : deadline ≤ m.visibleAt := h m hm hkey
    have hdue : m.visibleAt ≤ now := by
      simp only [Queued.isVisible, Bool.and_eq_true, decide_eq_true_eq] at hvisible
      exact hvisible.2
    change deadline ≤ now + q.visibilitySeconds * 1000
    omega
  | returned receipt delaySeconds m hm hreceipt hback =>
    refine absurd (Or.inl ⟨receipt, ⟨m, hm, hkey, hreceipt⟩, ?_⟩) hkeeps
    exact hkey ▸ hback

theorem HiddenUntil.after (hkeys : b.keys.Nodup) (h : b.HiddenUntil key deadline)
    {history : QueueHistory} (hkeeps : ¬ ReleasedIn key b history) :
    (b.after history).HiddenUntil key deadline := by
  induction history generalizing b with
  | nil => exact h
  | cons call rest ih =>
    obtain ⟨q, now, c⟩ := call
    obtain ⟨hfirst, hrest⟩ := not_or.mp hkeeps
    exact ih ((b.effect_step q now c).keys_nodup hkeys) (h.step hkeys hfirst) hrest

/-- What a poll hands out was due. -/
theorem exists_due_of_handsOver (hkeys : b.keys.Nodup) {limit : Nat} {receipt : Receipt}
    (h : b.HandsOver q now (.poll limit) key receipt) :
    ∃ m ∈ b.due q.queue now limit, (m.queue, m.id) = key := by
  obtain ⟨l, hl, hkey, -⟩ := h
  cases hpoll : (b.poll q now limit).2 with
  | error e => simp [handedOut, hpoll] at hl
  | ok batch =>
    rw [handedOut_poll hpoll] at hl
    have hrunning : q ∉ b.stopped := by
      intro hstopped
      rw [poll, if_pos (by simpa using hstopped)] at hpoll
      cases hpoll
    rw [poll_of_running hrunning] at hpoll
    have hids := leaseAll_ids hpoll
    have hid : l.brokerId ∈ (b.due q.queue now limit).map (·.id) :=
      hids ▸ List.mem_map_of_mem hl
    obtain ⟨m, hm, hsame⟩ := List.mem_map.mp hid
    have hqueue := ((visible_spec hkeys q.queue now limit).1 m hm).2
    exact ⟨m, hm, by rw [hqueue, hsame, hkey]⟩

/-- What is hidden at a reading of the clock is not handed out. -/
theorem HiddenUntil.not_handsOver (hkeys : b.keys.Nodup) (h : b.HiddenUntil key deadline)
    (hbefore : now < deadline) (limit : Nat) (receipt : Receipt) :
    ¬ b.HandsOver q now (.poll limit) key receipt := by
  intro hover
  obtain ⟨m, hm, hkey⟩ := exists_due_of_handsOver hkeys hover
  obtain ⟨hmem, hvisible⟩ := mem_visible.mp (List.mem_of_mem_take hm)
  simp only [Queued.isVisible, Bool.and_eq_true, decide_eq_true_eq] at hvisible
  have hhidden : deadline ≤ m.visibleAt := h m hmem hkey
  omega

/-- What a poll hands out is hidden until its lease ends. -/
theorem hiddenUntil_of_handsOver (hb : b.Fenced) {limit : Nat} {receipt : Receipt}
    (h : b.HandsOver q now (.poll limit) key receipt) :
    (b.step q now (.poll limit)).1.HiddenUntil key (now + q.visibilitySeconds * 1000) := by
  have hkeys := hb.wellFormed.keys_nodup
  obtain ⟨l, hl, rfl, -⟩ := h
  cases hpoll : (b.poll q now limit).2 with
  | error e => simp [handedOut, hpoll] at hl
  | ok batch =>
    rw [handedOut_poll hpoll] at hl
    intro m' hm' hkey
    obtain ⟨hqueue, hid⟩ := Prod.mk.inj hkey
    obtain ⟨m, _, hmqueue, hmid, _, hleased⟩ := (poll_handsOut hb.wellFormed hpoll).leased l hl
    have hkeys' := (b.effect_step q now (.poll limit)).keys_nodup hkeys
    have hsame : m' = m.lease l.receipt (now + q.visibilitySeconds * 1000) :=
      eq_of_key_eq hkeys' hm' hleased (hqueue.trans hmqueue.symm) (hid.trans hmid.symm)
    rw [hsame]
    exact Int.le_refl _

end Exclusion

/-- A consumer that runs is handed all that is due, when the messages were published. -/
theorem Fenced.exists_batch {b : Broker} (h : b.Fenced) {q : Consumer} (hrunning : q ∉ b.stopped)
    (now : Int) (limit : Nat) :
    ∃ batch, (b.poll q now limit).2 = .ok batch ∧
      List.Forall₂ Queued.DeliveredAs (b.due q.queue now limit) batch := by
  have hpoll := poll_of_running hrunning now limit
  rcases h.poll_cases q now limit with hstopped | ⟨batch, hbatch⟩
  · have hpolled := poll_polled h.wellFormed.keys_nodup hrunning now limit
    rw [hstopped] at hpolled
    generalize b.due q.queue now limit = ms at hpolled
    cases hpolled
  · exact ⟨batch, hbatch, leaseAll_delivers (hpoll ▸ hbatch)⟩

/-- A count that 32 bits hold is the number that it counts. -/
theorem exact_of_delivers {taken : List Queued} {batch : List Leased}
    (h : List.Forall₂ Queued.DeliveredAs taken batch)
    (hfits : ∀ m ∈ taken, 0 ≤ m.receiveCount ∧ m.receiveCount + 1 < 2 ^ 32) :
    List.Forall₂ (fun m l => (l.deliveryCount : Int) = m.receiveCount + 1) taken batch := by
  induction h with
  | nil => exact .nil
  | cons hfirst _ ih =>
    obtain ⟨hm, hrest⟩ := List.forall_mem_cons.mp hfits
    refine .cons ?_ (ih hrest)
    rw [hfirst.count, wrapUInt32_eq_self (by omega) hm.2]

/-- What every poll does that calls lead to. A consumer that was stopped polls no
more. Any other poll hands out the oldest of the visible messages, as many as
there are up to the limit, and counts one more delivery of each; the count that
it tells is that number in 32 bits, and so the number itself until there have
been 2³² polls. And no later poll of whatever lease time hands out one of these
messages at a reading of the clock before the lease ends, unless the message was
released in between. -/
theorem poll_takes_oldest (history : QueueHistory) (q : Consumer) (now : Int) (limit : Nat) :
    let b := empty.after history
    let polled := b.step q now (.poll limit)
    (q ∈ b.stopped ∧ polled = (b, .error .stopped)) ∨
      (q ∉ b.stopped ∧ ∃ taken batch, polled.2 = .ok batch ∧
        b.Selects q.queue now limit taken ∧
        List.Forall₂ Queued.DeliveredAs taken batch ∧
        (history.countP (·.2.2.polls) + 1 < 2 ^ 32 →
          List.Forall₂ (fun m l => (l.deliveryCount : Int) = m.receiveCount + 1) taken batch) ∧
        ∀ l ∈ batch, ∀ later q' now' limit' receipt,
          now' < now + q.visibilitySeconds * 1000 →
          (polled.1.after later).HandsOver q' now' (.poll limit') (q.queue, l.brokerId) receipt →
          ReleasedIn (q.queue, l.brokerId) polled.1 later) := by
  intro b polled
  have hfenced : b.Fenced := after_fenced empty_fenced history
  by_cases hstopped : q ∈ b.stopped
  · refine Or.inl ⟨hstopped, ?_⟩
    change b.poll q now limit = _
    rw [poll, if_pos (by simpa using hstopped)]
  · obtain ⟨batch, hbatch, hdelivers⟩ := hfenced.exists_batch hstopped now limit
    have hselects := due_selects hfenced.wellFormed.keys_nodup q.queue now limit
    refine Or.inr ⟨hstopped, b.due q.queue now limit, batch, hbatch, hselects, hdelivers, ?_, ?_⟩
    · intro hfew
      refine exact_of_delivers hdelivers fun m hm => ?_
      have hreceived := after_received history m (hselects.visible m hm).1
      omega
    · intro l hl later q' now' limit' receipt hbefore hagain
      have hover : b.HandsOver q now (.poll limit) (q.queue, l.brokerId) l.receipt :=
        ⟨l, by rw [handedOut_poll hbatch]; exact hl, rfl, rfl⟩
      have hfenced' : polled.1.Fenced := step_fenced hfenced q now (.poll limit)
      by_contra hkept
      have hhidden := (hiddenUntil_of_handsOver hfenced hover).after
        hfenced'.wellFormed.keys_nodup hkept
      exact hhidden.not_handsOver (after_fenced hfenced' later).wellFormed.keys_nodup hbefore
        limit' receipt hagain

def wornMessage (receipt : Option Receipt) (n : Nat) : Queued :=
  ⟨"inbound", "a", Envelope.write ⟨"a", .empty, "\x7b\x7d"⟩, receipt, 0, 0, n⟩

/-- A message that is published and polled over and over, each time for no time at all. -/
def wornHistory (n : Nat) : QueueHistory :=
  (⟨"inbound", 0, 0⟩, 0, .publish ⟨"a", .empty, "\x7b\x7d"⟩) ::
    List.replicate n (⟨"inbound", 0, 0⟩, 0, .poll 1)

theorem poll_wornMessage (receipt : Option Receipt) (n issued : Nat) :
    (⟨[wornMessage receipt n], [], [], issued⟩ : Broker).poll ⟨"inbound", 0, 0⟩ 0 1 =
      (⟨[wornMessage (some (.issued issued)) (n + 1)], [], [], issued + 1⟩,
        .ok [⟨⟨"a", .empty, "\x7b\x7d"⟩, .issued issued, "a", "inbound",
          Bounds.wrapUInt32 (n + 1)⟩]) := by
  have hdue : (⟨[wornMessage receipt n], [], [], issued⟩ : Broker).due "inbound" 0 1 =
      [wornMessage receipt n] := rfl
  rw [poll_of_running (by simp), hdue, leaseAll_cons]
  simp only [wornMessage, Envelope.parse_write]
  rfl

theorem after_wornHistory (n : Nat) :
    ∃ receipt, empty.after (wornHistory n) = ⟨[wornMessage receipt n], [], [], n⟩ := by
  induction n with
  | zero => exact ⟨none, rfl⟩
  | succ n ih =>
    obtain ⟨receipt, hafter⟩ := ih
    have hsplit : wornHistory (n + 1) = wornHistory n ++ [(⟨"inbound", 0, 0⟩, 0, .poll 1)] := by
      rw [wornHistory, wornHistory, List.replicate_succ', List.cons_append]
    refine ⟨some (.issued n), ?_⟩
    rw [hsplit, after_append, hafter]
    exact congrArg Prod.fst (poll_wornMessage receipt n n)

/-- A message that has been received 2³² - 1 times is handed out with a delivery
count that is not one more. -/
theorem delivery_count_wraps :
    ¬ ∀ (history : QueueHistory) (q : Consumer) (now : Int) (limit : Nat) (batch : List Leased),
      ((empty.after history).step q now (.poll limit)).2 = .ok batch →
        ∀ l ∈ batch, ∃ m ∈ (empty.after history).messages,
          (m.queue, m.id) = (q.queue, l.brokerId) ∧
            (l.deliveryCount : Int) = m.receiveCount + 1 := by
  intro h
  -- The number stays a name, so that nothing writes the history out.
  obtain ⟨n, hn⟩ : ∃ n : Nat, 4294967295 ≤ n := ⟨4294967295, Nat.le_refl _⟩
  obtain ⟨receipt, hafter⟩ := after_wornHistory n
  have hpoll := congrArg Prod.snd (poll_wornMessage receipt n n)
  have hanswer := h (wornHistory n) ⟨"inbound", 0, 0⟩ 0 1
  rw [hafter] at hanswer
  obtain ⟨m, hm, -, hcount⟩ := hanswer _ hpoll _ List.mem_cons_self
  obtain rfl := List.mem_singleton.mp hm
  change ((Bounds.wrapUInt32 (n + 1) : Nat) : Int) = n + 1 at hcount
  have hwraps : Bounds.wrapUInt32 (n + 1) < 4294967296 := by
    unfold Bounds.wrapUInt32
    omega
  omega

end Broker

end HearingRelay
