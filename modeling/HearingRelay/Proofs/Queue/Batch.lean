import HearingRelay.Proofs.Queue.Conservation

/-!
Batches. A poll that succeeds leases distinct messages of its queue, counts
their deliveries, and gives each a receipt of its own; all other messages stay
as they are. A message whose receipt is on no other is the one that a
settlement under that receipt applies to.
-/

namespace HearingRelay.Broker

structure HandsOut (b : Broker) (queue : String) (deadline : Int) (batch : List Leased)
    (b' : Broker) : Prop where
  distinct : (batch.map (·.brokerId)).Nodup
  /-- Each message of the batch is leased, with one more delivery. -/
  leased : ∀ l ∈ batch, ∃ m ∈ b.messages, m.queue = queue ∧ m.id = l.brokerId ∧
    l.deliveryCount = Bounds.wrapUInt32 (m.receiveCount + 1) ∧
    m.lease l.receipt deadline ∈ b'.messages
  /-- Receipts are new. -/
  fresh : ∀ l ∈ batch, ∃ serial, b.issued ≤ serial ∧ l.receipt = .issued serial
  /-- A receipt stands on its message alone. -/
  own : ∀ l ∈ batch, ∀ m' ∈ b'.messages, m'.receipt = some l.receipt →
    m'.queue = queue ∧ m'.id = l.brokerId
  others : ∀ m', (m'.queue = queue → m'.id ∉ batch.map (·.brokerId)) →
    (m' ∈ b'.messages ↔ m' ∈ b.messages)

/-- A batch that is handed out begins with the first message and its new receipt. -/
theorem leaseAll_cons_ok {b : Broker} {deadline : Int} {m : Queued} {rest : List Queued}
    {batch : List Leased} (h : (b.leaseAll deadline (m :: rest)).2 = .ok batch) :
    ∃ envelope others, batch = ⟨envelope, .issued b.issued, m.id, m.queue,
        Bounds.wrapUInt32 (m.receiveCount + 1)⟩ :: others ∧
      ((b.leased m deadline).leaseAll deadline rest).2 = .ok others ∧
      (b.leaseAll deadline (m :: rest)).1 = ((b.leased m deadline).leaseAll deadline rest).1 := by
  rw [leaseAll_cons] at h ⊢
  cases hread : Envelope.parse m.payload with
  | error e =>
    rw [hread] at h
    cases h
  | ok envelope =>
    rw [hread] at h
    dsimp only at h ⊢
    generalize (b.leased m deadline).leaseAll deadline rest = p at h ⊢
    obtain ⟨b', answer⟩ := p
    cases answer with
    | error e => cases h
    | ok others =>
      obtain rfl := Except.ok.inj h
      exact ⟨envelope, others, rfl, rfl, rfl⟩

/-- A batch names the messages that were leased, in order. -/
theorem leaseAll_ids {b : Broker} {deadline : Int} {ms : List Queued} {batch : List Leased}
    (h : (b.leaseAll deadline ms).2 = .ok batch) :
    batch.map (·.brokerId) = ms.map (·.id) := by
  induction ms generalizing b batch with
  | nil =>
    obtain rfl := Except.ok.inj h
    rfl
  | cons m rest ih =>
    obtain ⟨envelope, others, rfl, hothers, _⟩ := leaseAll_cons_ok h
    rw [List.map_cons, List.map_cons, ih hothers]

section Update

variable {b : Broker} {m m' : Queued} {f : Queued → Queued}

/-- A change of the message with a key leaves those with other keys alone. -/
theorem mem_update_of_ne (hf : ∀ n, (f n).queue = n.queue ∧ (f n).id = n.id)
    (hother : m'.queue = m.queue → m'.id ≠ m.id) :
    m' ∈ (b.update m.queue m.id f).messages ↔ m' ∈ b.messages := by
  have hnot : m'.hasKey m.queue m.id = false := by
    simpa [Queued.hasKey] using hother
  constructor
  · intro hm'
    obtain ⟨n, hn, rfl⟩ := List.mem_map.mp hm'
    by_cases hkey : n.hasKey m.queue m.id = true
    · have hsame : (f n).hasKey m.queue m.id = true := by
        simpa [Queued.hasKey, hf n] using hkey
      rw [if_pos hkey, hsame] at hnot
      cases hnot
    · rw [if_neg hkey]
      exact hn
  · intro hm'
    exact List.mem_map.mpr ⟨m', hm', by simp [hnot]⟩

theorem mem_update_self (hm : m ∈ b.messages) : f m ∈ (b.update m.queue m.id f).messages :=
  List.mem_map.mpr ⟨m, hm, by simp [Queued.hasKey]⟩

/-- A lease changes the message with its key alone. -/
theorem mem_leased_of_ne {deadline : Int} (hother : m'.queue = m.queue → m'.id ≠ m.id) :
    m' ∈ (b.leased m deadline).messages ↔ m' ∈ b.messages :=
  mem_update_of_ne (f := (·.lease (.issued b.issued) deadline)) (fun _ => ⟨rfl, rfl⟩) hother

/-- Messages under other keys are still there once a message is leased. -/
theorem mem_leased_of_notMem {deadline : Int} {rest : List Queued} {queue : String}
    (hrest : ∀ n ∈ rest, n ∈ b.messages ∧ n.queue = queue) (hnew : m.id ∉ rest.map (·.id)) :
    ∀ n ∈ rest, n ∈ (b.leased m deadline).messages ∧ n.queue = queue := by
  intro n hn
  obtain ⟨hmem, hqueue⟩ := hrest n hn
  refine ⟨(mem_leased_of_ne fun _ hid => ?_).mpr hmem, hqueue⟩
  exact hnew (hid ▸ List.mem_map_of_mem hn)

end Update

/-- The receipt of a lease is on no message but the one that was leased. -/
theorem key_of_leased_receipt {b : Broker} (h : b.WellFormed) {m m' : Queued} {deadline : Int}
    (hm' : m' ∈ (b.leased m deadline).messages) (hreceipt : m'.receipt = some (.issued b.issued)) :
    m'.queue = m.queue ∧ m'.id = m.id := by
  by_contra hother
  have hbefore : m' ∈ b.messages := (mem_leased_of_ne fun hqueue hid => hother ⟨hqueue, hid⟩).mp hm'
  obtain ⟨serial, hlt, hserial⟩ := h.receipts_issued m' hbefore _ hreceipt
  injection hserial with hsame
  omega

/-- Distinct messages of a queue are leased one by one. -/
theorem leaseAll_handsOut {b : Broker} (h : b.WellFormed) {queue : String} (deadline : Int)
    {ms : List Queued} (hms : ∀ m ∈ ms, m ∈ b.messages ∧ m.queue = queue)
    (hdistinct : (ms.map (·.id)).Nodup) {batch : List Leased}
    (hok : (b.leaseAll deadline ms).2 = .ok batch) :
    b.HandsOut queue deadline batch (b.leaseAll deadline ms).1 := by
  induction ms generalizing b batch with
  | nil =>
    obtain rfl := Except.ok.inj hok
    exact ⟨.nil, by simp, by simp, by simp, fun m' _ => Iff.rfl⟩
  | cons m rest ih =>
    obtain ⟨hm, rfl⟩ := hms m List.mem_cons_self
    have hnodup : m.id ∉ rest.map (·.id) ∧ (rest.map (·.id)).Nodup := List.nodup_cons.mp hdistinct
    obtain ⟨hnew, hrestDistinct⟩ := hnodup
    have hkeys : (b.leaseAll deadline (m :: rest)).1.keys.Nodup := by
      rw [(leaseAll_rewrites b deadline (m :: rest)).keys_eq]
      exact h.keys_nodup
    obtain ⟨envelope, others, rfl, hothers, hfinal⟩ := leaseAll_cons_ok hok
    rw [hfinal] at hkeys ⊢
    rw [← leaseAll_ids hothers] at hnew hrestDistinct
    have hrest : ∀ n ∈ rest, n ∈ (b.leased m deadline).messages ∧ n.queue = m.queue :=
      mem_leased_of_notMem (fun n hn => hms n (List.mem_cons_of_mem m hn))
        (leaseAll_ids hothers ▸ hnew)
    -- The rest is leased from the broker in which the first message is leased already.
    have hih := ih (leased_wellFormed h m deadline) hrest
      (leaseAll_ids hothers ▸ hrestDistinct) hothers
    refine ⟨List.nodup_cons.mpr ⟨hnew, hrestDistinct⟩, ?_, ?_, ?_, ?_⟩
    · intro l hl
      rcases List.mem_cons.mp hl with rfl | hl
      · have hleased := (hih.others (m.lease (.issued b.issued) deadline) fun _ => hnew).mpr
          (mem_update_self hm)
        exact ⟨m, hm, rfl, rfl, rfl, hleased⟩
      · obtain ⟨n, hn, hqueue, hid, hcount, hleased⟩ := hih.leased l hl
        refine ⟨n, (mem_leased_of_ne fun _ hsame => ?_).mp hn, hqueue, hid,
          hcount, hleased⟩
        rw [← hsame, hid] at hnew
        exact hnew (List.mem_map_of_mem hl)
    · intro l hl
      rcases List.mem_cons.mp hl with rfl | hl
      · exact ⟨b.issued, Nat.le_refl _, rfl⟩
      · obtain ⟨serial, hle, hserial⟩ := hih.fresh l hl
        exact ⟨serial, Nat.le_of_succ_le hle, hserial⟩
    · intro l hl m' hm' hreceipt
      rcases List.mem_cons.mp hl with rfl | hl
      · by_cases hlater : m'.queue = m.queue ∧ m'.id ∈ others.map (·.brokerId)
        · -- The message would be leased once more, under a later receipt.
          obtain ⟨l, hl, hid⟩ := List.mem_map.mp hlater.2
          obtain ⟨n, _, hqueue, hnid, _, hleased⟩ := hih.leased l hl
          obtain rfl : m' = n.lease l.receipt deadline := eq_of_key_eq hkeys hm' hleased
            (hlater.1.trans hqueue.symm) (hid.symm.trans hnid.symm)
          obtain ⟨serial, hle, hserial⟩ := hih.fresh l hl
          have hsame : l.receipt = .issued b.issued := Option.some.inj hreceipt
          rw [hserial] at hsame
          injection hsame with hsame
          have hnext : b.issued + 1 ≤ serial := hle
          omega
        · have hbefore := (hih.others m' fun hqueue hid => hlater ⟨hqueue, hid⟩).mp hm'
          exact key_of_leased_receipt h hbefore hreceipt
      · exact hih.own l hl m' hm' hreceipt
    · intro m' hother
      have hnot : m'.queue = m.queue → m'.id ≠ m.id ∧ m'.id ∉ others.map (·.brokerId) :=
        fun hqueue => by simpa using hother hqueue
      exact (hih.others m' fun hqueue => (hnot hqueue).2).trans
        (mem_leased_of_ne fun hqueue => (hnot hqueue).1)

/-- The messages that a poll takes are of its queue, and distinct. -/
theorem visible_spec {b : Broker} (h : b.keys.Nodup) (queue : String) (now : Int) (limit : Nat) :
    (∀ m ∈ (b.visible queue now).take limit, m ∈ b.messages ∧ m.queue = queue) ∧
      (((b.visible queue now).take limit).map (·.id)).Nodup := by
  have hmem : ∀ m ∈ b.visible queue now, m ∈ b.messages ∧ m.queue = queue := by
    intro m hm
    rw [visible, Sorting.mem_sort, List.mem_filter] at hm
    simp only [Queued.isVisible, Bool.and_eq_true, beq_iff_eq] at hm
    exact ⟨hm.1, hm.2.1⟩
  have hnodup : (b.visible queue now).Nodup := by
    refine (Sorting.sort_perm _ _).nodup_iff.mpr ?_
    exact (List.Nodup.of_map _ h).filter _
  have hids : ((b.visible queue now).map (·.id)).Nodup := by
    refine List.Nodup.map_on (fun m hm n hn hid => ?_) hnodup
    exact eq_of_key_eq h (hmem m hm).1 (hmem n hn).1
      ((hmem m hm).2.trans (hmem n hn).2.symm) hid
  refine ⟨fun m hm => hmem m (List.mem_of_mem_take hm), ?_⟩
  exact hids.sublist ((List.take_sublist _ _).map _)

theorem poll_handsOut {b : Broker} (h : b.WellFormed) {q : Consumer} {now : Int} {limit : Nat}
    {batch : List Leased} (hok : (b.poll q now limit).2 = .ok batch) :
    b.HandsOut q.queue (now + q.visibilitySeconds * 1000) batch (b.poll q now limit).1 := by
  obtain ⟨hms, hdistinct⟩ := visible_spec h.keys_nodup q.queue now limit
  unfold poll at hok ⊢
  split at hok
  · cases hok
  · next hrunning =>
    rw [if_neg hrunning]
    exact leaseAll_handsOut h _ hms hdistinct hok

/-- What became of the message of a queue that was settled with a disposition. -/
def Resolved (b : Broker) (queue : String) (now : Int) (l : Leased) : Disposition → Prop
  | .complete => (queue, l.brokerId) ∉ b.keys
  | .retry => ∃ m ∈ b.messages, m.queue = queue ∧ m.id = l.brokerId ∧ m.receipt = none ∧
      m.visibleAt ≤ now
  | .deadLetter reason description => (queue, l.brokerId) ∉ b.keys ∧
      ∃ d ∈ b.deadLetters, d.queue = queue ∧ d.id = l.brokerId ∧ d.reason = reason ∧
        d.description = description ∧ d.receiveCount = l.deliveryCount

/-- A resolution concerns the live message and the dead letters under its key alone. -/
theorem Resolved.congr {b b' : Broker} {queue : String} {now : Int} {l : Leased}
    {disposition : Disposition} (h : b.Resolved queue now l disposition)
    (hmessages : ∀ n, n.queue = queue → n.id = l.brokerId → (n ∈ b'.messages ↔ n ∈ b.messages))
    (hletters : ∀ d ∈ b.deadLetters, d.queue = queue → d.id = l.brokerId → d ∈ b'.deadLetters) :
    b'.Resolved queue now l disposition := by
  have hgone : (queue, l.brokerId) ∉ b.keys → (queue, l.brokerId) ∉ b'.keys :=
    mt (mem_keys_of_messages fun n hqueue hid => (hmessages n hqueue hid).mp)
  cases disposition with
  | complete => exact hgone h
  | retry =>
    obtain ⟨m, hm, hqueue, hid, hrest⟩ := h
    exact ⟨m, (hmessages m hqueue hid).mpr hm, hqueue, hid, hrest⟩
  | deadLetter reason description =>
    obtain ⟨hfree, d, hd, hqueue, hid, hrest⟩ := h
    exact ⟨hgone hfree, d, hletters d hd hqueue hid, hqueue, hid, hrest⟩

def returned (now : Int) (m : Queued) : Queued := { m with visibleAt := now, receipt := none }

structure Settled (b : Broker) (m : Queued) (now : Int) (disposition : Disposition)
    (b' : Broker) : Prop where
  /-- All other messages stay, and the message itself only after a retry. -/
  mem_iff : ∀ n, n ∈ b'.messages ↔ (n ∈ b.messages ∧ (n.queue, n.id) ≠ (m.queue, m.id)) ∨
    (disposition = .retry ∧ n = returned now m)
  /-- It is set aside with the reason that is given. -/
  buried : ∀ reason description, disposition = .deadLetter reason description →
    m.letter now reason description ∈ b'.deadLetters
  letters : ∀ d ∈ b.deadLetters, (d.queue, d.id) ≠ (m.queue, m.id) → d ∈ b'.deadLetters

namespace Settled

variable {b b' : Broker} {m : Queued} {now : Int} {disposition : Disposition}

/-- Other messages and their letters stay as they are. -/
theorem mem_iff_of_ne (h : b.Settled m now disposition b') {n : Queued}
    (hother : (n.queue, n.id) ≠ (m.queue, m.id)) : n ∈ b'.messages ↔ n ∈ b.messages := by
  have hne : n ≠ returned now m := fun hsame => hother (by rw [hsame]; rfl)
  simp [h.mem_iff, hother, hne]

/-- Whatever it is settled with, the message is resolved. -/
theorem resolved (h : b.Settled m now disposition b') {l : Leased} (hid : m.id = l.brokerId)
    (hcount : m.receiveCount = l.deliveryCount) : b'.Resolved m.queue now l disposition := by
  have hgone : disposition ≠ .retry → (m.queue, l.brokerId) ∉ b'.keys := by
    intro hfinal hkey
    obtain ⟨n, hn, hsame⟩ := mem_keys.mp hkey
    rcases (h.mem_iff n).mp hn with ⟨_, hother⟩ | ⟨hretry, _⟩
    · exact hother (hid ▸ hsame)
    · exact hfinal hretry
  cases disposition with
  | complete => exact hgone (by simp)
  | retry =>
    have hreturned : returned now m ∈ b'.messages := (h.mem_iff _).mpr (Or.inr ⟨rfl, rfl⟩)
    exact ⟨returned now m, hreturned, rfl, hid, rfl, Int.le_refl now⟩
  | deadLetter reason description =>
    exact ⟨hgone (by simp), _, h.buried reason description rfl, rfl, hid, rfl, rfl, hcount⟩

end Settled

theorem mem_returned_iff {b : Broker} (h : b.keys.Nodup) {m n : Queued} (hm : m ∈ b.messages)
    {now : Int} : n ∈ (b.update m.queue m.id (returned now)).messages ↔
      (n ∈ b.messages ∧ (n.queue, n.id) ≠ (m.queue, m.id)) ∨ n = returned now m := by
  have hkeeps : ∀ m, (returned now m).queue = m.queue ∧ (returned now m).id = m.id :=
    fun _ => ⟨rfl, rfl⟩
  have hself : returned now m ∈ (b.update m.queue m.id (returned now)).messages :=
    mem_update_self hm
  have hkeys : (b.update m.queue m.id (returned now)).keys.Nodup :=
    (update_keys b m.queue m.id hkeeps).symm ▸ h
  by_cases hkey : (n.queue, n.id) = (m.queue, m.id)
  · obtain ⟨hqueue, hid⟩ := Prod.mk.inj hkey
    constructor
    · exact fun hn => Or.inr (eq_of_key_eq hkeys hn hself hqueue hid)
    · rintro (⟨_, hother⟩ | rfl)
      · exact absurd hkey hother
      · exact hself
  · have hother : n.queue = m.queue → n.id ≠ m.id := fun hqueue hid => hkey (Prod.ext hqueue hid)
    have hne : n ≠ returned now m := fun hsame => hkey (by rw [hsame]; rfl)
    simp [mem_update_of_ne hkeeps hother, hkey, hne]

/-- The message whose receipt is on no other is the one that is settled under it. -/
theorem settleWith_leased {b : Broker} (h : b.keys.Nodup) {m : Queued} (hm : m ∈ b.messages)
    {receipt : Receipt} (hreceipt : m.receipt = some receipt)
    (hown : ∀ n ∈ b.messages, n.queue = m.queue → n.receipt = some receipt → n.id = m.id)
    (f : Queued → Broker) : b.settleWith m.queue receipt f = (f m, .ok ()) := by
  rcases b.settleWith_cases m.queue receipt f with ⟨n, hn, hqueue, hleased, heq⟩ | ⟨hnone, _⟩
  · rw [heq, eq_of_key_eq h hn hm hqueue (hown n hn hqueue hleased)]
  · exact absurd hreceipt (hnone m hm rfl)

theorem settle_settled {b : Broker} (h : b.keys.Nodup) {m : Queued} (hm : m ∈ b.messages)
    {receipt : Receipt} (hreceipt : m.receipt = some receipt)
    (hown : ∀ n ∈ b.messages, n.queue = m.queue → n.receipt = some receipt → n.id = m.id)
    (now : Int) (disposition : Disposition) :
    b.Settled m now disposition (b.settle m.queue now receipt disposition).1 := by
  have hsettle := settleWith_leased h hm hreceipt hown
  cases disposition with
  | complete =>
    have heq : (b.settle m.queue now receipt .complete).1 = b.remove m.queue m.id :=
      congrArg Prod.fst (hsettle _)
    rw [heq]
    exact ⟨fun n => by simp [mem_remove], by simp, fun d hd _ => hd⟩
  | retry =>
    have heq : (b.settle m.queue now receipt .retry).1 = b.update m.queue m.id (returned now) := by
      have hnow : now + ((0 : Nat) : Int) * 1000 = now := by omega
      refine (congrArg Prod.fst (hsettle _)).trans ?_
      simp only [hnow]
      rfl
    rw [heq]
    exact ⟨fun n => by simp [mem_returned_iff h hm], by simp, fun d hd _ => hd⟩
  | deadLetter reason description =>
    have heq : (b.settle m.queue now receipt (.deadLetter reason description)).1 =
        b.bury m (m.letter now reason description) := congrArg Prod.fst (hsettle _)
    rw [heq]
    refine ⟨fun n => by simp [bury, mem_remove], ?_, ?_⟩
    · intro reason' description' hsame
      obtain ⟨rfl, rfl⟩ := Disposition.deadLetter.inj hsame
      exact List.mem_append_right _ List.mem_cons_self
    · intro d hd hother
      refine List.mem_append_left _ (List.mem_filter.mpr ⟨hd, ?_⟩)
      rw [Bool.not_eq_true', Bool.and_eq_false_imp]
      simpa using hother

end HearingRelay.Broker
