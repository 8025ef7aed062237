import HearingRelay.Queue.Basic
import Mathlib.Data.List.Nodup

/-!
Leases over the operations of a broker. A message has its key for itself, and a
receipt that stands on a message is one that was given out, on the same
payload ever since. So whoever polled a message settles the one that he read.
-/

namespace HearingRelay.Broker

def keys (b : Broker) : List (String × String) := b.messages.map fun m => (m.queue, m.id)

structure WellFormed (b : Broker) : Prop where
  keys_nodup : b.keys.Nodup
  receipts_issued : ∀ m ∈ b.messages, ∀ receipt, m.receipt = some receipt →
    ∃ serial < b.issued, receipt = .issued serial

theorem empty_wellFormed : empty.WellFormed where
  keys_nodup := .nil
  receipts_issued := by simp [empty]

theorem mem_keys {b : Broker} {key : String × String} :
    key ∈ b.keys ↔ ∃ m ∈ b.messages, (m.queue, m.id) = key := List.mem_map

/-- A key stays as long as its message does. -/
theorem mem_keys_of_messages {b b' : Broker} {queue id : String}
    (h : ∀ m, m.queue = queue → m.id = id → m ∈ b.messages → m ∈ b'.messages)
    (hkey : (queue, id) ∈ b.keys) : (queue, id) ∈ b'.keys := by
  obtain ⟨m, hm, hsame⟩ := mem_keys.mp hkey
  obtain ⟨hqueue, hid⟩ := Prod.mk.inj hsame
  exact mem_keys.mpr ⟨m, h m hqueue hid hm, hsame⟩

theorem message?_eq_none {b : Broker} {queue id : String} :
    b.message? queue id = none ↔ (queue, id) ∉ b.keys := by
  simp [message?, mem_keys, Queued.hasKey]

theorem eq_of_key_eq {b : Broker} (h : b.keys.Nodup) {m n : Queued} (hm : m ∈ b.messages)
    (hn : n ∈ b.messages) (hqueue : m.queue = n.queue) (hid : m.id = n.id) : m = n :=
  List.inj_on_of_nodup_map h hm hn (Prod.ext hqueue hid)

/-- Receipts stay on the payloads that they were given out for, and new ones
are given out in order. -/
structure Leads (b b' : Broker) : Prop where
  issued_le : b.issued ≤ b'.issued
  receipts : ∀ m' ∈ b'.messages, ∀ receipt, m'.receipt = some receipt →
    (∃ m ∈ b.messages, m.receipt = some receipt ∧ m.payload = m'.payload) ∨
      ∃ serial, b.issued ≤ serial ∧ serial < b'.issued ∧ receipt = .issued serial

namespace Leads

theorem refl (b : Broker) : b.Leads b :=
  ⟨Nat.le_refl _, fun m hm _ hreceipt => Or.inl ⟨m, hm, hreceipt, rfl⟩⟩

theorem trans {b b' b'' : Broker} (h : b.Leads b') (h' : b'.Leads b'') : b.Leads b'' := by
  have hle := h.issued_le
  have hle' := h'.issued_le
  refine ⟨by omega, ?_⟩
  intro m'' hm'' receipt hreceipt
  rcases h'.receipts m'' hm'' receipt hreceipt with ⟨m', hm', hold, hpayload'⟩ | hnew
  · rcases h.receipts m' hm' receipt hold with ⟨m, hm, holder, hpayload⟩ | hnew
    · exact Or.inl ⟨m, hm, holder, hpayload.trans hpayload'⟩
    · obtain ⟨serial, hfrom, hto, rfl⟩ := hnew
      exact Or.inr ⟨serial, hfrom, by omega, rfl⟩
  · obtain ⟨serial, hfrom, hto, rfl⟩ := hnew
    exact Or.inr ⟨serial, by omega, hto, rfl⟩

theorem wellFormed {b b' : Broker} (h : b.Leads b') (hb : b.WellFormed)
    (hkeys : b'.keys.Nodup) : b'.WellFormed := by
  have hle := h.issued_le
  refine ⟨hkeys, ?_⟩
  intro m' hm' receipt hreceipt
  rcases h.receipts m' hm' receipt hreceipt with ⟨m, hm, hold, _⟩ | ⟨serial, _, hto, rfl⟩
  · obtain ⟨serial, hlt, rfl⟩ := hb.receipts_issued m hm receipt hold
    exact ⟨serial, by omega, rfl⟩
  · exact ⟨serial, hto, rfl⟩

end Leads

theorem update_keys (b : Broker) (queue id : String) {f : Queued → Queued}
    (hf : ∀ m, (f m).queue = m.queue ∧ (f m).id = m.id) : (b.update queue id f).keys = b.keys := by
  unfold keys update
  rw [List.map_map]
  refine List.map_congr_left fun m _ => ?_
  obtain ⟨hqueue, hid⟩ := hf m
  by_cases hkey : m.hasKey queue id = true <;> simp [hkey, hqueue, hid]

theorem remove_keys {b : Broker} (h : b.keys.Nodup) (queue id : String) :
    (b.remove queue id).keys.Nodup :=
  h.sublist (List.filter_sublist.map _)

theorem remove_leads (b : Broker) (queue id : String) : b.Leads (b.remove queue id) :=
  ⟨Nat.le_refl _, fun m hm _ hreceipt => Or.inl ⟨m, (List.mem_filter.mp hm).1, hreceipt, rfl⟩⟩

/-- A lease that ends takes the receipt off its message. -/
theorem abandoned_leads (b : Broker) (queue id : String) (visibleAt : Int) :
    b.Leads (b.update queue id fun m => { m with visibleAt := visibleAt, receipt := none }) := by
  refine ⟨Nat.le_refl _, ?_⟩
  intro m' hm' receipt hreceipt
  obtain ⟨m, hm, rfl⟩ := List.mem_map.mp hm'
  split at hreceipt
  · cases hreceipt
  · next hkey =>
    refine Or.inl ⟨m, hm, hreceipt, ?_⟩
    rw [if_neg hkey]

/-- A settlement applies to a message that is leased under its receipt, or says
that there is none. -/
theorem settleWith_cases (b : Broker) (queue : String) (receipt : Receipt) (f : Queued → Broker) :
    (∃ m ∈ b.messages, m.queue = queue ∧ m.receipt = some receipt ∧
        b.settleWith queue receipt f = (f m, .ok ())) ∨
      (∀ m ∈ b.messages, m.queue = queue → m.receipt ≠ some receipt) ∧
        b.settleWith queue receipt f = (b, .error (.leaseLost receipt)) := by
  unfold settleWith
  cases hfind : b.leased? queue receipt with
  | none =>
    refine Or.inr ⟨fun m hm hqueue hreceipt => ?_, rfl⟩
    have hnot := List.find?_eq_none.mp hfind m hm
    simp [Queued.isLeasedAs, hqueue, hreceipt] at hnot
  | some m =>
    have hleased := List.find?_some hfind
    simp only [Queued.isLeasedAs, Bool.and_eq_true, beq_iff_eq] at hleased
    exact Or.inl ⟨m, List.mem_of_find?_eq_some hfind, hleased.1, hleased.2, rfl⟩

/-- What holds whether or not there is such a message holds after a settlement. -/
theorem settleWith_induction {P : Broker → Prop} {b : Broker} {queue : String} {receipt : Receipt}
    {f : Queued → Broker} (hb : P b) (hf : ∀ m ∈ b.messages, P (f m)) :
    P (b.settleWith queue receipt f).1 := by
  rcases b.settleWith_cases queue receipt f with ⟨m, hm, _, _, heq⟩ | ⟨_, heq⟩
  · rw [heq]
    exact hf m hm
  · rw [heq]
    exact hb

theorem settle_leads (b : Broker) (queue : String) (now : Int) (receipt : Receipt)
    (disposition : Disposition) : b.Leads (b.settle queue now receipt disposition).1 := by
  cases disposition with
  | complete => exact settleWith_induction (.refl b) fun m _ => remove_leads b queue m.id
  | retry => exact settleWith_induction (.refl b) fun m _ => abandoned_leads b queue m.id _
  | deadLetter reason description =>
    refine settleWith_induction (.refl b) fun m _ => ?_
    have hremove := remove_leads b queue m.id
    exact ⟨hremove.issued_le, hremove.receipts⟩

theorem settle_keys {b : Broker} (h : b.keys.Nodup) (queue : String) (now : Int)
    (receipt : Receipt) (disposition : Disposition) :
    (b.settle queue now receipt disposition).1.keys.Nodup := by
  have hremoved : ∀ m ∈ b.messages, (b.remove queue m.id).keys.Nodup :=
    fun m _ => remove_keys h queue m.id
  cases disposition with
  | complete => exact settleWith_induction (P := fun b => b.keys.Nodup) h hremoved
  | retry =>
    refine settleWith_induction (P := fun b => b.keys.Nodup) h fun m _ => ?_
    rw [update_keys b queue m.id]
    · exact h
    · exact fun _ => ⟨rfl, rfl⟩
  | deadLetter reason description =>
    exact settleWith_induction (P := fun b => b.keys.Nodup) h hremoved

/-- Publishing adds a message without a receipt, under a key that was free. -/
theorem publish_leads (b : Broker) (queue : String) (now : Int) (e : Envelope) :
    b.Leads (b.publish queue now e) := by
  unfold publish load?
  split
  · exact .refl b
  · refine ⟨Nat.le_refl _, ?_⟩
    intro m hm receipt hreceipt
    rcases List.mem_append.mp hm with hold | hnew
    · exact Or.inl ⟨m, hold, hreceipt, rfl⟩
    · obtain rfl := List.mem_singleton.mp hnew
      cases hreceipt

/-- A message with a key of its own may be added. -/
theorem added_keys {b : Broker} (h : b.keys.Nodup) {m : Queued} (hfree : (m.queue, m.id) ∉ b.keys) :
    ({ b with messages := b.messages ++ [m] } : Broker).keys.Nodup := by
  unfold keys
  rw [List.map_append]
  exact List.nodup_append.mpr ⟨h, List.nodup_singleton _, by simpa [keys] using hfree⟩

theorem publish_keys {b : Broker} (h : b.keys.Nodup) (queue : String) (now : Int)
    (e : Envelope) : (b.publish queue now e).keys.Nodup := by
  unfold publish load?
  split
  · exact h
  · next hfree => exact added_keys h (message?_eq_none.mp (by simpa using hfree))

theorem publish_wellFormed {b : Broker} (h : b.WellFormed) (queue : String) (now : Int)
    (e : Envelope) : (b.publish queue now e).WellFormed :=
  (publish_leads b queue now e).wellFormed h (publish_keys h.keys_nodup queue now e)

/-- A second send under a key that is taken adds nothing. -/
theorem mem_publish {b : Broker} {queue : String} {now : Int} {e : Envelope} {m : Queued} :
    m ∈ (b.publish queue now e).messages ↔ m ∈ b.messages ∨
      ((queue, e.id) ∉ b.keys ∧ m = ⟨queue, e.id, e.write, none, now, now, 0⟩) := by
  unfold publish load?
  split
  · next htaken =>
    have hkey : (queue, e.id) ∈ b.keys := by
      by_contra hfree
      rw [message?_eq_none.mpr hfree] at htaken
      cases htaken
    simp [hkey]
  · next hnone =>
    have hfree : (queue, e.id) ∉ b.keys := message?_eq_none.mp (by simpa using hnone)
    simp [hfree]

theorem publish_deadLetters (b : Broker) (queue : String) (now : Int) (e : Envelope) :
    (b.publish queue now e).deadLetters = b.deadLetters := by
  unfold publish load?
  split <;> rfl

/-- A message in hand is bound when its receipt stands on its envelope alone. -/
structure Binds (b : Broker) (leased : Leased) : Prop where
  issued : ∃ serial < b.issued, leased.receipt = .issued serial
  envelope : ∀ m ∈ b.messages, m.receipt = some leased.receipt →
    Envelope.parse m.payload = .ok leased.envelope

theorem Binds.of_leads {b b' : Broker} {leased : Leased} (h : b.Binds leased) (hl : b.Leads b') :
    b'.Binds leased := by
  have hle := hl.issued_le
  obtain ⟨serial, hlt, hserial⟩ := h.issued
  refine ⟨⟨serial, by omega, hserial⟩, ?_⟩
  intro m' hm' hreceipt
  rcases hl.receipts m' hm' _ hreceipt with ⟨m, hm, hold, hpayload⟩ | ⟨later, hfrom, _, hnew⟩
  · rw [← hpayload]
    exact h.envelope m hm hold
  · rw [hserial] at hnew
    injection hnew with hsame
    omega

def leased (b : Broker) (m : Queued) (deadline : Int) : Broker :=
  { b.update m.queue m.id (·.lease (.issued b.issued) deadline) with issued := b.issued + 1 }

theorem leased_leads (b : Broker) (m : Queued) (deadline : Int) :
    b.Leads (b.leased m deadline) := by
  refine ⟨Nat.le_succ _, ?_⟩
  intro m' hm' receipt hreceipt
  obtain ⟨n, hn, rfl⟩ := List.mem_map.mp hm'
  by_cases hkey : n.hasKey m.queue m.id = true
  · rw [if_pos hkey] at hreceipt
    exact Or.inr ⟨b.issued, Nat.le_refl _, Nat.lt_succ_self _, (Option.some.inj hreceipt).symm⟩
  · rw [if_neg hkey] at hreceipt
    exact Or.inl ⟨n, hn, hreceipt, by rw [if_neg hkey]⟩

theorem leased_wellFormed {b : Broker} (h : b.WellFormed) (m : Queued) (deadline : Int) :
    (b.leased m deadline).WellFormed := by
  refine (leased_leads b m deadline).wellFormed h ?_
  have hkeys := update_keys b m.queue m.id
    (f := (·.lease (.issued b.issued) deadline)) fun _ => ⟨rfl, rfl⟩
  exact hkeys ▸ h.keys_nodup

/-- Whether every message under the key of one has its payload. -/
def Shares (b : Broker) (m : Queued) : Prop :=
  ∀ n ∈ b.messages, n.hasKey m.queue m.id = true → n.payload = m.payload

theorem shares_of_mem {b : Broker} (h : b.WellFormed) {m : Queued} (hm : m ∈ b.messages) :
    b.Shares m := by
  intro n hn hkey
  simp only [Queued.hasKey, Bool.and_eq_true, beq_iff_eq] at hkey
  rw [eq_of_key_eq h.keys_nodup hn hm hkey.1 hkey.2]

theorem Shares.leased {b : Broker} {m : Queued} (h : b.Shares m) (n : Queued) (deadline : Int) :
    (b.leased n deadline).Shares m := by
  intro n' hn' hkey
  obtain ⟨k, hk, rfl⟩ := List.mem_map.mp hn'
  by_cases hleased : k.hasKey n.queue n.id = true
  · rw [if_pos hleased] at hkey ⊢
    exact h k hk hkey
  · rw [if_neg hleased] at hkey ⊢
    exact h k hk hkey

/-- The receipt of a lease stands on the message that was leased. -/
theorem leased_binds {b : Broker} (h : b.WellFormed) {m : Queued} (hshares : b.Shares m)
    (deadline : Int) {envelope : Envelope} (hread : Envelope.parse m.payload = .ok envelope)
    (id queue : String) (count : Nat) :
    (b.leased m deadline).Binds ⟨envelope, .issued b.issued, id, queue, count⟩ := by
  refine ⟨⟨b.issued, Nat.lt_succ_self _, rfl⟩, ?_⟩
  intro m' hm' hreceipt
  obtain ⟨n, hn, rfl⟩ := List.mem_map.mp hm'
  by_cases hkey : n.hasKey m.queue m.id = true
  · rw [if_pos hkey]
    change Envelope.parse n.payload = _
    rw [hshares n hn hkey, hread]
  · rw [if_neg hkey] at hreceipt
    obtain ⟨serial, hlt, hserial⟩ := h.receipts_issued n hn _ hreceipt
    injection hserial with hsame
    omega

theorem leaseAll_cons (b : Broker) (deadline : Int) (m : Queued) (rest : List Queued) :
    b.leaseAll deadline (m :: rest) =
      match Envelope.parse m.payload with
      | .error e => (b.leased m deadline, .error (.serialization e))
      | .ok envelope =>
        match (b.leased m deadline).leaseAll deadline rest with
        | (b', .ok others) => (b', .ok (⟨envelope, .issued b.issued, m.id, m.queue,
            Bounds.wrapUInt32 (m.receiveCount + 1)⟩ :: others))
        | (b', .error e) => (b', .error e) := rfl

/-- Whatever is leased, in whatever order, every message in hand is bound. -/
theorem leaseAll_spec {b : Broker} (h : b.WellFormed) (deadline : Int) {ms : List Queued}
    (hshares : ∀ m ∈ ms, b.Shares m) :
    b.Leads (b.leaseAll deadline ms).1 ∧ (b.leaseAll deadline ms).1.WellFormed ∧
      ∀ batch, (b.leaseAll deadline ms).2 = .ok batch →
        ∀ leased ∈ batch, (b.leaseAll deadline ms).1.Binds leased := by
  induction ms generalizing b with
  | nil =>
    refine ⟨.refl b, h, ?_⟩
    intro batch hbatch leased hleased
    obtain rfl : [] = batch := Except.ok.inj hbatch
    cases hleased
  | cons m rest ih =>
    have hleads := leased_leads b m deadline
    have hrest : ∀ n ∈ rest, (b.leased m deadline).Shares n :=
      fun n hn => (hshares n (List.mem_cons_of_mem m hn)).leased m deadline
    obtain ⟨hlater, hwf, hbinds⟩ := ih (leased_wellFormed h m deadline) hrest
    rw [leaseAll_cons]
    cases hread : Envelope.parse m.payload with
    | error e => exact ⟨hleads, leased_wellFormed h m deadline, by simp⟩
    | ok envelope =>
      have hbound := leased_binds h (hshares m List.mem_cons_self) deadline hread m.id m.queue
        (Bounds.wrapUInt32 (m.receiveCount + 1))
      dsimp only
      generalize (b.leased m deadline).leaseAll deadline rest = p at hlater hwf hbinds ⊢
      obtain ⟨b', answer⟩ := p
      cases answer with
      | error e => exact ⟨hleads.trans hlater, hwf, by simp⟩
      | ok others =>
        refine ⟨hleads.trans hlater, hwf, ?_⟩
        intro batch hbatch leased hleased
        obtain rfl := Except.ok.inj hbatch
        rcases List.mem_cons.mp hleased with rfl | hother
        · exact hbound.of_leads hlater
        · exact hbinds others rfl leased hother

/-- A poll keeps the broker well formed and hands out bound messages only. -/
theorem poll_spec {b : Broker} (h : b.WellFormed) (q : Consumer) (now : Int) (limit : Nat) :
    b.Leads (b.poll q now limit).1 ∧ (b.poll q now limit).1.WellFormed ∧
      ∀ batch, (b.poll q now limit).2 = .ok batch →
        ∀ leased ∈ batch, (b.poll q now limit).1.Binds leased := by
  unfold poll
  split
  · exact ⟨.refl b, h, by simp⟩
  · refine leaseAll_spec h _ ?_
    intro m hm
    have hvisible : m ∈ b.visible q.queue now := List.mem_of_mem_take hm
    rw [visible, Sorting.mem_sort, List.mem_filter] at hvisible
    exact shares_of_mem h hvisible.1

/-- A message that a completion removes is the one that was read under the receipt. -/
theorem envelope_of_complete {b : Broker} (h : b.WellFormed) {leased : Leased}
    (hbinds : b.Binds leased) {queue : String} {m : Queued} (hm : m ∈ b.messages)
    (hgone : m ∉ (b.complete queue leased.receipt).1.messages) :
    Envelope.parse m.payload = .ok leased.envelope := by
  rcases b.settleWith_cases queue leased.receipt fun n => b.remove queue n.id with
    ⟨n, hn, hqueue, hreceipt, heq⟩ | ⟨_, heq⟩
  · have hafter : (b.complete queue leased.receipt).1 = b.remove queue n.id :=
      congrArg Prod.fst heq
    rw [hafter] at hgone
    have hkey : m.hasKey queue n.id = true := by
      by_contra hother
      exact hgone (List.mem_filter.mpr ⟨hm, by simpa using hother⟩)
    simp only [Queued.hasKey, Bool.and_eq_true, beq_iff_eq] at hkey
    have hsame : m = n := eq_of_key_eq h.keys_nodup hm hn (hkey.1.trans hqueue.symm) hkey.2
    exact hbinds.envelope m hm (hsame ▸ hreceipt)
  · have hafter : (b.complete queue leased.receipt).1 = b := congrArg Prod.fst heq
    rw [hafter] at hgone
    exact absurd hm hgone

end HearingRelay.Broker
