import HearingRelay.Proofs.Message.Written
import HearingRelay.Proofs.Queue.Batch
import HearingRelay.Proofs.Queue.Histories

/-!
What a receipt is good for, told by the calls and their answers alone. A
receipt is current when the last poll that handed its message out gave it, and
no settlement under it has been accepted since. The broker itself only knows
which receipt is on which live message, and the two are the same: a settlement
succeeds under a current receipt, and under any other it is refused and changes
nothing. As no receipt is given out twice, one that was good for a settlement is
never good for another.
-/

namespace HearingRelay

inductive Settlement where
  | complete
  | abandon (delaySeconds : Nat)
  | deadLetter (reason description : String)
  | dispose (disposition : Disposition)

def Settlement.call (receipt : Receipt) : Settlement → QueueCall
  | .complete | .dispose .complete => .complete receipt
  | .abandon delaySeconds => .abandon receipt delaySeconds
  | .dispose .retry => .abandon receipt 0
  | .deadLetter reason description | .dispose (.deadLetter reason description) =>
    .deadLetter receipt reason description

def QueueCall.settles? : QueueCall → Option Receipt
  | .complete receipt | .abandon receipt _ | .deadLetter receipt .. => some receipt
  | .publish _ | .poll _ | .stop => none

theorem Settlement.settles?_call (receipt : Receipt) (settlement : Settlement) :
    (settlement.call receipt).settles? = some receipt := by
  cases settlement with
  | dispose disposition => cases disposition <;> rfl
  | _ => rfl

namespace Broker

def settleBy (b : Broker) (queue : String) (now : Int) (receipt : Receipt) :
    Settlement → Broker × Except QueueError Unit
  | .complete => b.complete queue receipt
  | .abandon delaySeconds => b.abandon queue now receipt delaySeconds
  | .deadLetter reason description => b.deadLetter queue now receipt reason description
  | .dispose disposition => b.settle queue now receipt disposition

def handedOut (b : Broker) (q : Consumer) (now : Int) : QueueCall → List Leased
  | .poll limit =>
    match (b.poll q now limit).2 with
    | .ok batch => batch
    | .error _ => []
  | _ => []

def HandsOver (b : Broker) (q : Consumer) (now : Int) (c : QueueCall) (key : String × String)
    (receipt : Receipt) : Prop :=
  ∃ l ∈ b.handedOut q now c, (q.queue, l.brokerId) = key ∧ l.receipt = receipt

/-- Whether a call settles under a receipt of a queue, and is accepted. -/
def Spends (b : Broker) (q : Consumer) (now : Int) (c : QueueCall) (queue : String)
    (receipt : Receipt) : Prop :=
  q.queue = queue ∧ c.settles? = some receipt ∧ (b.step q now c).2.isOk = true

/-- Whether the last call that handed out the message with a key gave the
receipt, and no settlement under the receipt has been accepted since. -/
def IsCurrent (history : QueueHistory) (key : String × String) (receipt : Receipt) : Prop :=
  Since (fun earlier q now c => (empty.after earlier).HandsOver q now c key receipt)
    (fun earlier q now c => (∀ other, ¬ (empty.after earlier).HandsOver q now c key other) ∧
      ¬ (empty.after earlier).Spends q now c key.1 receipt) history

/-- Whether a live message has the key, and the receipt on it. -/
def Stands (b : Broker) (key : String × String) (receipt : Receipt) : Prop :=
  ∃ m ∈ b.messages, (m.queue, m.id) = key ∧ m.receipt = some receipt

structure Fenced (b : Broker) : Prop where
  wellFormed : b.WellFormed
  /-- A receipt is on one message at most. -/
  receipts_unique : ∀ m ∈ b.messages, ∀ n ∈ b.messages, ∀ receipt, m.receipt = some receipt →
    n.receipt = some receipt → m = n
  written : ∀ m ∈ b.messages, ∃ e : Envelope, m.payload = e.write

theorem empty_fenced : empty.Fenced := ⟨empty_wellFormed, by simp [empty], by simp [empty]⟩

theorem Stands.mem_keys {b : Broker} {key : String × String} {receipt : Receipt}
    (h : b.Stands key receipt) : key ∈ b.keys := by
  obtain ⟨m, hm, hkey, _⟩ := h
  exact Broker.mem_keys.mpr ⟨m, hm, hkey⟩

/-- Messages that can be read are leased and handed out. -/
theorem leaseAll_ok {b : Broker} {deadline : Int} {ms : List Queued}
    (h : ∀ m ∈ ms, ∃ e, Envelope.parse m.payload = .ok e) :
    ∃ batch, (b.leaseAll deadline ms).2 = .ok batch := by
  induction ms generalizing b with
  | nil => exact ⟨[], rfl⟩
  | cons m rest ih =>
    obtain ⟨hfirst, hrest⟩ := List.forall_mem_cons.mp h
    obtain ⟨e, he⟩ := hfirst
    obtain ⟨batch, hbatch⟩ := ih (b := b.leased m deadline) hrest
    rw [leaseAll_cons, he]
    dsimp only
    generalize (b.leased m deadline).leaseAll deadline rest = p at hbatch ⊢
    obtain ⟨b', answer⟩ := p
    dsimp only at hbatch
    subst hbatch
    exact ⟨_, rfl⟩

/-- A poll hands out what it leases, or it is one by a consumer that has been stopped. -/
theorem Fenced.poll_cases {b : Broker} (h : b.Fenced) (q : Consumer) (now : Int) (limit : Nat) :
    b.poll q now limit = (b, .error .stopped) ∨
      ∃ batch, (b.poll q now limit).2 = .ok batch := by
  unfold poll
  split
  · exact Or.inl rfl
  · refine Or.inr (leaseAll_ok fun m hm => ?_)
    have hvisible : m ∈ b.visible q.queue now := List.mem_of_mem_take hm
    rw [visible, Sorting.mem_sort, List.mem_filter] at hvisible
    obtain ⟨e, he⟩ := h.written m hvisible.1
    exact ⟨e, he ▸ e.parse_write⟩

section Settling

variable {b b' : Broker} {m : Queued} {key : String × String} {receipt : Receipt}

/-- What a settlement of a message does to the messages that are held: nobody
holds that one any longer, and whoever held another still does. -/
def Frees (b : Broker) (m : Queued) (b' : Broker) : Prop :=
  ∀ n receipt, n.receipt = some receipt →
    (n ∈ b'.messages ↔ n ∈ b.messages ∧ (n.queue, n.id) ≠ (m.queue, m.id))

theorem frees_remove (b : Broker) (m : Queued) : b.Frees m (b.remove m.queue m.id) :=
  fun _ _ _ => mem_remove

theorem frees_update (hkeys : b.keys.Nodup) (hm : m ∈ b.messages) {f : Queued → Queued}
    (hf : ∀ n, (f n).queue = n.queue ∧ (f n).id = n.id) (hnone : (f m).receipt = none) :
    b.Frees m (b.update m.queue m.id f) := by
  intro n receipt hreceipt
  have hother : (n.queue, n.id) ≠ (m.queue, m.id) →
      (n ∈ (b.update m.queue m.id f).messages ↔ n ∈ b.messages) :=
    fun hne => mem_update_of_ne hf fun hqueue hid => hne (Prod.ext hqueue hid)
  constructor
  · intro hn
    have hne : (n.queue, n.id) ≠ (m.queue, m.id) := by
      intro hsame
      obtain ⟨hqueue, hid⟩ := Prod.mk.inj hsame
      have hkeys' : (b.update m.queue m.id f).keys.Nodup :=
        (update_keys b m.queue m.id hf).symm ▸ hkeys
      have hself : n = f m := eq_of_key_eq hkeys' hn (mem_update_self hm)
        (hqueue.trans (hf m).1.symm) (hid.trans (hf m).2.symm)
      rw [hself, hnone] at hreceipt
      cases hreceipt
    exact ⟨(hother hne).mp hn, hne⟩
  · rintro ⟨hn, hne⟩
    exact (hother hne).mpr hn

theorem Frees.stands_iff (h : b.Frees m b') :
    b'.Stands key receipt ↔ b.Stands key receipt ∧ key ≠ (m.queue, m.id) := by
  constructor
  · rintro ⟨n, hn, rfl, hreceipt⟩
    obtain ⟨hmem, hne⟩ := (h n receipt hreceipt).mp hn
    exact ⟨⟨n, hmem, rfl, hreceipt⟩, hne⟩
  · rintro ⟨⟨n, hn, rfl, hreceipt⟩, hne⟩
    exact ⟨n, (h n receipt hreceipt).mpr ⟨hn, hne⟩, rfl, hreceipt⟩

/-- Every settlement is one under its receipt: of the message that has it, or of none. -/
theorem settleBy_cases (hkeys : b.keys.Nodup) (queue : String) (now : Int) (receipt : Receipt)
    (settlement : Settlement) :
    (∃ m ∈ b.messages, m.queue = queue ∧ m.receipt = some receipt ∧
        b.Frees m (b.settleBy queue now receipt settlement).1 ∧
        (b.settleBy queue now receipt settlement).2 = .ok ()) ∨
      (∀ m ∈ b.messages, m.queue = queue → m.receipt ≠ some receipt) ∧
        b.settleBy queue now receipt settlement = (b, .error (.leaseLost receipt)) := by
  have hcases : ∀ f : Queued → Broker, (∀ m ∈ b.messages, m.queue = queue → b.Frees m (f m)) →
      (∃ m ∈ b.messages, m.queue = queue ∧ m.receipt = some receipt ∧
          b.Frees m (b.settleWith queue receipt f).1 ∧
          (b.settleWith queue receipt f).2 = .ok ()) ∨
        (∀ m ∈ b.messages, m.queue = queue → m.receipt ≠ some receipt) ∧
          b.settleWith queue receipt f = (b, .error (.leaseLost receipt)) := by
    intro f hf
    rcases b.settleWith_cases queue receipt f with ⟨m, hm, hqueue, hreceipt, heq⟩ | hnone
    · exact Or.inl ⟨m, hm, hqueue, hreceipt, heq ▸ hf m hm hqueue, heq ▸ rfl⟩
    · exact Or.inr hnone
  have hremoved : ∀ m ∈ b.messages, m.queue = queue → b.Frees m (b.remove queue m.id) := by
    rintro m - rfl
    exact b.frees_remove m
  have hreturned : ∀ delaySeconds : Nat, ∀ m ∈ b.messages, m.queue = queue →
      b.Frees m (b.update queue m.id fun m =>
        { m with visibleAt := now + delaySeconds * 1000, receipt := none }) := by
    rintro delaySeconds m hm rfl
    exact frees_update hkeys hm (fun _ => ⟨rfl, rfl⟩) rfl
  cases settlement with
  | complete => exact hcases _ hremoved
  | abandon delaySeconds => exact hcases _ (hreturned delaySeconds)
  | deadLetter reason description => exact hcases _ hremoved
  | dispose disposition =>
    cases disposition with
    | complete => exact hcases _ hremoved
    | retry => exact hcases _ (hreturned 0)
    | deadLetter reason description => exact hcases _ hremoved

/-- A settlement does what its call does. -/
theorem step_call (b : Broker) (q : Consumer) (now : Int) (receipt : Receipt)
    (settlement : Settlement) :
    (b.step q now (settlement.call receipt)).1 = (b.settleBy q.queue now receipt settlement).1 ∧
      (b.step q now (settlement.call receipt)).2.isOk =
        (b.settleBy q.queue now receipt settlement).2.isOk := by
  cases settlement with
  | dispose disposition => cases disposition <;> exact ⟨rfl, rfl⟩
  | _ => exact ⟨rfl, rfl⟩

end Settling

section Step

variable {b b' : Broker} {q : Consumer} {now : Int} {c : QueueCall} {key : String × String}
  {receipt : Receipt}

/-- What a call means for a receipt: it is on the message with a key when the
call hands the message out under it, or when it was on it, and the call neither
hands it out nor settles under it. -/
def Tracks (b : Broker) (q : Consumer) (now : Int) (c : QueueCall) (key : String × String)
    (receipt : Receipt) : Prop :=
  (b.step q now c).1.Stands key receipt ↔ b.HandsOver q now c key receipt ∨
    (b.Stands key receipt ∧ (∀ other, ¬ b.HandsOver q now c key other) ∧
      ¬ b.Spends q now c key.1 receipt)

/-- A poll hands out the batch that it answers with. -/
theorem handedOut_poll {limit : Nat} {batch : List Leased}
    (h : (b.poll q now limit).2 = .ok batch) :
    b.handedOut q now (.poll limit) = batch := by
  simp [handedOut, h]

theorem not_handsOver (h : b.handedOut q now c = []) (other : Receipt) :
    ¬ b.HandsOver q now c key other := by
  rintro ⟨l, hl, _⟩
  rw [h] at hl
  cases hl

theorem not_spends (hc : c.settles? = none) : ¬ b.Spends q now c key.1 receipt := by
  rintro ⟨_, hsettles, _⟩
  rw [hc] at hsettles
  cases hsettles

/-- A call that hands nothing out has to be looked at for what it settles only. -/
theorem tracks_of_handedOut_eq_nil (hhands : b.handedOut q now c = [])
    (h : (b.step q now c).1.Stands key receipt ↔
      b.Stands key receipt ∧ ¬ b.Spends q now c key.1 receipt) :
    b.Tracks q now c key receipt := by
  have hnone : ∀ other, ¬ b.HandsOver q now c key other := not_handsOver hhands
  unfold Tracks
  rw [h]
  constructor
  · rintro ⟨hstands, hunspent⟩
    exact Or.inr ⟨hstands, hnone, hunspent⟩
  · rintro (hover | ⟨hstands, _, hunspent⟩)
    · exact absurd hover (hnone receipt)
    · exact ⟨hstands, hunspent⟩

/-- After a batch a receipt is on a message that was handed out under it, or on
one that was left alone. -/
theorem HandsOut.stands_iff {queue : String} {deadline : Int} {batch : List Leased}
    (h : b.HandsOut queue deadline batch b') (hkeys : b'.keys.Nodup) :
    b'.Stands key receipt ↔
      (∃ l ∈ batch, (queue, l.brokerId) = key ∧ l.receipt = receipt) ∨
        (b.Stands key receipt ∧ ∀ l ∈ batch, (queue, l.brokerId) ≠ key) := by
  have hother : ∀ m', (∀ l ∈ batch, (queue, l.brokerId) ≠ (m'.queue, m'.id)) →
      (m' ∈ b'.messages ↔ m' ∈ b.messages) := by
    intro m' hne
    apply h.others m'
    intro hqueue hin
    obtain ⟨l, hl, hid⟩ := List.mem_map.mp hin
    exact hne l hl (Prod.ext hqueue.symm hid)
  constructor
  · rintro ⟨m', hm', rfl, hreceipt⟩
    by_cases hin : ∃ l ∈ batch, (queue, l.brokerId) = (m'.queue, m'.id)
    · obtain ⟨l, hl, hkey⟩ := hin
      obtain ⟨hqueue, hid⟩ := Prod.mk.inj hkey
      obtain ⟨m, _, hmqueue, hmid, _, hleased⟩ := h.leased l hl
      obtain rfl : m' = m.lease l.receipt deadline := eq_of_key_eq hkeys hm' hleased
        (hqueue.symm.trans hmqueue.symm) (hid.symm.trans hmid.symm)
      exact Or.inl ⟨l, hl, hkey, Option.some.inj hreceipt⟩
    · have hne : ∀ l ∈ batch, (queue, l.brokerId) ≠ (m'.queue, m'.id) :=
        fun l hl hkey => hin ⟨l, hl, hkey⟩
      exact Or.inr ⟨⟨m', (hother m' hne).mp hm', rfl, hreceipt⟩, hne⟩
  · rintro (⟨l, hl, rfl, rfl⟩ | ⟨⟨m', hm', rfl, hreceipt⟩, hne⟩)
    · obtain ⟨m, _, hqueue, hid, _, hleased⟩ := h.leased l hl
      exact ⟨m.lease l.receipt deadline, hleased, Prod.ext hqueue hid, rfl⟩
    · exact ⟨m', (hother m' hne).mpr hm', rfl, hreceipt⟩

/-- A settlement takes the receipt off the message that has it, when it is
accepted, and no other receipt off any. -/
theorem Fenced.tracks_settlement (h : b.Fenced) (spent : Receipt) (settlement : Settlement) :
    b.Tracks q now (settlement.call spent) key receipt := by
  have hkeys := h.wellFormed.keys_nodup
  obtain ⟨hstep, hanswer⟩ := b.step_call q now spent settlement
  refine tracks_of_handedOut_eq_nil ?_ ?_
  · cases settlement with
    | dispose disposition => cases disposition <;> rfl
    | _ => rfl
  rw [hstep]
  rcases settleBy_cases hkeys q.queue now spent settlement with
    ⟨m, hm, hqueue, hreceipt, hfrees, hok⟩ | ⟨_, hlost⟩
  · rw [hfrees.stands_iff]
    refine and_congr_right fun hstands => not_congr ?_
    -- What has the receipt is the settled message exactly when it is settled under it.
    obtain ⟨n, hn, rfl, hnreceipt⟩ := hstands
    constructor
    · intro hsame
      obtain ⟨hsameQueue, hsameId⟩ := Prod.mk.inj hsame
      obtain rfl := eq_of_key_eq hkeys hn hm hsameQueue hsameId
      obtain rfl : spent = receipt := Option.some.inj (hreceipt.symm.trans hnreceipt)
      exact ⟨hqueue.symm, settlement.settles?_call spent, by rw [hanswer, hok]; rfl⟩
    · rintro ⟨_, hsettles, _⟩
      obtain rfl : spent = receipt :=
        Option.some.inj ((settlement.settles?_call spent).symm.trans hsettles)
      rw [h.receipts_unique m hm n hn spent hreceipt hnreceipt]
  · rw [hlost]
    refine (and_iff_left ?_).symm
    rintro ⟨_, _, hok⟩
    rw [hanswer, hlost] at hok
    cases hok

/-- A poll puts new receipts on what it hands out, and touches nothing else. -/
theorem Fenced.tracks_poll (h : b.Fenced) (limit : Nat) :
    b.Tracks q now (.poll limit) key receipt := by
  have hkeys := h.wellFormed.keys_nodup
  have hunspent : ¬ b.Spends q now (.poll limit) key.1 receipt := not_spends rfl
  rcases h.poll_cases q now limit with hstopped | ⟨batch, hbatch⟩
  · have hsame : b.step q now (.poll limit) = (b, .error .stopped) := hstopped
    refine tracks_of_handedOut_eq_nil (by simp [handedOut, hstopped]) ?_
    rw [hsame]
    exact (and_iff_left hunspent).symm
  · have hkeys' := (b.effect_step q now (.poll limit)).keys_nodup hkeys
    have hout : b.HandsOut q.queue (now + q.visibilitySeconds * 1000) batch
        (b.step q now (.poll limit)).1 := poll_handsOut h.wellFormed hbatch
    have hover : ∀ other, b.HandsOver q now (.poll limit) key other ↔
        ∃ l ∈ batch, (q.queue, l.brokerId) = key ∧ l.receipt = other := by
      intro other
      unfold HandsOver
      rw [handedOut_poll hbatch]
    constructor
    · intro hstands
      rcases (hout.stands_iff hkeys').mp hstands with hnew | ⟨hstood, hne⟩
      · exact Or.inl ((hover receipt).mpr hnew)
      · refine Or.inr ⟨hstood, fun other hother => ?_, hunspent⟩
        obtain ⟨l, hl, hkey, _⟩ := (hover other).mp hother
        exact hne l hl hkey
    · rintro (hnew | ⟨hstood, hnone, _⟩)
      · exact (hout.stands_iff hkeys').mpr (Or.inl ((hover receipt).mp hnew))
      · refine (hout.stands_iff hkeys').mpr (Or.inr ⟨hstood, fun l hl hkey => ?_⟩)
        exact hnone l.receipt ((hover l.receipt).mpr ⟨l, hl, hkey, rfl⟩)

/-- A message is published with no receipt on it. -/
theorem stands_publish {queue : String} {e : Envelope} :
    (b.publish queue now e).Stands key receipt ↔ b.Stands key receipt := by
  constructor
  · rintro ⟨m, hm, hkey, hreceipt⟩
    rcases mem_publish.mp hm with hold | ⟨_, rfl⟩
    · exact ⟨m, hold, hkey, hreceipt⟩
    · cases hreceipt
  · rintro ⟨m, hm, hkey, hreceipt⟩
    exact ⟨m, mem_publish.mpr (Or.inl hm), hkey, hreceipt⟩

theorem Fenced.tracks (h : b.Fenced) (q : Consumer) (now : Int) (c : QueueCall)
    (key : String × String) (receipt : Receipt) : b.Tracks q now c key receipt := by
  cases c with
  | publish e =>
    exact tracks_of_handedOut_eq_nil rfl
      (stands_publish.trans (and_iff_left (not_spends rfl)).symm)
  | poll limit => exact h.tracks_poll limit
  | complete spent => exact h.tracks_settlement spent .complete
  | abandon spent delaySeconds => exact h.tracks_settlement spent (.abandon delaySeconds)
  | deadLetter spent reason description =>
    exact h.tracks_settlement spent (.deadLetter reason description)
  | stop =>
    refine tracks_of_handedOut_eq_nil rfl (Iff.trans ?_ (and_iff_left (not_spends rfl)).symm)
    simp only [step, stop]
    split <;> rfl

/-- A receipt that is handed out is on no other message. -/
theorem Fenced.key_of_handsOver (h : b.Fenced) (hover : b.HandsOver q now c key receipt) :
    ∀ m' ∈ (b.step q now c).1.messages, m'.receipt = some receipt → (m'.queue, m'.id) = key := by
  obtain ⟨l, hl, hkey, rfl⟩ := hover
  cases c with
  | poll limit =>
    cases hpoll : (b.poll q now limit).2 with
    | error e => simp [handedOut, hpoll] at hl
    | ok batch =>
      rw [handedOut_poll hpoll] at hl
      intro m' hm' hreceipt
      obtain ⟨hqueue, hid⟩ := (poll_handsOut h.wellFormed hpoll).own l hl m' hm' hreceipt
      exact (Prod.ext hqueue hid).trans hkey
  | _ => cases hl

theorem step_leads (h : b.WellFormed) (q : Consumer) (now : Int) (c : QueueCall) :
    b.Leads (b.step q now c).1 := by
  cases c with
  | publish e => exact publish_leads b q.queue now e
  | poll limit => exact (poll_spec h q now limit).1
  | complete receipt => exact settleWith_induction (.refl b) fun m _ => remove_leads b q.queue m.id
  | abandon receipt delaySeconds =>
    exact settleWith_induction (.refl b) fun m _ => abandoned_leads b q.queue m.id _
  | deadLetter receipt reason description =>
    refine settleWith_induction (.refl b) fun m _ => ?_
    have hremove := remove_leads b q.queue m.id
    exact ⟨hremove.issued_le, hremove.receipts⟩
  | stop =>
    simp only [step, stop]
    split
    · exact .refl b
    · exact ⟨Nat.le_refl _, (Leads.refl b).receipts⟩

theorem step_fenced (h : b.Fenced) (q : Consumer) (now : Int) (c : QueueCall) :
    (b.step q now c).1.Fenced := by
  have heffect := b.effect_step q now c
  have hkeys := heffect.keys_nodup h.wellFormed.keys_nodup
  refine ⟨(step_leads h.wellFormed q now c).wellFormed h.wellFormed hkeys, ?_, ?_⟩
  · intro m hm n hn receipt hmreceipt hnreceipt
    have hm' := (h.tracks q now c (m.queue, m.id) receipt).mp ⟨m, hm, rfl, hmreceipt⟩
    have hn' := (h.tracks q now c (n.queue, n.id) receipt).mp ⟨n, hn, rfl, hnreceipt⟩
    have hsame : (m.queue, m.id) = (n.queue, n.id) := by
      rcases hm' with hover | ⟨⟨m₀, hm₀, hmkey, hmold⟩, _⟩
      · exact (h.key_of_handsOver hover n hn hnreceipt).symm
      · rcases hn' with hover | ⟨⟨n₀, hn₀, hnkey, hnold⟩, _⟩
        · exact h.key_of_handsOver hover m hm hmreceipt
        · rw [← hmkey, ← hnkey, h.receipts_unique m₀ hm₀ n₀ hn₀ receipt hmold hnold]
    obtain ⟨hqueue, hid⟩ := Prod.mk.inj hsame
    exact eq_of_key_eq hkeys hm hn hqueue hid
  · intro m hm
    generalize (b.step q now c).1 = b' at heffect hm
    cases heffect with
    | rewritten _ _ hrewrites =>
      obtain ⟨n, hn, hsame⟩ := hrewrites.exists_of_mem hm
      exact hsame.payload ▸ h.written n hn
    | added e hfree =>
      rcases List.mem_append.mp hm with hold | hnew
      · exact h.written m hold
      · obtain rfl := List.mem_singleton.mp hnew
        exact ⟨e, rfl⟩
    | completed => exact h.written m (mem_remove.mp hm).1
    | buried => exact h.written m (mem_remove.mp hm).1

end Step

theorem after_fenced {b : Broker} (h : b.Fenced) (history : QueueHistory) :
    (b.after history).Fenced := by
  induction history generalizing b with
  | nil => exact h
  | cons call rest ih => exact ih (step_fenced h call.1 call.2.1 call.2.2)

theorem after_leads {b : Broker} (h : b.Fenced) (history : QueueHistory) :
    b.Leads (b.after history) := by
  induction history generalizing b with
  | nil => exact .refl b
  | cons call rest ih =>
    exact (step_leads h.wellFormed call.1 call.2.1 call.2.2).trans
      (ih (step_fenced h call.1 call.2.1 call.2.2))

theorem Fenced.settleBy {b : Broker} (h : b.Fenced) (queue : String) (now : Int)
    (receipt : Receipt) (settlement : Settlement) :
    (b.settleBy queue now receipt settlement).1.Fenced := by
  rw [← (b.step_call ⟨queue, 0, 0⟩ now receipt settlement).1]
  exact step_fenced h ⟨queue, 0, 0⟩ now (settlement.call receipt)

theorem Fenced.settleBy_leads {b : Broker} (h : b.Fenced) (queue : String) (now : Int)
    (receipt : Receipt) (settlement : Settlement) :
    b.Leads (b.settleBy queue now receipt settlement).1 := by
  rw [← (b.step_call ⟨queue, 0, 0⟩ now receipt settlement).1]
  exact step_leads h.wellFormed ⟨queue, 0, 0⟩ now (settlement.call receipt)

/-- A receipt under which a settlement was accepted is on no message ever after:
it has been taken off its message, and polls give out new ones only. -/
theorem Fenced.not_stands_after_settleBy {b : Broker} (h : b.Fenced) {queue : String} {now : Int}
    {receipt : Receipt} {settlement : Settlement}
    (hok : (b.settleBy queue now receipt settlement).2 = .ok ()) (later : QueueHistory)
    (key : String × String) :
    ¬ ((b.settleBy queue now receipt settlement).1.after later).Stands key receipt := by
  rcases settleBy_cases h.wellFormed.keys_nodup queue now receipt settlement with
    ⟨m, hm, hqueue, hreceipt, hfrees, _⟩ | ⟨_, hlost⟩
  · have hleads := h.settleBy_leads queue now receipt settlement
    have hfenced := h.settleBy queue now receipt settlement
    rintro ⟨n', hn', -, hn'receipt⟩
    rcases (after_leads hfenced later).receipts n' hn' receipt hn'receipt with
      ⟨n, hn, hnreceipt, -⟩ | ⟨serial, hfrom, -, hserial⟩
    · obtain ⟨hmem, hne⟩ := (hfrees n receipt hnreceipt).mp hn
      exact hne (by rw [h.receipts_unique n hmem m hm receipt hnreceipt hreceipt])
    · obtain ⟨issued, hlt, hissued⟩ := h.wellFormed.receipts_issued m hm receipt hreceipt
      have hsame : serial = issued := Receipt.issued.inj (hserial.symm.trans hissued)
      have hle := hleads.issued_le
      omega
  · rw [hlost] at hok
    cases hok

/-- A receipt is current exactly when it is on the live message that it was given for. -/
theorem stands_iff_isCurrent (history : QueueHistory) (key : String × String) (receipt : Receipt) :
    (empty.after history).Stands key receipt ↔ IsCurrent history key receipt := by
  refine iff_since (P := fun b => b.Stands key receipt) ?_ (fun history q now c => ?_) history
  · rintro ⟨m, hm, _⟩
    cases hm
  · exact (after_fenced empty_fenced history).tracks q now c key receipt

/-- A settlement succeeds when its receipt is on a message of the queue, and is
refused with no effect otherwise. -/
theorem Fenced.settleBy_of_stands {b : Broker} (h : b.Fenced) (queue : String) (now : Int)
    (receipt : Receipt) (settlement : Settlement) :
    ((b.settleBy queue now receipt settlement).2 = .ok () ↔ ∃ id, b.Stands (queue, id) receipt) ∧
      ((¬ ∃ id, b.Stands (queue, id) receipt) →
        b.settleBy queue now receipt settlement = (b, .error (.leaseLost receipt))) := by
  rcases settleBy_cases h.wellFormed.keys_nodup queue now receipt settlement with
    ⟨m, hm, rfl, hreceipt, _, hok⟩ | ⟨hnone, hlost⟩
  · have hstands : ∃ id, b.Stands (m.queue, id) receipt := ⟨m.id, m, hm, rfl, hreceipt⟩
    exact ⟨iff_of_true hok hstands, fun hnot => absurd hstands hnot⟩
  · refine ⟨iff_of_false (by simp [hlost]) ?_, fun _ => hlost⟩
    rintro ⟨id, m, hm, hkey, hreceipt⟩
    exact hnone m hm (Prod.mk.inj hkey).1 hreceipt

/-- Receipts fence settlements off. After any calls of any queues by any number
of consumers, and for every receipt, given out or not, a settlement succeeds
exactly when the receipt is current: the last poll that handed out some message
of the queue gave it, and no completion, abandonment or dead-lettering under it
was accepted since. The message is live then. Under any other receipt the
settlement says that the lease is lost, and the broker stays as it is, its
messages and its dead letters. And once a settlement was accepted, every later
one under its receipt is such a refusal, whatever is called in between. -/
theorem settlement_fenced (history : QueueHistory) (queue : String) (now : Int)
    (receipt : Receipt) (settlement : Settlement) :
    let b := empty.after history
    let settled := b.settleBy queue now receipt settlement
    (settled.2 = .ok () ↔ ∃ id, IsCurrent history (queue, id) receipt) ∧
      (∀ id, IsCurrent history (queue, id) receipt → (queue, id) ∈ b.keys) ∧
      ((¬ ∃ id, IsCurrent history (queue, id) receipt) →
        settled = (b, .error (.leaseLost receipt))) ∧
      (settled.2 = .ok () → ∀ later now' settlement',
        (settled.1.after later).settleBy queue now' receipt settlement' =
          (settled.1.after later, .error (.leaseLost receipt))) := by
  intro b settled
  have hfenced : b.Fenced := after_fenced empty_fenced history
  have hcurrent : ∀ id, b.Stands (queue, id) receipt ↔ IsCurrent history (queue, id) receipt :=
    fun id => stands_iff_isCurrent history (queue, id) receipt
  simp only [← hcurrent]
  obtain ⟨hok, hlost⟩ := hfenced.settleBy_of_stands queue now receipt settlement
  refine ⟨hok, fun id hstands => hstands.mem_keys, hlost, ?_⟩
  intro haccepted later now' settlement'
  have hsettled : settled.1.Fenced := hfenced.settleBy queue now receipt settlement
  refine ((after_fenced hsettled later).settleBy_of_stands queue now' receipt settlement').2 ?_
  rintro ⟨id, hstands⟩
  exact hfenced.not_stands_after_settleBy haccepted later (queue, id) hstands

/-- A message that one consumer publishes and another polls is completed under
its receipt, and never again; a receipt of nobody is refused. -/
theorem settlement_fenced_twice :
    let history : QueueHistory := [(⟨"inbound", 0, 30⟩, 0, .publish ⟨"a", .empty, "\x7b\x7d"⟩),
      (⟨"inbound", 1, 30⟩, 0, .poll 1)]
    let b := empty.after history
    let settled := b.settleBy "inbound" 0 (.issued 0) .complete
    settled.2 = .ok () ∧ (∃ id, IsCurrent history ("inbound", id) (.issued 0)) ∧
      (∀ later now settlement,
        (settled.1.after later).settleBy "inbound" now (.issued 0) settlement =
          (settled.1.after later, .error (.leaseLost (.issued 0)))) ∧
      (¬ ∃ id, IsCurrent history ("inbound", id) (.foreign "nobody")) ∧
      b.settleBy "inbound" 0 (.foreign "nobody") .complete =
        (b, .error (.leaseLost (.foreign "nobody"))) := by
  intro history b settled
  have hok : settled.2 = .ok () := by decide +kernel
  obtain ⟨hiff, -, -, hspent⟩ := settlement_fenced history "inbound" 0 (.issued 0) .complete
  obtain ⟨hnobody, -, hrefused, -⟩ :=
    settlement_fenced history "inbound" 0 (.foreign "nobody") .complete
  have hnot : (b.settleBy "inbound" 0 (.foreign "nobody") .complete).2 ≠ .ok () := by
    decide +kernel
  exact ⟨hok, hiff.mp hok, hspent hok, mt hnobody.mpr hnot, hrefused (mt hnobody.mpr hnot)⟩

end Broker

end HearingRelay
