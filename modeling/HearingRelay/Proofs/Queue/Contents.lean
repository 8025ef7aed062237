import HearingRelay.Proofs.Message.Reports
import HearingRelay.Proofs.Queue.Polling

/-!
What messages say, from their publication to the one who reads them. A live
message carries what was published under its key when the key was last free, and
a dead letter what its message carried. Both are stored as written texts and read
when they are handed out, and they come back as they were: whatever is asked of
the queues, a poll hands out the published envelopes, and the dead letters can
always be read.
-/

namespace HearingRelay.Broker

/-- Whether a call takes the message with a key off its queue: a completion or a
dead-lettering under the receipt that is current for it. -/
def Removes (history : QueueHistory) (q : Consumer) (c : QueueCall) (key : String × String) :
    Prop :=
  q.queue = key.1 ∧ ∃ receipt, IsCurrent history key receipt ∧
    (c = .complete receipt ∨ ∃ reason description, c = .deadLetter receipt reason description)

/-- Whether anything was published under a key and not taken off its queue since. -/
def IsLive (history : QueueHistory) (key : String × String) : Prop :=
  Since (fun _ q _ c => ∃ e, c = .publish e ∧ (q.queue, e.id) = key)
    (fun earlier q _ c => ¬ Removes earlier q c key) history

/-- Whether an envelope was published under a key that was free, and its message
was not taken off its queue since. -/
def Published (history : QueueHistory) (key : String × String) (e : Envelope) : Prop :=
  Since (fun earlier q _ c =>
      c = .publish e ∧ (q.queue, e.id) = key ∧ ¬ IsLive earlier key)
    (fun earlier q _ c => ¬ Removes earlier q c key) history

def Buries (history : QueueHistory) (q : Consumer) (c : QueueCall) (key : String × String) : Prop :=
  q.queue = key.1 ∧ ∃ receipt reason description, c = .deadLetter receipt reason description ∧
    IsCurrent history key receipt

/-- Whether the message that was published as an envelope was set aside at a
reading of the clock, for a reason, and none with its key has been since. -/
def SetAside (history : QueueHistory) (key : String × String) (e : Envelope) (time : Int)
    (reason description : String) : Prop :=
  Since (fun earlier q now c => now = time ∧ q.queue = key.1 ∧ ∃ receipt,
      c = .deadLetter receipt reason description ∧ IsCurrent earlier key receipt ∧
      Published earlier key e)
    (fun earlier q _ c => ¬ Buries earlier q c key) history

section Live

variable {history : QueueHistory} {q : Consumer} {c : QueueCall} {key : String × String}

theorem Removes.not_mem_keys (h : Removes history q c key) (now : Int) :
    key ∉ ((empty.after history).step q now c).1.keys := by
  have hfenced : (empty.after history).Fenced := after_fenced empty_fenced history
  obtain ⟨hqueue, receipt, hcurrent, hcall⟩ := h
  obtain ⟨m, hm, rfl, hreceipt⟩ := (stands_iff_isCurrent history key receipt).mpr hcurrent
  dsimp only at hqueue
  have hsettle := settleWith_leased hfenced.wellFormed.keys_nodup hm hreceipt
    fun n hn _ hsame => by rw [hfenced.receipts_unique n hn m hm receipt hsame hreceipt]
  rcases hcall with rfl | ⟨reason, description, rfl⟩
  · have hstep : ((empty.after history).step q now (.complete receipt)).1 =
        (empty.after history).remove m.queue m.id := by
      rw [step, hqueue]
      exact congrArg Prod.fst (hsettle _)
    rw [hstep]
    exact not_mem_remove_keys _ m.queue m.id
  · have hstep : ((empty.after history).step q now (.deadLetter receipt reason description)).1 =
        (empty.after history).bury m (m.letter now reason description) := by
      rw [step, hqueue]
      exact congrArg Prod.fst (hsettle _)
    rw [hstep]
    exact not_mem_remove_keys _ m.queue m.id

/-- A key is live when something is published under it, or when it was live and
its message is not taken off the queue. -/
theorem mem_keys_step (history : QueueHistory) (q : Consumer) (now : Int) (c : QueueCall)
    (key : String × String) :
    key ∈ ((empty.after history).step q now c).1.keys ↔
      (∃ e, c = .publish e ∧ (q.queue, e.id) = key) ∨
        (key ∈ (empty.after history).keys ∧ ¬ Removes history q c key) := by
  have hkeys := (after_fenced empty_fenced history).wellFormed.keys_nodup
  constructor
  · intro hlive
    have hstays : ¬ Removes history q c key := fun hremoves => hremoves.not_mem_keys now hlive
    obtain ⟨m', hm', rfl⟩ := Broker.mem_keys.mp hlive
    cases origin_of_mem hkeys hm' with
    | published e hfree => exact Or.inl ⟨e, rfl, rfl⟩
    | kept _ _ hm => exact Or.inr ⟨Broker.mem_keys.mpr ⟨m', hm, rfl⟩, hstays⟩
    | leased limit serial m hm => exact Or.inr ⟨Broker.mem_keys.mpr ⟨m, hm, rfl⟩, hstays⟩
    | returned receipt delaySeconds m hm =>
      exact Or.inr ⟨Broker.mem_keys.mpr ⟨m, hm, rfl⟩, hstays⟩
  · rintro (⟨e, rfl, rfl⟩ | ⟨hlive, hstays⟩)
    · by_cases htaken : (q.queue, e.id) ∈ (empty.after history).keys
      · rw [step, publish_of_mem_keys htaken]
        exact htaken
      · exact Broker.mem_keys.mpr ⟨_, mem_publish.mpr (Or.inr ⟨htaken, rfl⟩), rfl⟩
    · by_contra hlost
      obtain ⟨receipt, hcall, m, hm, rfl, hqueue, hreceipt⟩ :=
        (effect_step _ q now c).removed_of_lost hlive hlost
      refine hstays ⟨hqueue.symm, receipt, ?_, hcall⟩
      exact (stands_iff_isCurrent history _ receipt).mp ⟨m, hm, rfl, hreceipt⟩

/-- The keys of the broker are those that are live by the calls. -/
theorem mem_keys_iff_isLive (history : QueueHistory) (key : String × String) :
    key ∈ (empty.after history).keys ↔ IsLive history key :=
  iff_since (P := fun b => key ∈ b.keys) (by simp [keys, empty])
    (fun history q now c => mem_keys_step history q now c key) history

end Live

section Carrying

variable {b : Broker} {q : Consumer} {now : Int} {c : QueueCall} {key : String × String}
  {e : Envelope}

def Carries (b : Broker) (key : String × String) (e : Envelope) : Prop :=
  ∃ m ∈ b.messages, (m.queue, m.id) = key ∧ m.payload = e.write

theorem Carries.mem_keys (h : b.Carries key e) : key ∈ b.keys := by
  obtain ⟨m, hm, hkey, -⟩ := h
  exact Broker.mem_keys.mpr ⟨m, hm, hkey⟩

/-- A message carries what is published under a free key, or what it carried. -/
theorem carries_step (hkeys : b.keys.Nodup) :
    (b.step q now c).1.Carries key e ↔
      (c = .publish e ∧ (q.queue, e.id) = key ∧ key ∉ b.keys) ∨
        (b.Carries key e ∧ key ∈ (b.step q now c).1.keys) := by
  constructor
  · intro hcarries
    have hlive := hcarries.mem_keys
    obtain ⟨m', hm', hkey, hpayload⟩ := hcarries
    cases origin_of_mem hkeys hm' with
    | kept _ _ hm => exact Or.inr ⟨⟨m', hm, hkey, hpayload⟩, hlive⟩
    | published e' hfree =>
      obtain rfl : e' = e := Envelope.write_injective hpayload
      exact Or.inl ⟨rfl, hkey, hkey ▸ hfree⟩
    | leased limit serial m hm => exact Or.inr ⟨⟨m, hm, hkey, hpayload⟩, hlive⟩
    | returned receipt delaySeconds m hm => exact Or.inr ⟨⟨m, hm, hkey, hpayload⟩, hlive⟩
  · rintro (⟨rfl, hkey, hfree⟩ | ⟨⟨m, hm, hkey, hpayload⟩, hlive⟩)
    · exact ⟨_, mem_publish.mpr (Or.inr ⟨hkey ▸ hfree, rfl⟩), hkey, rfl⟩
    · obtain ⟨m', hm', hkey'⟩ := Broker.mem_keys.mp hlive
      obtain ⟨hqueue, hid⟩ := Prod.mk.inj (hkey'.trans hkey.symm)
      have hsame := (b.effect_step q now c).sameContent hkeys hm hm' hqueue hid
      exact ⟨m', hm', hkey', hsame.payload.trans hpayload⟩

/-- The live messages carry what was published. -/
theorem carries_iff_published (history : QueueHistory) (key : String × String) (e : Envelope) :
    (empty.after history).Carries key e ↔ Published history key e := by
  refine iff_since (P := fun b => b.Carries key e) ?_ (fun history q now c => ?_) history
  · rintro ⟨m, hm, -⟩
    cases hm
  · rw [carries_step (after_fenced empty_fenced history).wellFormed.keys_nodup,
      mem_keys_iff_isLive]
    refine or_congr_right (and_congr_right fun hcarries => ?_)
    constructor
    · exact fun hlive hremoves => hremoves.not_mem_keys now hlive
    · exact fun hstays => (mem_keys_step ..).mpr (Or.inr ⟨hcarries.mem_keys, hstays⟩)

/-- What a poll hands out under a key is what the message carries. -/
theorem Fenced.carries_iff_of_batch (h : b.Fenced) {limit : Nat} {batch : List Leased}
    (hbatch : (b.step q now (.poll limit)).2 = .ok batch) {l : Leased} (hl : l ∈ batch)
    (e : Envelope) : b.Carries (q.queue, l.brokerId) e ↔ e = l.envelope := by
  have hout : b.HandsOut q.queue (now + q.visibilitySeconds * 1000) batch
      (b.step q now (.poll limit)).1 := poll_handsOut h.wellFormed hbatch
  obtain ⟨m, hm, hqueue, hid, -, hleased⟩ := hout.leased l hl
  obtain ⟨-, -, hbinds⟩ := poll_spec h.wellFormed q now limit
  have hread : Envelope.parse m.payload = .ok l.envelope :=
    (hbinds batch hbatch l hl).envelope (m.lease _ _) hleased rfl
  constructor
  · rintro ⟨n, hn, hkey, hpayload⟩
    obtain ⟨hnqueue, hnid⟩ := Prod.mk.inj hkey
    obtain rfl := eq_of_key_eq h.wellFormed.keys_nodup hn hm (hnqueue.trans hqueue.symm)
      (hnid.trans hid.symm)
    rw [hpayload, e.parse_write] at hread
    exact Except.ok.inj hread
  · rintro rfl
    obtain ⟨e', hwritten⟩ := h.written m hm
    rw [hwritten, e'.parse_write] at hread
    exact ⟨m, hm, Prod.ext hqueue hid, hwritten.trans (congrArg _ (Except.ok.inj hread))⟩

end Carrying

section Letters

variable {b : Broker} {q : Consumer} {now time : Int} {c : QueueCall} {key : String × String}
  {e : Envelope} {reason description : String}

def HasLetter (b : Broker) (key : String × String) (e : Envelope) (time : Int)
    (reason description : String) : Prop :=
  ∃ d ∈ b.deadLetters, (d.queue, d.id) = key ∧ d.payload = e.write ∧ d.time = time ∧
    d.reason = reason ∧ d.description = description

theorem mem_bury {m : Queued} {letter d : DeadLetter} :
    d ∈ (b.bury m letter).deadLetters ↔
      (d ∈ b.deadLetters ∧ (d.queue, d.id) ≠ (m.queue, m.id)) ∨ d = letter := by
  simp only [bury, List.mem_append, List.mem_filter, List.mem_singleton, ne_eq, Prod.mk.injEq]
  rw [Bool.not_eq_true', Bool.and_eq_false_imp]
  simp

/-- A call sets one message aside, or none and leaves the letters as they are. -/
theorem letters_step (b : Broker) (q : Consumer) (now : Int) (c : QueueCall) :
    (∃ receipt reason description, ∃ m ∈ b.messages,
        c = .deadLetter receipt reason description ∧ m.queue = q.queue ∧
        m.receipt = some receipt ∧
        (b.step q now c).1.deadLetters =
          (b.bury m (m.letter now reason description)).deadLetters) ∨
      (∀ id receipt reason description, c = .deadLetter receipt reason description →
          ¬ b.Stands (q.queue, id) receipt) ∧
        (b.step q now c).1.deadLetters = b.deadLetters := by
  cases c with
  | publish e => exact Or.inr ⟨by simp, publish_deadLetters b q.queue now e⟩
  | poll limit =>
    obtain ⟨-, -, -, hletters⟩ := b.poll_rewrites q now limit
    exact Or.inr ⟨by simp, hletters⟩
  | complete receipt =>
    refine Or.inr ⟨by simp, ?_⟩
    exact settleWith_induction (P := fun b' => b'.deadLetters = b.deadLetters) rfl fun _ _ => rfl
  | abandon receipt delaySeconds =>
    refine Or.inr ⟨by simp, ?_⟩
    exact settleWith_induction (P := fun b' => b'.deadLetters = b.deadLetters) rfl fun _ _ => rfl
  | deadLetter receipt reason description =>
    rcases b.deadLetter_cases q.queue now receipt reason description with
      ⟨m, hm, hqueue, hreceipt, heq⟩ | ⟨hnone, hlost⟩
    · refine Or.inl ⟨receipt, reason, description, m, hm, rfl, hqueue, hreceipt, ?_⟩
      exact congrArg (·.1.deadLetters) heq
    · refine Or.inr ⟨?_, congrArg (·.1.deadLetters) hlost⟩
      rintro id _ _ _ hsame ⟨m, hm, hkey, hreceipt⟩
      cases hsame
      exact hnone m hm (Prod.mk.inj hkey).1 hreceipt
  | stop =>
    refine Or.inr ⟨by simp, ?_⟩
    simp only [step, stop]
    split <;> rfl

/-- A dead letter says what its message carried when it was set aside, or it is
one from before. -/
theorem hasLetter_step (history : QueueHistory) :
    ((empty.after history).step q now c).1.HasLetter key e time reason description ↔
      (now = time ∧ q.queue = key.1 ∧ ∃ receipt, c = .deadLetter receipt reason description ∧
        IsCurrent history key receipt ∧ Published history key e) ∨
      ((empty.after history).HasLetter key e time reason description ∧
        ¬ Buries history q c key) := by
  have hfenced : (empty.after history).Fenced := after_fenced empty_fenced history
  unfold Buries
  simp only [← stands_iff_isCurrent, ← carries_iff_published]
  generalize empty.after history = b at hfenced ⊢
  rcases b.letters_step q now c with
    ⟨receipt, reason', description', m, hm, rfl, hqueue, hreceipt, hletters⟩ | ⟨hnone, hletters⟩
  · have hkeyOf : ∀ {key}, b.Stands key receipt → (m.queue, m.id) = key := by
      rintro _ ⟨n, hn, rfl, hnreceipt⟩
      rw [hfenced.receipts_unique m hm n hn receipt hreceipt hnreceipt]
    have hstands : b.Stands (m.queue, m.id) receipt := ⟨m, hm, rfl, hreceipt⟩
    unfold HasLetter
    simp only [hletters, mem_bury]
    constructor
    · rintro ⟨d, ⟨hd, hother⟩ | rfl, hkey, hpayload, htime, hreason, hdescription⟩
      · refine Or.inr ⟨⟨d, hd, hkey, hpayload, htime, hreason, hdescription⟩, ?_⟩
        rintro ⟨-, receipt', _, _, hsame, hstood⟩
        cases hsame
        exact hother (hkey.trans (hkeyOf hstood).symm)
      · subst hkey htime hreason hdescription
        exact Or.inl ⟨rfl, hqueue.symm, receipt, rfl, hstands, m, hm, rfl, hpayload⟩
    · rintro (⟨rfl, -, receipt', hsame, hstood, n, hn, hkey, hpayload⟩ |
        ⟨⟨d, hd, hkey, hwrites⟩, hkept⟩)
      · cases hsame
        obtain ⟨hnqueue, hnid⟩ := Prod.mk.inj (hkey.trans (hkeyOf hstood).symm)
        obtain rfl := eq_of_key_eq hfenced.wellFormed.keys_nodup hn hm hnqueue hnid
        exact ⟨_, Or.inr rfl, hkey, hpayload, rfl, rfl, rfl⟩
      · refine ⟨d, Or.inl ⟨hd, fun hsame => hkept ?_⟩, hkey, hwrites⟩
        obtain rfl := hsame.symm.trans hkey
        exact ⟨hqueue.symm, receipt, reason', description', rfl, hstands⟩
  · have hburies : ∀ receipt reason description, c = .deadLetter receipt reason description →
        q.queue = key.1 → ¬ b.Stands key receipt := by
      intro receipt reason description hcall hqueue
      have hfree := hnone key.2 receipt reason description hcall
      rwa [hqueue] at hfree
    unfold HasLetter
    rw [hletters]
    constructor
    · refine fun hold => Or.inr ⟨hold, ?_⟩
      rintro ⟨hqueue, receipt, reason, description, hcall, hstood⟩
      exact hburies receipt reason description hcall hqueue hstood
    · rintro (⟨-, hqueue, receipt, hcall, hstood, -⟩ | ⟨hold, -⟩)
      · exact absurd hstood (hburies receipt reason description hcall hqueue)
      · exact hold

/-- The dead letters say what was published and set aside. -/
theorem hasLetter_iff_setAside (history : QueueHistory) (key : String × String) (e : Envelope)
    (time : Int) (reason description : String) :
    (empty.after history).HasLetter key e time reason description ↔
      SetAside history key e time reason description := by
  refine iff_since (P := fun b => b.HasLetter key e time reason description) ?_
    (fun history q now c => ?_) history
  · rintro ⟨d, hd, -⟩
    cases hd
  · exact hasLetter_step history

/-- Every dead letter carries an envelope. -/
theorem after_letters_written (history : QueueHistory) :
    ∀ d ∈ (empty.after history).deadLetters, ∃ e : Envelope, d.payload = e.write := by
  induction history using List.reverseRecOn with
  | nil => simp [after, empty]
  | append_singleton history call ih =>
    obtain ⟨q, now, c⟩ := call
    rw [after_concat]
    rcases (empty.after history).letters_step q now c with
      ⟨receipt, reason, description, m, hm, -, -, -, hletters⟩ | ⟨-, hletters⟩
    · intro d hd
      rcases mem_bury.mp (hletters ▸ hd) with ⟨hold, -⟩ | rfl
      · exact ih d hold
      · exact (after_fenced empty_fenced history).written m hm
    · exact hletters ▸ ih

theorem mapM_readDeadLetter {ds : List DeadLetter}
    (h : ∀ d ∈ ds, ∃ e : Envelope, d.payload = e.write) :
    ∃ letters, ds.mapM readDeadLetter = .ok letters ∧ letters.map (·.1) = ds ∧
      ∀ p ∈ letters, p.1.payload = p.2.write := by
  induction ds with
  | nil => exact ⟨[], rfl, rfl, by simp⟩
  | cons d rest ih =>
    obtain ⟨⟨e, he⟩, hrest⟩ := List.forall_mem_cons.mp h
    obtain ⟨letters, hok, hsame, hwrites⟩ := ih hrest
    have hread : readDeadLetter d = .ok (d, e) := by
      rw [readDeadLetter, he, e.parse_write]
    refine ⟨(d, e) :: letters, ?_, by rw [List.map_cons, hsame], ?_⟩
    · rw [List.mapM_cons, hread, hok]
      rfl
    · exact List.forall_mem_cons.mpr ⟨he, hwrites⟩

/-- Dead letters that carry envelopes can all be read. -/
theorem exists_readDeadLetters (h : ∀ d ∈ b.deadLetters, ∃ e : Envelope, d.payload = e.write)
    (queue : String) :
    ∃ letters, b.readDeadLetters queue = .ok letters ∧
      (letters.map (·.1)).Perm (b.deadLetters.filter (·.queue == queue)) ∧
      ∀ p ∈ letters, p.1.payload = p.2.write := by
  have hperm : (b.deadLettersOf queue).Perm (b.deadLetters.filter (·.queue == queue)) :=
    Sorting.sort_perm _ _
  have hwritten : ∀ d ∈ b.deadLettersOf queue, ∃ e : Envelope, d.payload = e.write :=
    fun d hd => h d (List.mem_filter.mp (hperm.mem_iff.mp hd)).1
  obtain ⟨letters, hok, hsame, hwrites⟩ := mapM_readDeadLetter hwritten
  refine ⟨_, congrArg (Except.map _) hok, ?_, fun p hp => hwrites p (Sorting.mem_sort.mp hp)⟩
  exact ((Sorting.sort_perm _ letters).map _).trans (hsame ▸ hperm)

/-- What is read of the dead letters of a queue is what they carry. -/
theorem hasLetter_iff_mem {queue : String} {letters : List (DeadLetter × Envelope)}
    (hperm : (letters.map (·.1)).Perm (b.deadLetters.filter (·.queue == queue)))
    (hwrites : ∀ p ∈ letters, p.1.payload = p.2.write) {id : String} :
    b.HasLetter (queue, id) e time reason description ↔
      ∃ p ∈ letters, p.1.id = id ∧ p.2 = e ∧ p.1.time = time ∧ p.1.reason = reason ∧
        p.1.description = description := by
  have hmem : ∀ d, d ∈ letters.map (·.1) ↔ d ∈ b.deadLetters ∧ d.queue = queue := by
    intro d
    rw [hperm.mem_iff, List.mem_filter, beq_iff_eq]
  constructor
  · rintro ⟨d, hd, hkey, hpayload, hrest⟩
    obtain ⟨hqueue, hid⟩ := Prod.mk.inj hkey
    obtain ⟨p, hp, rfl⟩ := List.mem_map.mp ((hmem d).mpr ⟨hd, hqueue⟩)
    exact ⟨p, hp, hid, Envelope.write_injective ((hwrites p hp).symm.trans hpayload), hrest⟩
  · rintro ⟨p, hp, hid, rfl, hrest⟩
    obtain ⟨hd, hqueue⟩ := (hmem p.1).mp (List.mem_map_of_mem hp)
    exact ⟨p.1, hd, Prod.ext hqueue hid, hwrites p hp, hrest⟩

end Letters

section Journey

variable {history : QueueHistory} {q poller : Consumer} {now t : Int} {e : Envelope} {room : Nat}

/-- A poll with room for all that is visible hands out a visible message, once,
as what it carries. -/
theorem Fenced.exists_leased {b : Broker} (h : b.Fenced) (hrunning : poller ∉ b.stopped)
    (hroom : b.messages.countP (·.isVisible poller.queue t) ≤ room) {m : Queued}
    (hm : m ∈ b.messages) (hvisible : m.isVisible poller.queue t = true)
    (hwritten : m.payload = e.write) :
    ∃ batch, (b.step poller t (.poll room)).2 = .ok batch ∧
      ∃ l ∈ batch, l.brokerId = m.id ∧ l.envelope = e ∧
        ∀ l' ∈ batch, l'.brokerId = m.id → l' = l := by
  obtain ⟨batch, hbatch, -⟩ := h.exists_batch hrunning t room
  have hids := leaseAll_ids (poll_of_running hrunning t room ▸ hbatch)
  have hdue : m ∈ b.due poller.queue t room := by
    rw [due, List.take_of_length_le (length_visible b poller.queue t ▸ hroom)]
    exact mem_visible.mpr ⟨hm, hvisible⟩
  obtain ⟨l, hl, hid⟩ := List.mem_map.mp (hids ▸ List.mem_map_of_mem hdue)
  have hqueue : m.queue = poller.queue := by
    simp only [Queued.isVisible, Bool.and_eq_true, beq_iff_eq] at hvisible
    exact hvisible.1
  have hcarries : b.Carries (poller.queue, l.brokerId) e :=
    ⟨m, hm, Prod.ext hqueue hid.symm, hwritten⟩
  have hdistinct := (poll_handsOut h.wellFormed hbatch).distinct
  refine ⟨batch, hbatch, l, hl, hid, ((h.carries_iff_of_batch hbatch hl e).mp hcarries).symm, ?_⟩
  exact fun l' hl' hid' => List.inj_on_of_nodup_map hdistinct hl' hl (hid'.trans hid.symm)

/-- What is published under a free key is handed out by the next poll with room. -/
theorem exists_leased_of_publish (hfree : ¬ IsLive history (q.queue, e.id))
    (hqueue : poller.queue = q.queue) (hrunning : poller ∉ (empty.after history).stopped)
    (hlater : now ≤ t)
    (hroom : (empty.after history).messages.countP (·.isVisible q.queue t) < room) :
    ∃ batch, ((empty.after (history ++ [(q, now, .publish e)])).step poller t (.poll room)).2 =
        .ok batch ∧
      ∃ l ∈ batch, l.brokerId = e.id ∧ l.envelope = e ∧
        ∀ l' ∈ batch, l'.brokerId = e.id → l' = l := by
  have hsent : empty.after (history ++ [(q, now, .publish e)]) =
      { empty.after history with
        messages := (empty.after history).messages ++
          [⟨q.queue, e.id, e.write, none, now, now, 0⟩] } := by
    rw [after_concat, step]
    exact publish_of_not_mem_keys (mt (mem_keys_iff_isLive history _).mp hfree) now
  refine (after_fenced empty_fenced _).exists_leased
    (m := ⟨q.queue, e.id, e.write, none, now, now, 0⟩) ?_ ?_ ?_ ?_ rfl
  · rw [hsent]
    exact hrunning
  · rw [hsent, List.countP_append, hqueue]
    have hone := List.countP_le_length (p := (Queued.isVisible · q.queue t))
      (l := [⟨q.queue, e.id, e.write, none, now, now, 0⟩])
    rw [List.length_singleton] at hone
    omega
  · rw [hsent]
    exact List.mem_append_right _ List.mem_cons_self
  · simp [Queued.isVisible, hqueue, hlater]

/-- Under the receipt of a poll a message that was published is set aside, and
listed as what was published. -/
theorem exists_letter_of_leased {b' : Broker} {receipt : Receipt} {key : String × String}
    (hpublished : Published history key e)
    (hover : (empty.after history).HandsOver poller t (.poll room) key receipt)
    (hpolled : ((empty.after history).step poller t (.poll room)).1 = b')
    (hqueue : q.queue = key.1) (reason description : String) :
    (b'.step q now (.deadLetter receipt reason description)).2 = .ok () ∧
      ∃ letters, (b'.step q now (.deadLetter receipt reason description)).1.readDeadLetters key.1 =
          .ok letters ∧
        ∃ p ∈ letters, p.1.id = key.2 ∧ p.2 = e ∧ p.1.time = now ∧ p.1.reason = reason ∧
          p.1.description = description := by
  subst hpolled
  rw [← after_concat]
  have hcurrent : IsCurrent (history ++ [(poller, t, .poll room)]) key receipt :=
    since_append.mpr (Or.inl hover)
  have hstill : Published (history ++ [(poller, t, .poll room)]) key e := by
    refine since_append.mpr (Or.inr ⟨hpublished, ?_⟩)
    rintro ⟨-, _, -, hcall | ⟨_, _, hcall⟩⟩ <;> cases hcall
  constructor
  · have hstands := (stands_iff_isCurrent _ key receipt).mpr hcurrent
    have hok := ((after_fenced empty_fenced _).settleBy_of_stands q.queue now receipt
      (.deadLetter reason description)).1.mpr ⟨key.2, by rw [hqueue]; exact hstands⟩
    exact hok
  · rw [← after_concat]
    obtain ⟨letters, hletters, hperm, hwrites⟩ := exists_readDeadLetters (after_letters_written
      (history ++ [(poller, t, .poll room)] ++ [(q, now, .deadLetter receipt reason description)]))
      key.1
    refine ⟨letters, hletters, (hasLetter_iff_mem hperm hwrites).mp ?_⟩
    refine (hasLetter_iff_setAside _ key e now reason description).mpr (since_append.mpr ?_)
    exact Or.inl ⟨rfl, hqueue, receipt, rfl, hcurrent, hstill⟩

end Journey

/-- What is written is read as it was. After any calls of any queues, the live
messages are those that were published under their keys and not taken off their
queues since, and a poll by a consumer that runs hands out the messages that are
due, each as the envelope that was published. The dead letters of a queue can
all be read, and they are the envelopes that were published and set aside, with
the times and the reasons of that. So an envelope that is published under a free
key is handed out, once and as it was, by the next poll that has room and reads
the clock no earlier, and listed as it was when it is set aside then. An
envelope comes back from its written form whatever the order of its properties
there, and so does a report with a 16-bit status and a 32-bit code from the body
of the message that is made of it. -/
theorem contents_preserved (history : QueueHistory) (q : Consumer) (now : Int) (limit : Nat) :
    let b := empty.after history
    (∀ id e, Published history (q.queue, id) e ↔
      ∃ m ∈ b.messages, (m.queue, m.id) = (q.queue, id) ∧ m.payload = e.write) ∧
    (q ∉ b.stopped → ∃ batch, (b.step q now (.poll limit)).2 = .ok batch ∧
      batch.map (·.brokerId) = (b.due q.queue now limit).map (·.id) ∧
      ∀ l ∈ batch, ∀ e, Published history (q.queue, l.brokerId) e ↔ e = l.envelope) ∧
    (∃ letters, b.readDeadLetters q.queue = .ok letters ∧
      (letters.map (·.1)).Perm (b.deadLetters.filter (·.queue == q.queue)) ∧
      ∀ id e time reason description,
        SetAside history (q.queue, id) e time reason description ↔
          ∃ p ∈ letters, p.1.id = id ∧ p.2 = e ∧ p.1.time = time ∧ p.1.reason = reason ∧
            p.1.description = description) ∧
    (∀ e, ¬ IsLive history (q.queue, e.id) → ∀ poller t room, poller.queue = q.queue →
      poller ∉ b.stopped → now ≤ t → b.messages.countP (·.isVisible q.queue t) < room →
      let polled := (b.step q now (.publish e)).1.step poller t (.poll room)
      ∃ batch, polled.2 = .ok batch ∧ ∃ l ∈ batch, l.brokerId = e.id ∧ l.envelope = e ∧
        (∀ l' ∈ batch, l'.brokerId = e.id → l' = l) ∧
        ∀ other t' reason description, other.queue = q.queue →
          let buried := polled.1.step other t' (.deadLetter l.receipt reason description)
          buried.2 = .ok () ∧ ∃ letters, buried.1.readDeadLetters q.queue = .ok letters ∧
            ∃ p ∈ letters, p.1.id = e.id ∧ p.2 = e ∧ p.1.time = t' ∧ p.1.reason = reason ∧
              p.1.description = description) ∧
    (∀ (e : Envelope) (entries : List (String × String)), entries.Perm e.properties.entries →
      Envelope.parse (e.writeIn entries) = .ok e) ∧
    ∀ (r : SyncResponse) (id : String) (hearing : Int), r.Fits →
      SyncResponse.parse (r.toEnvelope id hearing).body = .ok r := by
  intro b
  have hfenced : b.Fenced := after_fenced empty_fenced history
  refine ⟨fun id e => (carries_iff_published history (q.queue, id) e).symm, fun hrunning => ?_, ?_,
    ?_, fun e entries => Envelope.parse_writeIn, fun r _ _ => r.parse_write⟩
  · obtain ⟨batch, hbatch, -⟩ := hfenced.exists_batch hrunning now limit
    have hids := leaseAll_ids (poll_of_running hrunning now limit ▸ hbatch)
    refine ⟨batch, hbatch, hids, fun l hl e => ?_⟩
    rw [← carries_iff_published]
    exact hfenced.carries_iff_of_batch hbatch hl e
  · obtain ⟨letters, hletters, hperm, hwrites⟩ :=
      exists_readDeadLetters (after_letters_written history) q.queue
    refine ⟨letters, hletters, hperm, fun id e time reason description => ?_⟩
    rw [← hasLetter_iff_setAside]
    exact hasLetter_iff_mem hperm hwrites
  · intro e hfree poller t room hqueue hrunning hlater hroom
    rw [← after_concat]
    intro polled
    obtain ⟨batch, hbatch, l, hl, hid, henvelope, honce⟩ :=
      exists_leased_of_publish hfree hqueue hrunning hlater hroom
    refine ⟨batch, hbatch, l, hl, hid, henvelope, honce, fun other t' reason description => ?_⟩
    have hpublished : Published (history ++ [(q, now, .publish e)]) (q.queue, e.id) e :=
      since_append.mpr (Or.inl ⟨rfl, rfl, hfree⟩)
    have hover : (empty.after (history ++ [(q, now, .publish e)])).HandsOver poller t (.poll room)
        (q.queue, e.id) l.receipt :=
      ⟨l, by rw [handedOut_poll hbatch]; exact hl, by rw [hqueue, hid], rfl⟩
    exact fun hother => exists_letter_of_leased hpublished hover rfl hother reason description

/-- An envelope is sent by one consumer, handed to another, and set aside by the
first. A report of a refusal comes back from its body. -/
theorem contents_preserved_sent :
    let sender : Consumer := ⟨"inbound", 0, 30⟩
    let poller : Consumer := ⟨"inbound", 1, 30⟩
    let e : Envelope := ⟨"a", .empty, "\x7b\x7d"⟩
    let sent := (empty.step sender 0 (.publish e)).1
    let polled := sent.step poller 0 (.poll 1)
    let refusal : SyncResponse := ⟨400, some (-1), some "unknown hearing"⟩
    ¬ IsLive [] ("inbound", "a") ∧ poller ∉ sent.stopped ∧
      (∃ batch, polled.2 = .ok batch ∧ batch.map (·.brokerId) = ["a"] ∧
        ∃ l ∈ batch, l.envelope = e ∧ ∃ letters,
          (polled.1.step sender 0 (.deadLetter l.receipt "poison" "unreadable")).1.readDeadLetters
            "inbound" = .ok letters ∧ ∃ p ∈ letters, p.2 = e ∧ p.1.reason = "poison") ∧
      Envelope.parse (e.writeIn []) = .ok e ∧ refusal.Fits ∧
      SyncResponse.parse (refusal.toEnvelope "b" 1).body = .ok refusal := by
  intro sender poller e sent polled refusal
  have hfree : ¬ IsLive [] ("inbound", "a") := not_since_nil
  have hfits : refusal.Fits := ⟨by decide, by simp [refusal]; decide⟩
  obtain ⟨-, -, -, hjourney, hwritten, hreport⟩ := contents_preserved [] sender 0 1
  obtain ⟨-, hpoll, -⟩ := contents_preserved [(sender, 0, .publish e)] poller 0 1
  obtain ⟨batch, hbatch, hids, -⟩ := hpoll (by decide)
  obtain ⟨batch', hbatch', l, hl, -, henvelope, -, hburied⟩ :=
    hjourney e hfree poller 0 1 rfl (by decide) (Int.le_refl 0) (by decide)
  obtain rfl : batch = batch' := Except.ok.inj (hbatch.symm.trans hbatch')
  obtain ⟨-, letters, hletters, p, hp, -, hsame, -, hreason, -⟩ :=
    hburied sender 0 "poison" "unreadable" rfl
  exact ⟨hfree, by decide, ⟨batch, hbatch, hids, l, hl, henvelope, letters, hletters, p, hp,
    hsame, hreason⟩, hwritten e [] (.refl _), hfits, hreport refusal "b" 1 hfits⟩

end HearingRelay.Broker
