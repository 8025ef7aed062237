import HearingRelay.Proofs.Queue.Leases

/-!
What a broker keeps, whatever is asked of its queues. A call does one of four
things: it leaves the keys and the contents of all messages as they are, adds a
message under a free key, removes the message that is leased under a receipt,
or moves that message to the dead letters. So a key that is taken stays live or
dead until a completion frees it, and contents never change.
-/

namespace HearingRelay

inductive QueueCall where
  | publish (e : Envelope)
  | poll (limit : Nat)
  | complete (receipt : Receipt)
  | abandon (receipt : Receipt) (delaySeconds : Nat)
  | deadLetter (receipt : Receipt) (reason description : String)
  | stop

abbrev QueueCall.Answer : QueueCall → Type
  | publish _ => String
  | poll _ => List Leased
  | complete _ | abandon .. | deadLetter .. | stop => Unit

/-- Messages that agree in all that is stored when they are published. -/
structure Queued.SameContent (m m' : Queued) : Prop where
  queue : m'.queue = m.queue
  id : m'.id = m.id
  payload : m'.payload = m.payload
  createdAt : m'.createdAt = m.createdAt

theorem Queued.SameContent.refl (m : Queued) : m.SameContent m := ⟨rfl, rfl, rfl, rfl⟩

def Queued.letter (m : Queued) (now : Int) (reason description : String) : DeadLetter :=
  ⟨m.queue, m.id, m.payload, reason, description, m.receiveCount, now⟩

namespace Broker

def step (b : Broker) (q : Consumer) (now : Int) :
    (c : QueueCall) → Broker × Except QueueError c.Answer
  | .publish e => (b.publish q.queue now e, .ok e.id)
  | .poll limit => b.poll q now limit
  | .complete receipt => b.complete q.queue receipt
  | .abandon receipt delaySeconds => b.abandon q.queue now receipt delaySeconds
  | .deadLetter receipt reason description => b.deadLetter q.queue now receipt reason description
  | .stop => (b.stop q, .ok ())

def after (b : Broker) (history : List (Consumer × Int × QueueCall)) : Broker :=
  history.foldl (fun b call => (b.step call.1 call.2.1 call.2.2).1) b

def letterKeys (b : Broker) : List (String × String) := b.deadLetters.map fun d => (d.queue, d.id)

def Holds (b : Broker) (key : String × String) : Prop := key ∈ b.keys ∨ key ∈ b.letterKeys

def bury (b : Broker) (m : Queued) (letter : DeadLetter) : Broker :=
  { b.remove m.queue m.id with
    deadLetters := b.deadLetters.filter (fun d => !(d.queue == m.queue && d.id == m.id)) ++
      [letter] }

theorem mem_remove {b : Broker} {queue id : String} {m : Queued} :
    m ∈ (b.remove queue id).messages ↔ m ∈ b.messages ∧ (m.queue, m.id) ≠ (queue, id) := by
  simp only [remove, List.mem_filter, Queued.hasKey, Bool.not_eq_true', ne_eq, Prod.mk.injEq]
  rw [Bool.and_eq_false_imp]
  simp

theorem not_mem_remove_keys (b : Broker) (queue id : String) :
    (queue, id) ∉ (b.remove queue id).keys := by
  intro hmem
  obtain ⟨m, hm, hkey⟩ := mem_keys.mp hmem
  exact (mem_remove.mp hm).2 hkey

theorem mem_remove_keys {b : Broker} {queue id : String} {key : String × String}
    (hkey : key ∈ b.keys) (hother : key ≠ (queue, id)) : key ∈ (b.remove queue id).keys := by
  obtain ⟨m, hm, rfl⟩ := mem_keys.mp hkey
  exact mem_keys.mpr ⟨m, mem_remove.mpr ⟨hm, hother⟩, rfl⟩

/-- The broker with its messages changed in place: contents and dead letters stay. -/
def Rewrites (b b' : Broker) : Prop :=
  ∃ f : Queued → Queued, (∀ m : Queued, m.SameContent (f m)) ∧ b'.messages = b.messages.map f ∧
    b'.deadLetters = b.deadLetters

namespace Rewrites

variable {b b' : Broker}

theorem refl (b : Broker) : b.Rewrites b :=
  ⟨id, Queued.SameContent.refl, (List.map_id _).symm, rfl⟩

theorem trans {b'' : Broker} (h : b.Rewrites b') (h' : b'.Rewrites b'') : b.Rewrites b'' := by
  obtain ⟨f, hf, hmessages, hletters⟩ := h
  obtain ⟨g, hg, hmessages', hletters'⟩ := h'
  refine ⟨g ∘ f, ?_, ?_, hletters'.trans hletters⟩
  · intro m
    have hfm := hf m
    have hgm := hg (f m)
    exact ⟨hgm.queue.trans hfm.queue, hgm.id.trans hfm.id, hgm.payload.trans hfm.payload,
      hgm.createdAt.trans hfm.createdAt⟩
  · rw [hmessages', hmessages, List.map_map]

theorem keys_eq (h : b.Rewrites b') : b'.keys = b.keys := by
  obtain ⟨f, hf, hmessages, _⟩ := h
  unfold keys
  rw [hmessages, List.map_map]
  refine List.map_congr_left fun m _ => ?_
  exact Prod.ext (hf m).queue (hf m).id

theorem letterKeys_eq (h : b.Rewrites b') : b'.letterKeys = b.letterKeys := by
  obtain ⟨_, _, _, hletters⟩ := h
  unfold letterKeys
  rw [hletters]

theorem exists_of_mem (h : b.Rewrites b') {m' : Queued} (hm' : m' ∈ b'.messages) :
    ∃ m ∈ b.messages, m.SameContent m' := by
  obtain ⟨f, hf, hmessages, _⟩ := h
  rw [hmessages] at hm'
  obtain ⟨m, hm, rfl⟩ := List.mem_map.mp hm'
  exact ⟨m, hm, hf m⟩

end Rewrites

theorem update_rewrites (b : Broker) (queue id : String) {f : Queued → Queued}
    (hf : ∀ m : Queued, m.SameContent (f m)) : b.Rewrites (b.update queue id f) := by
  refine ⟨fun m => if m.hasKey queue id then f m else m, ?_, rfl, rfl⟩
  intro m
  dsimp only
  split
  · exact hf m
  · exact .refl m

theorem leased_rewrites (b : Broker) (m : Queued) (deadline : Int) :
    b.Rewrites (b.leased m deadline) :=
  update_rewrites b m.queue m.id fun _ => ⟨rfl, rfl, rfl, rfl⟩

/-- A poll that fails in its middle has changed messages in place, too. -/
theorem leaseAll_rewrites (b : Broker) (deadline : Int) (ms : List Queued) :
    b.Rewrites (b.leaseAll deadline ms).1 := by
  induction ms generalizing b with
  | nil => exact .refl b
  | cons m rest ih =>
    have hleased := leased_rewrites b m deadline
    have hrest := ih (b.leased m deadline)
    rw [leaseAll_cons]
    cases Envelope.parse m.payload with
    | error e => exact hleased
    | ok envelope =>
      dsimp only
      generalize (b.leased m deadline).leaseAll deadline rest = p at hrest ⊢
      obtain ⟨b', answer⟩ := p
      cases answer with
      | error e => exact hleased.trans hrest
      | ok others => exact hleased.trans hrest

theorem poll_rewrites (b : Broker) (q : Consumer) (now : Int) (limit : Nat) :
    b.Rewrites (b.poll q now limit).1 := by
  unfold poll
  split
  · exact .refl b
  · exact leaseAll_rewrites b _ _

inductive Effect (b : Broker) (q : Consumer) (now : Int) : QueueCall → Broker → Prop
  | rewritten (c : QueueCall) (b' : Broker) (h : b.Rewrites b') : Effect b q now c b'
  | added (e : Envelope) (hfree : (q.queue, e.id) ∉ b.keys) :
      Effect b q now (.publish e)
        { b with messages := b.messages ++ [⟨q.queue, e.id, e.write, none, now, now, 0⟩] }
  | completed (receipt : Receipt) (m : Queued) (hm : m ∈ b.messages) (hqueue : m.queue = q.queue)
      (hreceipt : m.receipt = some receipt)
      (hanswer : (b.step q now (.complete receipt)).2 = .ok ()) :
      Effect b q now (.complete receipt) (b.remove m.queue m.id)
  | buried (receipt : Receipt) (reason description : String) (m : Queued) (hm : m ∈ b.messages)
      (hqueue : m.queue = q.queue) (hreceipt : m.receipt = some receipt) :
      Effect b q now (.deadLetter receipt reason description)
        (b.bury m (m.letter now reason description))

/-- A dead-lettering buries the message that is leased under its receipt, if there is one. -/
theorem deadLetter_cases (b : Broker) (queue : String) (now : Int) (receipt : Receipt)
    (reason description : String) :
    (∃ m ∈ b.messages, m.queue = queue ∧ m.receipt = some receipt ∧
        b.deadLetter queue now receipt reason description =
          (b.bury m (m.letter now reason description), .ok ())) ∨
      (∀ m ∈ b.messages, m.queue = queue → m.receipt ≠ some receipt) ∧
        b.deadLetter queue now receipt reason description = (b, .error (.leaseLost receipt)) := by
  rcases b.settleWith_cases queue receipt fun m =>
      { b.remove queue m.id with
        deadLetters := b.deadLetters.filter (fun d => !(d.queue == queue && d.id == m.id)) ++
          [⟨queue, m.id, m.payload, reason, description, m.receiveCount, now⟩] } with
    ⟨m, hm, rfl, hreceipt, heq⟩ | hlost
  · exact Or.inl ⟨m, hm, rfl, hreceipt, heq⟩
  · exact Or.inr hlost

theorem effect_step (b : Broker) (q : Consumer) (now : Int) (c : QueueCall) :
    b.Effect q now c (b.step q now c).1 := by
  cases c with
  | publish e =>
    simp only [step, publish, load?]
    split
    · exact .rewritten _ b (.refl b)
    · next hfree => exact .added e (message?_eq_none.mp (by simpa using hfree))
  | poll limit => exact .rewritten _ _ (b.poll_rewrites q now limit)
  | complete receipt =>
    rcases b.settleWith_cases q.queue receipt fun m => b.remove q.queue m.id with
      ⟨m, hm, hqueue, hreceipt, heq⟩ | ⟨_, hlost⟩
    · have hstep : b.step q now (.complete receipt) = (b.remove m.queue m.id, .ok ()) := by
        rw [hqueue]
        exact heq
      rw [hstep]
      exact .completed receipt m hm hqueue hreceipt (by rw [hstep])
    · have hstep : (b.step q now (.complete receipt)).1 = b := congrArg Prod.fst hlost
      rw [hstep]
      exact .rewritten _ b (.refl b)
  | abandon receipt delaySeconds =>
    rcases b.settleWith_cases q.queue receipt fun m => b.update q.queue m.id fun m =>
        { m with visibleAt := now + delaySeconds * 1000, receipt := none } with
      ⟨m, hm, hqueue, hreceipt, heq⟩ | ⟨_, hlost⟩
    · have hstep := congrArg Prod.fst heq
      refine hstep ▸ .rewritten _ _ (update_rewrites b q.queue m.id ?_)
      exact fun _ => ⟨rfl, rfl, rfl, rfl⟩
    · have hstep : (b.step q now (.abandon receipt delaySeconds)).1 = b := congrArg Prod.fst hlost
      rw [hstep]
      exact .rewritten _ b (.refl b)
  | deadLetter receipt reason description =>
    rcases b.deadLetter_cases q.queue now receipt reason description with
      ⟨m, hm, hqueue, hreceipt, heq⟩ | ⟨_, hlost⟩
    · have hstep : (b.step q now (.deadLetter receipt reason description)).1 =
          b.bury m (m.letter now reason description) := congrArg Prod.fst heq
      rw [hstep]
      exact .buried receipt reason description m hm hqueue hreceipt
    · have hstep : (b.step q now (.deadLetter receipt reason description)).1 = b :=
        congrArg Prod.fst hlost
      rw [hstep]
      exact .rewritten _ b (.refl b)
  | stop =>
    simp only [step, stop]
    split
    · exact .rewritten _ b (.refl b)
    · exact .rewritten _ _ ⟨id, Queued.SameContent.refl, (List.map_id _).symm, rfl⟩

namespace Effect

variable {b b' : Broker} {q : Consumer} {now : Int} {c : QueueCall}

theorem keys_nodup (h : b.Effect q now c b') (hkeys : b.keys.Nodup) : b'.keys.Nodup := by
  cases h with
  | rewritten _ _ h => exact h.keys_eq ▸ hkeys
  | added e hfree => exact added_keys hkeys hfree
  | completed receipt m => exact remove_keys hkeys m.queue m.id
  | buried receipt reason description m => exact remove_keys hkeys m.queue m.id

/-- Messages that are there after a call were there before, unless their key was free. -/
theorem exists_of_mem (h : b.Effect q now c b') {m' : Queued} (hm' : m' ∈ b'.messages) :
    (∃ m ∈ b.messages, m.SameContent m') ∨ (m'.queue, m'.id) ∉ b.keys := by
  cases h with
  | rewritten _ _ h => exact Or.inl (h.exists_of_mem hm')
  | added e hfree =>
    rcases List.mem_append.mp hm' with hold | hnew
    · exact Or.inl ⟨m', hold, .refl m'⟩
    · obtain rfl := List.mem_singleton.mp hnew
      exact Or.inr hfree
  | completed receipt m => exact Or.inl ⟨m', (mem_remove.mp hm').1, .refl m'⟩
  | buried receipt reason description m => exact Or.inl ⟨m', (mem_remove.mp hm').1, .refl m'⟩

/-- No call alters what was stored with a message. -/
theorem sameContent (h : b.Effect q now c b') (hkeys : b.keys.Nodup) {m m' : Queued}
    (hm : m ∈ b.messages) (hm' : m' ∈ b'.messages) (hqueue : m'.queue = m.queue)
    (hid : m'.id = m.id) : m.SameContent m' := by
  rcases h.exists_of_mem hm' with ⟨n, hn, hsame⟩ | hfree
  · have hnm : n = m := eq_of_key_eq hkeys hn hm (hsame.queue.symm.trans hqueue)
      (hsame.id.symm.trans hid)
    exact hnm ▸ hsame
  · rw [hqueue, hid] at hfree
    exact absurd (mem_keys.mpr ⟨m, hm, rfl⟩) hfree

/-- A key that a call frees is the one of the message that it completes. -/
theorem completed_of_lost (h : b.Effect q now c b') {key : String × String} (hheld : b.Holds key)
    (hlost : ¬ b'.Holds key) :
    ∃ receipt, c = .complete receipt ∧ (b.step q now (.complete receipt)).2 = .ok () ∧
      ∃ m ∈ b.messages, (m.queue, m.id) = key ∧ m.queue = q.queue ∧ m.receipt = some receipt := by
  cases h with
  | rewritten _ _ h =>
    unfold Holds at hheld hlost
    rw [h.keys_eq, h.letterKeys_eq] at hlost
    exact absurd hheld hlost
  | added e hfree =>
    refine absurd (hheld.imp_left fun hlive => ?_) hlost
    obtain ⟨m, hm, hkey⟩ := mem_keys.mp hlive
    exact mem_keys.mpr ⟨m, List.mem_append_left _ hm, hkey⟩
  | completed receipt m hm hqueue hreceipt hanswer =>
    refine ⟨receipt, rfl, hanswer, m, hm, ?_, hqueue, hreceipt⟩
    by_contra hother
    exact hlost (hheld.imp_left fun hlive => mem_remove_keys hlive (Ne.symm hother))
  | buried receipt reason description m hm hqueue hreceipt =>
    -- The key of the message itself goes over to the dead letters; all others stay.
    refine absurd ?_ hlost
    by_cases hkey : key = (m.queue, m.id)
    · subst hkey
      exact Or.inr (List.mem_map.mpr ⟨_, List.mem_append_right _ List.mem_cons_self, rfl⟩)
    · refine hheld.imp (fun hlive => mem_remove_keys hlive hkey) fun hdead => ?_
      obtain ⟨d, hd, rfl⟩ := List.mem_map.mp hdead
      refine List.mem_map.mpr ⟨d, List.mem_append_left _ (List.mem_filter.mpr ⟨hd, ?_⟩), rfl⟩
      rw [Bool.not_eq_true', Bool.and_eq_false_imp]
      simpa using hkey

/-- A key that is live no longer is the one of the message that was completed or
set aside. -/
theorem removed_of_lost (h : b.Effect q now c b') {key : String × String} (hlive : key ∈ b.keys)
    (hlost : key ∉ b'.keys) :
    ∃ receipt, (c = .complete receipt ∨
        ∃ reason description, c = .deadLetter receipt reason description) ∧
      ∃ m ∈ b.messages, (m.queue, m.id) = key ∧ m.queue = q.queue ∧ m.receipt = some receipt := by
  cases h with
  | rewritten _ _ h => exact absurd (h.keys_eq ▸ hlive) hlost
  | added e hfree =>
    obtain ⟨m, hm, hkey⟩ := mem_keys.mp hlive
    exact absurd (mem_keys.mpr ⟨m, List.mem_append_left _ hm, hkey⟩) hlost
  | completed receipt m hm hqueue hreceipt =>
    refine ⟨receipt, Or.inl rfl, m, hm, ?_, hqueue, hreceipt⟩
    by_contra hother
    exact hlost (mem_remove_keys hlive (Ne.symm hother))
  | buried receipt reason description m hm hqueue hreceipt =>
    refine ⟨receipt, Or.inr ⟨reason, description, rfl⟩, m, hm, ?_, hqueue, hreceipt⟩
    by_contra hother
    exact hlost (mem_remove_keys hlive (Ne.symm hother))

end Effect

theorem after_keys_nodup {b : Broker} (h : b.keys.Nodup)
    (history : List (Consumer × Int × QueueCall)) : (b.after history).keys.Nodup := by
  induction history generalizing b with
  | nil => exact h
  | cons call rest ih =>
    exact ih ((b.effect_step call.1 call.2.1 call.2.2).keys_nodup h)

/-- A second send under a key that is taken changes nothing. -/
theorem publish_of_mem_keys {b : Broker} {queue : String} {e : Envelope}
    (hkey : (queue, e.id) ∈ b.keys) (now : Int) : b.publish queue now e = b := by
  have htaken : (b.message? queue e.id).isSome = true := by
    by_contra hnone
    exact message?_eq_none.mp (by simpa using hnone) hkey
  simp [publish, load?, htaken]

theorem publish_of_not_mem_keys {b : Broker} {queue : String} {e : Envelope}
    (hfree : (queue, e.id) ∉ b.keys) (now : Int) :
    b.publish queue now e =
      { b with messages := b.messages ++ [⟨queue, e.id, e.write, none, now, now, 0⟩] } := by
  simp [publish, load?, message?_eq_none.mpr hfree]

/-- The letters under the key of a message that is buried are its own. -/
theorem bury_letters (b : Broker) (m : Queued) (now : Int) (reason description : String) :
    (b.bury m (m.letter now reason description)).deadLetters.filter
      (fun d => d.queue == m.queue && d.id == m.id) = [m.letter now reason description] := by
  unfold bury
  dsimp only
  rw [List.filter_append, List.filter_filter]
  simp [Queued.letter]

/-- After any calls by any consumers at any clock readings, and for every further
call: a key is live once at most. It is lost to the live messages and the dead
letters only by the completion, under its receipt, of the message that has it.
What is stored with a message stays as it was published. To publish under a key
that is live answers with the identifier and changes nothing. And a message that
a call sets aside is live no longer: the letter under its key says what the
message said, how often it was received, and the reason that the call gave. -/
theorem messages_conserved (history : List (Consumer × Int × QueueCall)) (q : Consumer)
    (now : Int) :
    let b := empty.after history
    b.keys.Nodup ∧
      (∀ c key, b.Holds key → ¬ (b.step q now c).1.Holds key →
        ∃ receipt, c = .complete receipt ∧ (b.step q now (.complete receipt)).2 = .ok () ∧
          ∃ m ∈ b.messages, (m.queue, m.id) = key ∧ m.queue = q.queue ∧
            m.receipt = some receipt) ∧
      (∀ c, ∀ m ∈ b.messages, ∀ m' ∈ (b.step q now c).1.messages, m'.queue = m.queue →
        m'.id = m.id → m'.payload = m.payload ∧ m'.createdAt = m.createdAt) ∧
      (∀ e, (q.queue, e.id) ∈ b.keys → b.step q now (.publish e) = (b, .ok e.id)) ∧
      ∀ receipt reason description b', b.step q now (.deadLetter receipt reason description) =
          (b', .ok ()) →
        ∃ m ∈ b.messages, m.queue = q.queue ∧ m.receipt = some receipt ∧
          (m.queue, m.id) ∉ b'.keys ∧
          b'.deadLetters.filter (fun d => d.queue == m.queue && d.id == m.id) =
            [⟨m.queue, m.id, m.payload, reason, description, m.receiveCount, now⟩] := by
  intro b
  have hkeys : b.keys.Nodup := after_keys_nodup empty_wellFormed.keys_nodup history
  refine ⟨hkeys, ?_, ?_, ?_, ?_⟩
  · intro c key
    exact (b.effect_step q now c).completed_of_lost
  · intro c m hm m' hm' hqueue hid
    have hsame := (b.effect_step q now c).sameContent hkeys hm hm' hqueue hid
    exact ⟨hsame.payload, hsame.createdAt⟩
  · intro e hkey
    exact Prod.ext (publish_of_mem_keys hkey now) rfl
  · intro receipt reason description b' hstep
    rcases b.deadLetter_cases q.queue now receipt reason description with
      ⟨m, hm, hqueue, hreceipt, heq⟩ | ⟨_, hlost⟩
    · obtain rfl : b.bury m (m.letter now reason description) = b' :=
        congrArg Prod.fst (heq.symm.trans hstep)
      exact ⟨m, hm, hqueue, hreceipt, not_mem_remove_keys b m.queue m.id,
        b.bury_letters m now reason description⟩
    · have hanswer := congrArg Prod.snd (hlost.symm.trans hstep)
      cases hanswer

end Broker

end HearingRelay
