import HearingRelay.Proofs.Queue.Receipts

/-!
Queues that share a broker. What a queue has of the broker is its share: its
messages, its dead letters, and which of its consumers have been stopped. A use
of a queue is answered from the share of the queue and changes no other share,
whatever identifiers and receipts go across. So the uses of other queues can be
left out of a run, and nobody who looks at the queue can tell.
-/

namespace HearingRelay

inductive QueueUse where
  | call (c : QueueCall)
  | settle (receipt : Receipt) (disposition : Disposition)
  | readDeadLetters
  | metrics
  | isHealthy

abbrev QueueUse.Answer : QueueUse → Type
  | call c => Except QueueError c.Answer
  | settle .. => Except QueueError Unit
  | readDeadLetters => Except QueueError (List (DeadLetter × Envelope))
  | metrics => QueueMetrics
  | isHealthy => Bool

/-- A use of a queue in a run. What it hands out gets receipts of its own, which
are numbered from `firstReceipt` on, whatever was handed out before. -/
structure QueueTurn where
  consumer : Consumer
  now : Int
  firstReceipt : Nat
  use : QueueUse

def QueueTurn.isOf (t : QueueTurn) (queue : String) : Bool := t.consumer.queue == queue

namespace Broker

def use (b : Broker) (q : Consumer) (now : Int) : (u : QueueUse) → Broker × u.Answer
  | .call c => b.step q now c
  | .settle receipt disposition => b.settle q.queue now receipt disposition
  | .readDeadLetters => (b, b.readDeadLetters q.queue)
  | .metrics => (b, b.metrics q.queue now)
  | .isHealthy => (b, b.isHealthy q)

def numberedFrom (b : Broker) (serial : Nat) : Broker := { b with issued := serial }

def turn (b : Broker) (t : QueueTurn) : Broker × t.use.Answer :=
  (b.numberedFrom t.firstReceipt).use t.consumer t.now t.use

def afterTurns (b : Broker) (run : List QueueTurn) : Broker :=
  run.foldl (fun b t => (b.turn t).1) b

def answers : Broker → List QueueTurn → List ((t : QueueTurn) × t.use.Answer)
  | _, [] => []
  | b, t :: rest => ⟨t, (b.turn t).2⟩ :: (b.turn t).1.answers rest

def only (b : Broker) (queue : String) : Broker where
  messages := b.messages.filter (·.queue == queue)
  deadLetters := b.deadLetters.filter (·.queue == queue)
  stopped := b.stopped.filter (·.queue == queue)
  issued := b.issued

/-- What the tables hold of one queue, the numbers of receipts aside. -/
def share (b : Broker) (queue : String) : Broker := (b.only queue).numberedFrom 0

/-- A history of calls as a run that numbers receipts as they are given out. -/
def numbered : Broker → QueueHistory → List QueueTurn
  | _, [] => []
  | b, (q, now, c) :: rest => ⟨q, now, b.issued, .call c⟩ :: (b.step q now c).1.numbered rest

section Own

variable (b : Broker) (queue : String)

/-- A search among the messages of a queue finds what it finds among all. -/
theorem find?_filter_of_imp {α : Type} {p keeps : α → Bool}
    (h : ∀ a, p a = true → keeps a = true) (l : List α) :
    (l.filter keeps).find? p = l.find? p := by
  rw [List.find?_filter]
  congr 1
  funext a
  have hkept := h a
  cases hp : p a <;> simp_all

/-- A filter that another one implies can be left out. -/
theorem filter_filter_of_imp {α : Type} {p keeps : α → Bool}
    (h : ∀ a, p a = true → keeps a = true) (l : List α) :
    (l.filter keeps).filter p = l.filter p := by
  rw [List.filter_filter]
  congr 1
  funext a
  have hkept := h a
  cases hp : p a <;> simp_all

/-- A change of messages that leaves them in their queues. -/
theorem filter_map_update {f : Queued → Queued} (hf : ∀ m, (f m).queue = m.queue)
    (l : List Queued) :
    (l.map f).filter (·.queue == queue) = (l.filter (·.queue == queue)).map f := by
  rw [List.filter_map]
  congr 2
  funext m
  simp [hf m]

theorem only_update (id : String) {f : Queued → Queued} (hf : ∀ m, (f m).queue = m.queue)
    (key : String) : (b.update key id f).only queue = (b.only queue).update key id f := by
  have hkept : ∀ m : Queued, (if m.hasKey key id then f m else m).queue = m.queue := by
    intro m
    split
    · exact hf m
    · rfl
  exact congrArg (Broker.mk · _ _ _) (filter_map_update queue hkept b.messages)

theorem only_remove (key id : String) :
    (b.remove key id).only queue = (b.only queue).remove key id :=
  congrArg (Broker.mk · _ _ _) (List.filter_comm _ _ b.messages)

theorem only_message? (id : String) : (b.only queue).message? queue id = b.message? queue id :=
  find?_filter_of_imp (fun _ h => (Bool.and_eq_true_iff.mp h).1) b.messages

theorem only_leased? (receipt : Receipt) :
    (b.only queue).leased? queue receipt = b.leased? queue receipt :=
  find?_filter_of_imp (fun _ h => (Bool.and_eq_true_iff.mp h).1) b.messages

theorem only_visible (now : Int) : (b.only queue).visible queue now = b.visible queue now :=
  congrArg (Sorting.sort _)
    (filter_filter_of_imp (fun _ h => (Bool.and_eq_true_iff.mp h).1) b.messages)

theorem only_stopped (q : Consumer) :
    (b.only q.queue).stopped.contains q = b.stopped.contains q := by
  rw [Bool.eq_iff_iff]
  simp [only]

theorem only_deadLettersOf : (b.only queue).deadLettersOf queue = b.deadLettersOf queue :=
  congrArg (Sorting.sort _) (filter_filter_of_imp (fun _ h => h) b.deadLetters)

theorem only_leaseAll (deadline : Int) (ms : List Queued) :
    (b.only queue).leaseAll deadline ms =
      ((b.leaseAll deadline ms).1.only queue, (b.leaseAll deadline ms).2) := by
  induction ms generalizing b with
  | nil => rfl
  | cons m rest ih =>
    have hleased : (b.only queue).leased m deadline = (b.leased m deadline).only queue :=
      congrArg (numberedFrom · (b.issued + 1)) (b.only_update queue m.id
        (f := (·.lease (.issued b.issued) deadline)) (fun _ => rfl) m.queue).symm
    rw [leaseAll_cons, leaseAll_cons, hleased, ih (b.leased m deadline)]
    cases Envelope.parse m.payload with
    | error e => rfl
    | ok envelope =>
      dsimp only
      generalize (b.leased m deadline).leaseAll deadline rest = p
      obtain ⟨b', answer⟩ := p
      cases answer <;> rfl

/-- A settlement finds its message in the share of the queue. -/
theorem only_settleWith (receipt : Receipt) {f f' : Queued → Broker}
    (h : ∀ m, f' m = (f m).only queue) : (b.only queue).settleWith queue receipt f' =
      ((b.settleWith queue receipt f).1.only queue, (b.settleWith queue receipt f).2) := by
  unfold settleWith
  rw [only_leased?]
  cases b.leased? queue receipt with
  | none => rfl
  | some m => exact congrArg (·, Except.ok ()) (h m)

theorem only_bury (letter : DeadLetter) (key : String) (hletter : letter.queue = queue) :
    ({ b.remove queue key with
        deadLetters := b.deadLetters.filter (fun d => !(d.queue == queue && d.id == key)) ++
          [letter] } : Broker).only queue =
      { (b.only queue).remove queue key with
        deadLetters := (b.only queue).deadLetters.filter
          (fun d => !(d.queue == queue && d.id == key)) ++ [letter] } := by
  have hmessages := congrArg Broker.messages (b.only_remove queue queue key)
  have hletters : (b.deadLetters.filter (fun d => !(d.queue == queue && d.id == key)) ++
      [letter]).filter (·.queue == queue) =
        (b.deadLetters.filter (·.queue == queue)).filter
          (fun d => !(d.queue == queue && d.id == key)) ++ [letter] := by
    rw [List.filter_append, List.filter_comm]
    simp [hletter]
  exact (Broker.mk.injEq ..).mpr ⟨hmessages, hletters, rfl, rfl⟩

theorem only_complete (receipt : Receipt) : (b.only queue).complete queue receipt =
    ((b.complete queue receipt).1.only queue, (b.complete queue receipt).2) :=
  b.only_settleWith queue receipt fun m => (b.only_remove queue queue m.id).symm

theorem only_abandon (now : Int) (receipt : Receipt) (delaySeconds : Nat) :
    (b.only queue).abandon queue now receipt delaySeconds =
      ((b.abandon queue now receipt delaySeconds).1.only queue,
        (b.abandon queue now receipt delaySeconds).2) :=
  b.only_settleWith queue receipt fun m => (b.only_update queue m.id
    (f := fun m => { m with visibleAt := now + delaySeconds * 1000, receipt := none })
    (fun _ => rfl) queue).symm

theorem only_deadLetter (now : Int) (receipt : Receipt) (reason description : String) :
    (b.only queue).deadLetter queue now receipt reason description =
      ((b.deadLetter queue now receipt reason description).1.only queue,
        (b.deadLetter queue now receipt reason description).2) :=
  b.only_settleWith queue receipt fun m => (b.only_bury queue _ m.id rfl).symm

theorem only_settle (now : Int) (receipt : Receipt) (disposition : Disposition) :
    (b.only queue).settle queue now receipt disposition =
      ((b.settle queue now receipt disposition).1.only queue,
        (b.settle queue now receipt disposition).2) := by
  cases disposition with
  | complete => exact b.only_complete queue receipt
  | retry => exact b.only_abandon queue now receipt 0
  | deadLetter reason description => exact b.only_deadLetter queue now receipt reason description

theorem only_publish (now : Int) (e : Envelope) :
    (b.only queue).publish queue now e = (b.publish queue now e).only queue := by
  unfold publish load?
  rw [only_message?]
  by_cases htaken : (b.message? queue e.id).isSome = true
  · simp [htaken]
  · simp [htaken, only]

theorem only_stop (q : Consumer) : (b.only q.queue).stop q = (b.stop q).only q.queue := by
  unfold stop
  rw [only_stopped]
  by_cases hstopped : b.stopped.contains q = true
  · rw [if_pos hstopped, if_pos hstopped]
  · rw [if_neg hstopped, if_neg hstopped]
    simp [only]

theorem only_poll (q : Consumer) (now : Int) (limit : Nat) :
    (b.only q.queue).poll q now limit =
      ((b.poll q now limit).1.only q.queue, (b.poll q now limit).2) := by
  unfold poll
  rw [only_stopped, only_visible]
  by_cases hstopped : b.stopped.contains q = true
  · rw [if_pos hstopped, if_pos hstopped]
  · rw [if_neg hstopped, if_neg hstopped]
    exact b.only_leaseAll q.queue _ _

theorem only_metrics (now : Int) : (b.only queue).metrics queue now = b.metrics queue now := by
  have hpending : (b.only queue).messages.filter (·.isVisible queue now) =
      b.messages.filter (·.isVisible queue now) :=
    filter_filter_of_imp (fun _ h => (Bool.and_eq_true_iff.mp h).1) b.messages
  have hinFlight : (b.only queue).messages.filter
        (fun m => m.queue == queue && now < m.visibleAt && m.receipt.isSome) =
      b.messages.filter fun m => m.queue == queue && now < m.visibleAt && m.receipt.isSome := by
    refine filter_filter_of_imp (fun m h => ?_) b.messages
    simp only [Bool.and_eq_true] at h
    exact h.1.1
  have hletters : (b.only queue).deadLetters.filter (·.queue == queue) =
      b.deadLetters.filter (·.queue == queue) := filter_filter_of_imp (fun _ h => h) b.deadLetters
  unfold metrics
  rw [hpending, hinFlight, hletters]

end Own

/-- A use of a queue is answered from the share of the queue, and what it makes
of the share does not depend on the rest. -/
theorem only_use (b : Broker) (q : Consumer) (now : Int) (u : QueueUse) :
    (b.only q.queue).use q now u = ((b.use q now u).1.only q.queue, (b.use q now u).2) := by
  cases u with
  | call c =>
    cases c with
    | publish e => exact congrArg (·, Except.ok e.id) (b.only_publish q.queue now e)
    | poll limit => exact b.only_poll q now limit
    | complete receipt => exact b.only_complete q.queue receipt
    | abandon receipt delaySeconds => exact b.only_abandon q.queue now receipt delaySeconds
    | deadLetter receipt reason description =>
      exact b.only_deadLetter q.queue now receipt reason description
    | stop => exact congrArg (·, Except.ok ()) (b.only_stop q)
  | settle receipt disposition => exact b.only_settle q.queue now receipt disposition
  | readDeadLetters =>
    have hletters := b.only_deadLettersOf q.queue
    refine congrArg ((b.only q.queue), ·) ?_
    unfold readDeadLetters
    rw [hletters]
    rfl
  | metrics => exact congrArg ((b.only q.queue), ·) (b.only_metrics q.queue now)
  | isHealthy =>
    refine congrArg ((b.only q.queue), ·) ?_
    unfold isHealthy
    rw [only_stopped]
    rfl

section Other

variable (b : Broker) {queue other : String} (hne : other ≠ queue)

include hne

theorem filter_map_of_ne {f : Queued → Queued} (hf : ∀ m, (f m).queue = m.queue)
    (hother : ∀ m : Queued, m.queue ≠ other → f m = m) (l : List Queued) :
    (l.map f).filter (·.queue == queue) = l.filter (·.queue == queue) := by
  rw [filter_map_update queue hf]
  refine (List.map_congr_left fun m hm => ?_).trans (List.map_id _)
  have hqueue : m.queue = queue := by simpa using (List.mem_filter.mp hm).2
  exact hother m (hqueue ▸ hne.symm)

theorem share_update (id : String) {f : Queued → Queued} (hf : ∀ m, (f m).queue = m.queue) :
    (b.update other id f).share queue = b.share queue := by
  refine congrArg (Broker.mk · _ _ _) (filter_map_of_ne hne (fun m => ?_) (fun m hm => ?_) _)
  · split
    · exact hf m
    · rfl
  · simp [Queued.hasKey, hm]

theorem share_remove (id : String) : (b.remove other id).share queue = b.share queue := by
  refine congrArg (Broker.mk · _ _ _) (filter_filter_of_imp (fun m hm => ?_) b.messages)
  have hqueue : m.queue = queue := by simpa using hm
  simp [Queued.hasKey, hqueue, hne.symm]

theorem share_bury (id : String) (letter : DeadLetter) (hletter : letter.queue = other) :
    ({ b.remove other id with
        deadLetters := b.deadLetters.filter (fun d => !(d.queue == other && d.id == id)) ++
          [letter] } : Broker).share queue = b.share queue := by
  have hmessages := congrArg Broker.messages (share_remove b hne id)
  have hletters : (b.deadLetters.filter (fun d => !(d.queue == other && d.id == id)) ++
      [letter]).filter (·.queue == queue) = b.deadLetters.filter (·.queue == queue) := by
    rw [List.filter_append, filter_filter_of_imp fun d hd => ?_]
    · simp [hletter, hne]
    · have hqueue : d.queue = queue := by simpa using hd
      simp [hqueue, hne.symm]
  exact (Broker.mk.injEq ..).mpr ⟨hmessages, hletters, rfl, rfl⟩

theorem share_leaseAll (deadline : Int) {ms : List Queued} (hms : ∀ m ∈ ms, m.queue = other) :
    (b.leaseAll deadline ms).1.share queue = b.share queue := by
  induction ms generalizing b with
  | nil => rfl
  | cons m rest ih =>
    obtain ⟨hfirst, hrest⟩ := List.forall_mem_cons.mp hms
    have hleased : (b.leased m deadline).share queue = b.share queue := by
      subst hfirst
      exact share_update b hne m.id fun _ => rfl
    have hlater := ih (b.leased m deadline) hrest
    rw [leaseAll_cons]
    cases Envelope.parse m.payload with
    | error e => exact hleased
    | ok envelope =>
      dsimp only
      generalize (b.leased m deadline).leaseAll deadline rest = p at hlater ⊢
      obtain ⟨b', answer⟩ := p
      cases answer <;> exact hlater.trans hleased

theorem share_complete (receipt : Receipt) :
    (b.complete other receipt).1.share queue = b.share queue :=
  settleWith_induction (P := fun b' => b'.share queue = b.share queue) rfl
    fun m _ => share_remove b hne m.id

theorem share_abandon (now : Int) (receipt : Receipt) (delaySeconds : Nat) :
    (b.abandon other now receipt delaySeconds).1.share queue = b.share queue :=
  settleWith_induction (P := fun b' => b'.share queue = b.share queue) rfl
    fun m _ => share_update b hne m.id fun _ => rfl

theorem share_deadLetter (now : Int) (receipt : Receipt) (reason description : String) :
    (b.deadLetter other now receipt reason description).1.share queue = b.share queue :=
  settleWith_induction (P := fun b' => b'.share queue = b.share queue) rfl
    fun m _ => share_bury b hne m.id _ rfl

theorem share_publish (now : Int) (e : Envelope) :
    (b.publish other now e).share queue = b.share queue := by
  unfold publish load?
  split
  · rfl
  · simp [share, only, hne]

end Other

theorem share_poll (b : Broker) {queue : String} {q : Consumer} (hq : q.queue ≠ queue) (now : Int)
    (limit : Nat) : (b.poll q now limit).1.share queue = b.share queue := by
  unfold poll
  split
  · rfl
  · refine share_leaseAll b hq _ fun m hm => ?_
    have hvisible := List.mem_of_mem_take hm
    rw [visible, Sorting.mem_sort, List.mem_filter] at hvisible
    simpa using (Bool.and_eq_true_iff.mp hvisible.2).1

theorem share_stop (b : Broker) {queue : String} {q : Consumer} (hq : q.queue ≠ queue) :
    (b.stop q).share queue = b.share queue := by
  unfold stop
  split
  · rfl
  · simp [share, only, hq]

/-- A use of a queue leaves the shares of all other queues as they are. -/
theorem share_use (b : Broker) {queue : String} {q : Consumer} (hq : q.queue ≠ queue) (now : Int)
    (u : QueueUse) :
    (b.use q now u).1.share queue = b.share queue := by
  have hsettle : ∀ (receipt : Receipt) (disposition : Disposition),
      (b.settle q.queue now receipt disposition).1.share queue = b.share queue := by
    intro receipt disposition
    cases disposition with
    | complete => exact share_complete b hq receipt
    | retry => exact share_abandon b hq now receipt 0
    | deadLetter reason description => exact share_deadLetter b hq now receipt reason description
  cases u with
  | call c =>
    cases c with
    | publish e => exact share_publish b hq now e
    | poll limit => exact share_poll b hq now limit
    | complete receipt => exact share_complete b hq receipt
    | abandon receipt delaySeconds => exact share_abandon b hq now receipt delaySeconds
    | deadLetter receipt reason description =>
      exact share_deadLetter b hq now receipt reason description
    | stop => exact share_stop b hq
  | settle receipt disposition => exact hsettle receipt disposition
  | readDeadLetters => rfl
  | metrics => rfl
  | isHealthy => rfl

/-- What a queue's own turn answers, and what it makes of the share of the queue,
are told by the share alone. -/
theorem turn_of_share_eq {b b' : Broker} {t : QueueTurn}
    (h : b.share t.consumer.queue = b'.share t.consumer.queue) :
    (b.turn t).2 = (b'.turn t).2 ∧
      (b.turn t).1.share t.consumer.queue = (b'.turn t).1.share t.consumer.queue := by
  have honly : (b.numberedFrom t.firstReceipt).only t.consumer.queue =
      (b'.numberedFrom t.firstReceipt).only t.consumer.queue :=
    congrArg (numberedFrom · t.firstReceipt) h
  have hturn := (b.numberedFrom t.firstReceipt).only_use t.consumer t.now t.use
  rw [honly, only_use] at hturn
  obtain ⟨hafter, hanswer⟩ := Prod.mk.inj hturn
  exact ⟨hanswer.symm, congrArg (numberedFrom · 0) hafter.symm⟩

/-- Turns of other queues leave no trace in the answers and the share of one. -/
theorem answers_of_share_eq {b b' : Broker} {queue : String} (h : b.share queue = b'.share queue)
    (run : List QueueTurn) :
    (b.answers run).filter (·.1.isOf queue) = b'.answers (run.filter (·.isOf queue)) ∧
      (b.afterTurns run).share queue =
        (b'.afterTurns (run.filter (·.isOf queue))).share queue := by
  induction run generalizing b b' with
  | nil => exact ⟨rfl, h⟩
  | cons t rest ih =>
    by_cases hown : t.isOf queue = true
    · obtain rfl : t.consumer.queue = queue := by simpa [QueueTurn.isOf] using hown
      obtain ⟨hanswer, hshare⟩ := turn_of_share_eq h
      obtain ⟨hanswers, hafter⟩ := ih hshare
      have hkept : (t :: rest).filter (·.isOf t.consumer.queue) =
          t :: rest.filter (·.isOf t.consumer.queue) := List.filter_cons_of_pos hown
      rw [hkept]
      refine ⟨?_, hafter⟩
      simp only [answers, List.filter_cons, hown, if_true, hanswers, hanswer]
    · have hne : t.consumer.queue ≠ queue := by simpa [QueueTurn.isOf] using hown
      have hshare : (b.turn t).1.share queue = b'.share queue :=
        (share_use (b.numberedFrom t.firstReceipt) hne t.now t.use).trans h
      obtain ⟨hanswers, hafter⟩ := ih hshare
      have hdropped : (t :: rest).filter (·.isOf queue) = rest.filter (·.isOf queue) :=
        List.filter_cons_of_neg hown
      rw [hdropped]
      refine ⟨?_, hafter⟩
      simp only [answers, List.filter_cons, hown, Bool.false_eq_true, if_false, hanswers]

/-- A history of calls goes the same way when its receipts are numbered anew. -/
theorem afterTurns_numbered (b : Broker) (history : QueueHistory) :
    b.afterTurns (b.numbered history) = b.after history := by
  induction history generalizing b with
  | nil => rfl
  | cons call rest ih => exact ih (b.step call.1 call.2.1 call.2.2).1

/-- Queues that share a broker are isolated. For every broker and every run of
uses of its queues, whatever identifiers and receipts go from one queue to
another, and however the receipts that polls give out are numbered: all answers
that one queue gives, and its messages and dead letters and the health of its
consumers after the run, are those of the run in which the uses of the other
queues are left out. Every
history of calls is such a run, with its receipts numbered as they are given out. -/
theorem queues_isolated (b : Broker) (run : List QueueTurn) (queue : String) :
    (b.answers run).filter (·.1.isOf queue) = b.answers (run.filter (·.isOf queue)) ∧
    (b.afterTurns run).messages.filter (·.queue == queue) =
      (b.afterTurns (run.filter (·.isOf queue))).messages.filter (·.queue == queue) ∧
    (b.afterTurns run).deadLetters.filter (·.queue == queue) =
      (b.afterTurns (run.filter (·.isOf queue))).deadLetters.filter (·.queue == queue) ∧
    (∀ q : Consumer, q.queue = queue → (b.afterTurns run).isHealthy q =
      (b.afterTurns (run.filter (·.isOf queue))).isHealthy q) ∧
    ∀ history : QueueHistory, b.afterTurns (b.numbered history) = b.after history := by
  obtain ⟨hanswers, hshare⟩ := answers_of_share_eq (rfl : b.share queue = b.share queue) run
  refine ⟨hanswers, congrArg Broker.messages hshare, congrArg Broker.deadLetters hshare, ?_,
    b.afterTurns_numbered⟩
  rintro q rfl
  have hstopped : (b.afterTurns run).stopped.filter (·.queue == q.queue) =
      (b.afterTurns (run.filter (·.isOf q.queue))).stopped.filter (·.queue == q.queue) :=
    congrArg Broker.stopped hshare
  unfold isHealthy
  rw [← only_stopped, ← only_stopped (b.afterTurns (run.filter (·.isOf q.queue)))]
  unfold only
  rw [hstopped]

end Broker

end HearingRelay
