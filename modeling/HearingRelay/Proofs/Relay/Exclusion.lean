import HearingRelay.Proofs.Ledger.Reading
import HearingRelay.Proofs.Ledger.WellFormed
import HearingRelay.Proofs.Relay.Interleaving

/-!
One attempt at a time for each hearing. An attempt holds its row from the call
that takes it to the call that resolves it. Whatever tasks take turns and
however they do, the row held is in progress and is held by no other attempt,
so no two attempts hold rows of one hearing, and the call that resolves the row
applies. The one thing that could come between is a reclaim of stuck rows while
the attempt goes on.
-/

namespace HearingRelay

namespace StoreCall

def takes : StoreCall → Bool
  | claim .. | markProcessing .. => true
  | _ => false

def taken? : (c : StoreCall) → Except StoreError c.Answer → Option Int
  | claim .., .ok (some r) => some r.id
  | markProcessing id _, .ok true => some id
  | _, _ => none

/-- The row whose attempt a call ends. -/
def resolves? : StoreCall → Option Int
  | markCompleted id _ | markException id _ | markPendingWithRetry id _ => some id
  | _ => none

def resolved : (c : StoreCall) → Except StoreError c.Answer → Bool
  | markCompleted .., .ok applied => applied
  | markException .., .ok applied => applied
  | markPendingWithRetry .., .ok applied => applied
  | _, _ => false

def heldAfter (held : Option Int) (c : StoreCall) (answer : Except StoreError c.Answer) :
    Option Int :=
  (c.taken? answer).or (if c.resolved answer then none else held)

end StoreCall

/-- Attempts that take a row while they hold none, and resolve the row that they hold. -/
def holding : Protocol Request.Answer (Option Int) where
  allows held
    | .store c => (c.takes = true → held = none) ∧ ∀ id, c.resolves? = some id → held = some id
    | _ => True
  after held
    | .store c => c.heldAfter held
    | _ => fun _ => held

/-- The row that an activity has taken and not resolved, until it is over. -/
def Activity.holds? (a : Activity) : Option Int :=
  match a.rest with
  | .done _ => none
  | .ask .. => holding.advance none a.past

section Programs

open Program

variable {held : Option Int}

def Request.Keeps : Request → Prop
  | .store c => c.takes = false ∧ c.resolves? = none
  | _ => True

/-- Questions that neither take a row nor resolve one leave the row held. -/
theorem keeps_held {α : Type} {x : Relay α} (h : x.Only Request.Keeps) :
    x.Follows holding (fun _ => (· = held)) held := by
  refine h.follows fun q hq => ?_
  cases q with
  | store c =>
    obtain ⟨htakes, hresolves⟩ := hq
    refine ⟨⟨by simp [htakes], by simp [hresolves]⟩, fun answer => ?_⟩
    cases c with
    | claim => cases htakes
    | markProcessing => cases htakes
    | markCompleted => cases hresolves
    | markException => cases hresolves
    | markPendingWithRetry => cases hresolves
    | _ => rfl
  | _ => exact ⟨trivial, fun _ => rfl⟩

theorem store_keeps {c : StoreCall} (htakes : c.takes = false) (hresolves : c.resolves? = none) :
    (Relay.store c).Only Request.Keeps := only_call ⟨htakes, hresolves⟩

theorem store_holds {c : StoreCall} (htakes : c.takes = false) (hresolves : c.resolves? = none) :
    (Relay.store c).Follows holding (fun _ _ => True) held :=
  (keeps_held (store_keeps htakes hresolves)).mono fun _ _ _ => trivial

theorem markProcessing_takes (id : Int) (deployment : String) :
    (Relay.store (.markProcessing id deployment)).Follows holding
      (fun answer held => answer = .ok true → held = some id) none := by
  refine follows_call ⟨fun _ => rfl, fun _ h => by cases h⟩ fun answer h => ?_
  subst h
  rfl

theorem claim_takes (wait : Time.Span) (deployment : String) :
    (Relay.store (.claim wait deployment)).Follows holding
      (fun answer held => ∀ r, answer = .ok (some r) → held = some r.id) none := by
  refine follows_call ⟨fun _ => rfl, fun _ h => by cases h⟩ fun answer r h => ?_
  subst h
  rfl

/-- A call that resolves the row held. -/
theorem store_resolves {c : StoreCall} {id : Int} (htakes : c.takes = false)
    (hresolves : c.resolves? = some id) :
    (Relay.store c).Follows holding (fun _ _ => True) (some id) := by
  refine follows_call ⟨by simp [htakes], fun id' h => ?_⟩ fun _ => trivial
  rw [← h, hresolves]

theorem deliver_keeps (timeout : Time.Span) (hearing : Int) (eventType : EventType)
    (payload : String) :
    (Delivery.deliver timeout hearing eventType payload).Follows holding
      (fun _ => (· = held)) held :=
  keeps_held (Delivery.deliver_only (fun _ => trivial) fun _ => trivial)

namespace Dispatch

theorem findEntry_keeps (deployment : String) (event : Event) :
    (findEntry deployment event).Follows holding (fun _ => (· = held)) held := by
  refine keeps_held (findEntry_only fun c hc => ?_)
  cases c with
  | rowsOfHearing => exact store_keeps rfl rfl
  | requeueException => exact store_keeps rfl rfl
  | create => exact store_keeps rfl rfl
  | _ => cases hc

theorem attempt_resolves (settings : DispatchSettings) (event : Event) (r : PendingRequest)
    (deliveryCount : Nat) :
    (attempt settings event r deliveryCount).Follows holding (fun _ _ => True) (some r.id) := by
  refine (deliver_keeps _ _ _ _).bind fun result _ h => ?_
  subst h
  cases result with
  | ok response =>
    refine (store_resolves rfl rfl).bind fun answer _ _ => ?_
    cases answer <;> exact follows_pure trivial
  | error err =>
    refine Follows.bind (M := fun _ _ => True) ?_ fun _ _ _ => follows_pure trivial
    unfold recordFailure
    split
    · exact (store_resolves rfl rfl).bind fun _ _ _ => follows_pure trivial
    · exact (store_resolves rfl rfl).bind fun _ _ _ => follows_pure trivial

theorem process_holds (settings : DispatchSettings) (event : Event) (deliveryCount : Nat) :
    (process settings event deliveryCount).Follows holding (fun _ _ => True) none := by
  refine (findEntry_keeps _ _).bind fun entry _ h => ?_
  subst h
  split
  · exact follows_pure trivial
  · exact follows_pure trivial
  · exact follows_pure trivial
  · next r =>
    refine (markProcessing_takes r.id settings.deployment).bind fun answer held h => ?_
    split
    · exact follows_pure trivial
    · exact follows_pure trivial
    · rw [h rfl]
      exact attempt_resolves settings event r deliveryCount

end Dispatch

namespace Redrive

theorem conclude_resolves {c : StoreCall} {id : Int} (htakes : c.takes = false)
    (hresolves : c.resolves? = some id) (outcome : RedriveOutcome) :
    (conclude c outcome).Follows holding (fun _ _ => True) (some id) := by
  refine (store_resolves htakes hresolves).bind fun answer _ _ => ?_
  cases answer <;> exact follows_pure trivial

theorem attempt_resolves (settings : SchedulerSettings) (timeout : Time.Span)
    (r : PendingRequest) :
    (attempt settings timeout r).Follows holding (fun _ _ => True) (some r.id) := by
  have hclock : Relay.clock.Follows holding (fun _ => (· = some r.id)) (some r.id) :=
    follows_call trivial fun _ => rfl
  refine hclock.bind fun now _ h => ?_
  subst h
  split
  · exact follows_pure trivial
  · exact conclude_resolves rfl rfl _
  · refine (deliver_keeps _ _ _ _).bind fun result _ h => ?_
    subst h
    cases result with
    | ok response => exact conclude_resolves rfl rfl _
    | error e =>
      unfold record
      dsimp only
      split
      · exact conclude_resolves rfl rfl _
      · exact conclude_resolves rfl rfl _

end Redrive

theorem redriveNext_holds (settings : SchedulerSettings) (timeout : Time.Span) :
    (redriveNext settings timeout).Follows holding (fun _ _ => True) none := by
  refine (claim_takes settings.pendingWait settings.deployment).bind fun answer held h => ?_
  split
  · exact follows_pure trivial
  · exact follows_pure trivial
  · next r =>
    rw [h r rfl]
    exact Redrive.attempt_resolves settings timeout r

/-- Every task takes rows one at a time, and resolves only what it has taken. -/
theorem Task.program_holds (task : Task) : task.program.Follows holding (fun _ _ => True) none := by
  cases task with
  | dispatch settings e deliveryCount =>
    refine Follows.bind (M := fun _ _ => True) ?_ fun _ _ _ => follows_pure trivial
    unfold HearingRelay.dispatch
    cases Dispatch.eventOf e with
    | error err => exact follows_pure trivial
    | ok event =>
      refine (Dispatch.process_holds settings event deliveryCount).bind fun result _ _ => ?_
      cases result <;> exact follows_pure trivial
  | redrive settings timeout =>
    exact (redriveNext_holds settings timeout).bind fun _ _ _ => follows_pure trivial
  | escalate settings =>
    refine Follows.bind (M := fun _ _ => True) ?_ fun _ _ _ => follows_pure trivial
    refine (keeps_held (store_keeps rfl rfl)).bind fun answer held h => ?_
    cases answer with
    | error e => exact follows_pure trivial
    | ok rows => exact store_holds rfl rfl
  | deleteCompleted settings =>
    exact (store_holds rfl rfl).bind fun _ _ _ => follows_pure trivial
  | reclaimStuck settings =>
    exact (store_holds rfl rfl).bind fun _ _ _ => follows_pure trivial

end Programs

namespace Ledger

variable {l : Ledger} {now id : Int} {c : StoreCall}

/-- A call that took a row found it pending and has put it in progress. -/
theorem taken_spec (h : l.IdsIncrease) (htaken : c.taken? (l.step now c).2 = some id) :
    (∃ r ∈ l.rows, r.id = id ∧ r.is .pending = true) ∧
      ∃ q ∈ (l.step now c).1.rows, q.id = id ∧ q.is .processing = true := by
  cases c with
  | claim wait deployment =>
    cases hanswer : (l.step now (.claim wait deployment)).2 with
    | error e =>
      rw [hanswer] at htaken
      cases htaken
    | ok claimed =>
      rw [hanswer] at htaken
      cases claimed with
      | none => cases htaken
      | some r =>
        obtain ⟨row, hrow, hpending, hpass, hread⟩ := row_of_claim hanswer
        obtain rfl : r.id = id := Option.some.inj htaken
        have hid : r.id = row.id := (Row.shows_of_read hread).id
        exact ⟨⟨row, hrow, hid.symm, hpending⟩, _, mem_step_of_rowAfter h hrow hpass, hid.symm,
          by simp⟩
  | markProcessing i deployment =>
    cases hanswer : (l.step now (.markProcessing i deployment)).2 with
    | error e =>
      rw [hanswer] at htaken
      cases htaken
    | ok applied =>
      rw [hanswer] at htaken
      cases applied with
      | false => cases htaken
      | true =>
        obtain rfl : i = id := Option.some.inj htaken
        obtain ⟨row, hrow, hid, hpending, hpass⟩ := row_of_markProcessing hanswer
        exact ⟨⟨row, hrow, hid, hpending⟩, _, mem_step_of_rowAfter h hrow hpass, hid, by simp⟩
  | _ => cases htaken

/-- The end of an attempt is recorded in a row in progress. -/
theorem resolved_of_processing (h : l.IdsIncrease) {r : Row} (hr : r ∈ l.rows)
    (hp : r.is .processing = true) (hc : c.resolves? = some r.id) :
    c.resolved (l.step now c).2 = true := by
  rw [step_eq_stepUnindexed]
  cases c with
  | markCompleted i | markException i | markPendingWithRetry i =>
    obtain rfl : i = r.id := Option.some.inj hc
    simp [stepUnindexed, changeUnindexed, row?_of_mem h hr, hp, StoreCall.succeed,
      StoreCall.resolved]
  | _ => cases hc

/-- A row in progress stays so until its attempt is ended or it is freed as stuck. -/
theorem stays_in_progress (h : l.IdsIncrease) {r : Row} (hr : r ∈ l.rows)
    (hp : r.is .processing = true) (hresolves : c.resolves? ≠ some r.id)
    (hstuck : ∀ timeout deployment, c = .reclaimStuck timeout deployment →
      isStuck now timeout r = false) :
    ∃ q ∈ (l.step now c).1.rows, q.id = r.id ∧ q.is .processing = true := by
  have hother : ∀ {s : Status}, r.is s = true → s = .processing := fun hs => Row.status_unique hs hp
  cases hpass : l.rowAfter now c r with
  | none => cases hother (completed_of_rowAfter_eq_none hpass)
  | some q =>
    refine ⟨q, mem_step_of_rowAfter h hr hpass, ?_⟩
    cases passage_of_rowAfter hpass with
    | stays => exact ⟨rfl, hp⟩
    | flagged => exact ⟨rfl, hp⟩
    | claimed => exact ⟨rfl, by simp⟩
    | taken => exact ⟨rfl, by simp⟩
    | completed => exact absurd rfl hresolves
    | givenUp => exact absurd rfl hresolves
    | retried => exact absurd rfl hresolves
    | requeued deployment r he => cases hother he
    | reclaimed timeout deployment r hs =>
      rw [hstuck timeout deployment rfl] at hs
      cases hs

end Ledger

namespace Fleet

def Holds (f : Fleet) (i : Nat) (id : Int) : Prop :=
  ∃ a, f.activities[i]? = some a ∧ a.holds? = some id

def Asks (f : Fleet) (i : Nat) (q : Request) : Prop :=
  ∃ a, f.activities[i]? = some a ∧ a.question? = some q

/-- Whether a call frees a row whose attempt goes on. -/
def interrupts (f : Fleet) (now : Int) : StoreCall → Bool
  | .reclaimStuck timeout _ => f.ledger.rows.any fun r =>
      Ledger.isStuck now timeout r && f.activities.any (·.holds? == some r.id)
  | _ => false

/-- Whether a move leaves the rows of attempts that go on to them. -/
def spares (f : Fleet) : Move → Bool
  | .ask i now _ =>
    match f.activities[i]?.bind (·.question?) with
    | some (.store c) => !f.interrupts now c
    | _ => true
  | _ => true

/-- Rows held are in progress, each held once. -/
structure Exclusive (f : Fleet) : Prop where
  wellFormed : f.ledger.WellFormed
  follow : f.Follow holding none
  in_progress : ∀ i id, f.Holds i id → ∃ r ∈ f.ledger.rows, r.id = id ∧ r.is .processing = true
  alone : ∀ i j id, f.Holds i id → f.Holds j id → i = j

variable {f : Fleet} {i j : Nat} {a : Activity} {now id : Int} {outside : (q : Request) → q.Answer}

/-- Between its questions an activity holds what its replies have left it. -/
theorem holds?_eq {q : Request} {next : q.Answer → Relay Unit} (h : a.rest = .ask q next) :
    a.holds? = holding.advance none a.past := by
  unfold Activity.holds?
  rw [h]

theorem advance_of_holds? (h : a.holds? = some id) : holding.advance none a.past = some id := by
  unfold Activity.holds? at h
  split at h
  · cases h
  · exact h

/-- An activity starts with no row. -/
theorem holds?_start (task : Task) : (Activity.start task).holds? = none := by
  unfold Activity.holds?
  split <;> rfl

theorem holds_replied {q : Request} {next : q.Answer → Relay Unit} {answer : q.Answer}
    (hrest : a.rest = .ask q next) (h : (a.replied q next answer).holds? = some id) :
    holding.after a.holds? q answer = some id := by
  rw [holds?_eq hrest]
  have hadvance := advance_of_holds? h
  unfold Activity.replied at hadvance
  dsimp only at hadvance
  rwa [Protocol.advance_append] at hadvance

/-- A question puts no row into other hands. -/
theorem holds_asked {q : Request} {next : q.Answer → Relay Unit}
    (hrest : a.rest = .ask q next) (h : (f.asked i a now outside q next).Holds j id) :
    (j ≠ i ∧ f.Holds j id) ∨
      (j = i ∧ holding.after a.holds? q (f.ledger.answer now outside q).2 = some id) := by
  obtain ⟨b, hb, hholds⟩ := h
  rcases Activity.of_getElem?_set hb with ⟨rfl, rfl⟩ | ⟨hne, hb⟩
  · exact Or.inr ⟨rfl, holds_replied hrest hholds⟩
  · exact Or.inl ⟨hne, b, hb, hholds⟩

/-- After a call of the store an activity holds what it held before, or the row taken just now. -/
theorem holds_asked_store {c : StoreCall} {next : Except StoreError c.Answer → Relay Unit}
    (hi : f.activities[i]? = some a) (hrest : a.rest = .ask (.store c) next)
    (h : (f.asked i a now outside (.store c) next).Holds j id) :
    (f.Holds j id ∧ (j = i → c.resolved (f.ledger.step now c).2 = false)) ∨
      (j = i ∧ c.taken? (f.ledger.step now c).2 = some id) := by
  rcases holds_asked hrest h with ⟨hne, hbefore⟩ | ⟨rfl, hnow⟩
  · exact Or.inl ⟨hbefore, fun he => absurd he hne⟩
  · change c.heldAfter a.holds? (f.ledger.step now c).2 = some id at hnow
    unfold StoreCall.heldAfter at hnow
    rcases Option.or_eq_some_iff.mp hnow with htaken | ⟨_, hkept⟩
    · exact Or.inr ⟨rfl, htaken⟩
    · split at hkept
      · cases hkept
      · next hopen => exact Or.inl ⟨⟨a, hi, hkept⟩, fun _ => by simpa using hopen⟩

namespace Exclusive

/-- Rows that were held before stay as they were when nothing happens to the ledger. -/
theorem of_holds {f' : Fleet} (h : f.Exclusive) (hfollow : f'.Follow holding none)
    (hledger : f'.ledger = f.ledger) (hholds : ∀ i id, f'.Holds i id → f.Holds i id) :
    f'.Exclusive where
  wellFormed := hledger ▸ h.wellFormed
  follow := hfollow
  in_progress i id hi := hledger ▸ h.in_progress i id (hholds i id hi)
  alone i j id hi hj := h.alone i j id (hholds i id hi) (hholds j id hj)

/-- What an activity asks is allowed by what it holds. -/
theorem allowed (h : f.Exclusive) {q : Request} (hi : f.activities[i]? = some a)
    (hquestion : a.question? = some q) : holding.allows a.holds? q := by
  obtain ⟨next, hrest⟩ := Activity.rest_of_question? hquestion
  rw [holds?_eq hrest]
  exact h.follow.allows hi hrest

/-- What an activity asks to resolve is what it holds. -/
theorem resolves (h : f.Exclusive) {c : StoreCall} (hasks : f.Asks i (.store c))
    (hc : c.resolves? = some id) : f.Holds i id := by
  obtain ⟨a, hi, hquestion⟩ := hasks
  exact ⟨a, hi, (h.allowed hi hquestion).2 id hc⟩

theorem resolved (h : f.Exclusive) {c : StoreCall} (hasks : f.Asks i (.store c))
    (hc : c.resolves? = some id) (now : Int) : c.resolved (f.ledger.step now c).2 = true := by
  obtain ⟨r, hr, rfl, hp⟩ := h.in_progress i id (h.resolves hasks hc)
  exact Ledger.resolved_of_processing h.wellFormed.ids_increase hr hp hc

/-- An activity takes a row only while it holds none. -/
theorem takes_free (h : f.Exclusive) {c : StoreCall} (hasks : f.Asks i (.store c))
    (hc : c.takes = true) : ¬ f.Holds i id := by
  rintro ⟨a, hi, hholds⟩
  obtain ⟨b, hb, hquestion⟩ := hasks
  obtain rfl := Option.some.inj (hi.symm.trans hb)
  rw [(h.allowed hi hquestion).1 hc] at hholds
  cases hholds

/-- A row that is held stays in progress through a call, unless the call resolves it. -/
theorem stays (h : f.Exclusive) {c : StoreCall} (hasks : f.Asks i (.store c))
    (hspares : f.interrupts now c = false) (hj : f.Holds j id)
    (hopen : j = i → c.resolved (f.ledger.step now c).2 = false) :
    ∃ r ∈ (f.ledger.step now c).1.rows, r.id = id ∧ r.is .processing = true := by
  obtain ⟨r, hr, rfl, hp⟩ := h.in_progress j id hj
  refine Ledger.stays_in_progress h.wellFormed.ids_increase hr hp ?_ ?_
  · intro hresolves
    have hji : j = i := h.alone j i r.id hj (h.resolves hasks hresolves)
    rw [h.resolved hasks hresolves now] at hopen
    cases hopen hji
  · rintro timeout deployment rfl
    obtain ⟨b, hb, hholds⟩ := hj
    simp only [interrupts, List.any_eq_false, Bool.and_eq_true, not_and, Bool.not_eq_true,
      beq_eq_false_iff_ne] at hspares
    by_contra hstuck
    exact hspares r hr (by simpa using hstuck) b (List.mem_of_getElem? hb) hholds

/-- No call takes a row that is held. -/
theorem taken_ne (h : f.Exclusive) (hj : f.Holds j id) (c : StoreCall) (now : Int) :
    c.taken? (f.ledger.step now c).2 ≠ some id := by
  intro htaken
  have hinc := h.wellFormed.ids_increase
  obtain ⟨r, hr, rfl, hp⟩ := h.in_progress j id hj
  obtain ⟨⟨q, hq, hid, hpending⟩, _⟩ := Ledger.taken_spec hinc htaken
  obtain rfl := Ledger.eq_of_id_eq hinc hq hr hid
  exact absurd (Row.status_unique hp hpending) (by decide)

/-- A call of the store that frees no row of an attempt that goes on. -/
theorem asked_store (h : f.Exclusive) {c : StoreCall}
    {next : Except StoreError c.Answer → Relay Unit} (hi : f.activities[i]? = some a)
    (hrest : a.rest = .ask (.store c) next) (hspares : f.interrupts now c = false)
    (hfollow : (f.asked i a now outside (.store c) next).Follow holding none) :
    (f.asked i a now outside (.store c) next).Exclusive := by
  have hasks : f.Asks i (.store c) := ⟨a, hi, by simp [Activity.question?, hrest]⟩
  refine ⟨Ledger.step_wellFormed h.wellFormed now c, hfollow, ?_, ?_⟩
  · intro j id hj
    rcases holds_asked_store hi hrest hj with ⟨hbefore, hopen⟩ | ⟨_, htaken⟩
    · exact h.stays hasks hspares hbefore hopen
    · exact (Ledger.taken_spec h.wellFormed.ids_increase htaken).2
  · intro j k id hj hk
    rcases holds_asked_store hi hrest hj with ⟨hj, _⟩ | ⟨rfl, htaken⟩
    · rcases holds_asked_store hi hrest hk with ⟨hk, _⟩ | ⟨_, htaken⟩
      · exact h.alone j k id hj hk
      · exact absurd htaken (h.taken_ne hj c now)
    · rcases holds_asked_store hi hrest hk with ⟨hk, _⟩ | ⟨rfl, _⟩
      · exact absurd htaken (h.taken_ne hk c now)
      · rfl

/-- Every move keeps the attempts apart, unless it frees the row of one that goes on. -/
theorem move (h : f.Exclusive) {m : Move} (hspares : f.spares m = true) : (f.move m).Exclusive := by
  have hfollow : (f.move m).Follow holding none :=
    h.follow.move fun task _ => task.program_holds
  have hstep := step_move f m
  generalize f.move m = f' at hstep hfollow
  cases hstep with
  | idle => exact h
  | started task =>
    refine h.of_holds hfollow rfl fun j id hj => ?_
    obtain ⟨b, hb, hholds⟩ := hj
    rcases Activity.of_getElem?_concat hb with rfl | hb
    · rw [holds?_start] at hholds
      cases hholds
    · exact ⟨b, hb, hholds⟩
  | asked i now outside a q next hi hrest =>
    cases q with
    | store c =>
      refine h.asked_store hi hrest ?_ hfollow
      simpa [spares, hi, Activity.question?, hrest] using hspares
    | _ =>
      refine h.of_holds hfollow rfl fun j id hj => ?_
      rcases holds_asked hrest hj with ⟨_, hj⟩ | ⟨rfl, hholds⟩
      · exact hj
      · exact ⟨a, hi, hholds⟩
  | cutOff i a hi =>
    refine h.of_holds hfollow rfl fun j id hj => ?_
    obtain ⟨b, hb, hholds⟩ := hj
    rcases Activity.of_getElem?_set hb with ⟨_, rfl⟩ | ⟨_, hb⟩
    · cases hholds
    · exact ⟨b, hb, hholds⟩

end Exclusive

/-- No activity over a ledger that calls have led to. -/
theorem start_exclusive {l : Ledger} (h : l.WellFormed) : (start l).Exclusive where
  wellFormed := h
  follow := by simp [start, Follow]
  in_progress i id hi := by simp [start, Holds] at hi
  alone i j id hi := by simp [start, Holds] at hi

/-- One attempt at a time for each hearing. Dispatches, re-drives and upkeep of
any number take turns call by call, over a ledger that any calls have led to,
each call at a clock reading of its own, and no row is freed whose attempt goes
on. Then no two attempts hold rows of one hearing, a row that is held is in
progress, a call that is to resolve a row is made by the attempt that holds it
and applies at any time, and no attempt takes a row while it holds one. -/
theorem one_attempt_at_a_time (history : List (Int × StoreCall)) (moves : List Move)
    (hspares : (start (Ledger.empty.after history)).Along (fun f m => f.spares m = true) moves) :
    let f := (start (Ledger.empty.after history)).after moves
    (∀ i j, ∀ r ∈ f.ledger.rows, ∀ q ∈ f.ledger.rows, f.Holds i r.id → f.Holds j q.id →
      r.hearing = q.hearing → i = j) ∧
      (∀ i id, f.Holds i id → ∃ r ∈ f.ledger.rows, r.id = id ∧ r.is .processing = true) ∧
      (∀ i c id, f.Asks i (.store c) → c.resolves? = some id →
        f.Holds i id ∧ ∀ now, c.resolved (f.ledger.step now c).2 = true) ∧
      ∀ i c id, f.Asks i (.store c) → c.takes = true → ¬ f.Holds i id := by
  intro f
  have hwf := Ledger.after_wellFormed Ledger.empty_wellFormed history
  have h : f.Exclusive :=
    after_induction (I := Exclusive) (fun f m hm hf => hf.move hm) (start_exclusive hwf) hspares
  refine ⟨?_, h.in_progress, fun i c id hasks hc => ⟨h.resolves hasks hc, h.resolved hasks hc⟩,
    fun i c id hasks hc => h.takes_free hasks hc⟩
  intro i j r hr q hq hi hj hhearing
  have hprocessing : ∀ {k : Nat} {p : Row}, p ∈ f.ledger.rows → f.Holds k p.id →
      p.is .processing = true := by
    intro k p hp hk
    obtain ⟨t, ht, hid, hprocessing⟩ := h.in_progress k p.id hk
    exact Ledger.eq_of_id_eq h.wellFormed.ids_increase ht hp hid ▸ hprocessing
  obtain rfl := h.wellFormed.one_in_progress r hr q hq hhearing (hprocessing hr hi)
    (hprocessing hq hj)
  exact h.alone i j r.id hi hj

/-- Two events of one hearing are dispatched while the scheduler re-drives. It
takes the row that the first dispatch has made; the dispatch is refused the row
and is over. The second dispatch is refused its own. Later a row that was left
in progress is freed, and the re-drive has yet to resolve the row it holds. -/
def contention : List Move :=
  let message type : Envelope :=
    ⟨"m", Properties.ofList [("message_type", type), ("hearing_id", "1")], "\x7b\x7d"⟩
  let dispatching : DispatchSettings := { timeout := .ofMillis 5000 }
  let scheduling : SchedulerSettings := {
    runInterval := .ofSeconds 120, pendingWait := .ofSeconds 900,
    exceptionLimit := .ofSeconds 14400, escalationThreshold := .ofSeconds 86400,
    retention := .ofSeconds 2592000, processingTimeout := .ofSeconds 1800, deployment := "local" }
  let ask (i : Nat) (now : Int) : Move :=
    .ask i now (World.outside (fun _ _ => some (.ok ⟨200, none⟩)) (.empty now))
  [.start (.dispatch dispatching (message "REQUEST_HEARING") 1), ask 0 5, ask 0 6,
    .start (.redrive scheduling (.ofMillis 5000)), ask 1 1900000,
    .start (.dispatch dispatching (message "AMEND_HEARING") 1), ask 2 8, ask 2 9, ask 0 10,
    ask 2 11, ask 1 12, ask 1 13, .start (.reclaimStuck scheduling), ask 3 2000000, ask 1 15]

/-- A row of another hearing, left in progress by an attempt of which nothing is known. -/
def abandonedHistory : List (Int × StoreCall) :=
  [(0, .create 2 .request "[]" "local"), (1, .markProcessing 1 "local")]

theorem contention_one_attempt :
    (start (Ledger.empty.after abandonedHistory)).Along (fun f m => f.spares m = true) contention ∧
      let f := (start (Ledger.empty.after abandonedHistory)).after contention
      f.activities[1]?.bind (·.holds?) = some 2 ∧
      (∀ i j, ∀ r ∈ f.ledger.rows, ∀ q ∈ f.ledger.rows, f.Holds i r.id → f.Holds j q.id →
        r.hearing = q.hearing → i = j) ∧
      (∀ i id, f.Holds i id → ∃ r ∈ f.ledger.rows, r.id = id ∧ r.is .processing = true) ∧
      (∀ i c id, f.Asks i (.store c) → c.resolves? = some id →
        f.Holds i id ∧ ∀ now, c.resolved (f.ledger.step now c).2 = true) ∧
      ∀ i c id, f.Asks i (.store c) → c.takes = true → ¬ f.Holds i id := by
  have hspares : (start (Ledger.empty.after abandonedHistory)).Along (fun f m => f.spares m = true)
      contention := by decide +kernel
  exact ⟨hspares, by decide +kernel, one_attempt_at_a_time abandonedHistory contention hspares⟩

end Fleet

end HearingRelay
