import HearingRelay.Proofs.Ledger.WellFormed
import HearingRelay.World
import HearingRelay.Worker

/-!
Runs with a record. Every question that a program asks is written down, the
newest first, with its answer and with the surroundings before and after it.
Keeping the record changes nothing: the surroundings and the answers are those
of the plain run. A row is attributed to a call of the service as the row that
was in progress for the hearing of the call when the call was made.
-/

namespace HearingRelay

/-- A call is for a row in progress when it says what the row says. -/
structure DownstreamCall.IsFor (call : DownstreamCall) (row : Row) (l : Ledger) : Prop where
  mem : row ∈ l.rows
  processing : row.is .processing = true
  hearing : row.hearing = call.hearing
  eventType : row.eventType = call.eventType.name
  document : Json.parse row.message = .ok call.payload

structure Exchange where
  before : World
  question : Request
  answer : question.Answer
  after : World

namespace Exchange

/-- The row that a call is made for: the row in progress of its hearing. -/
def subject? (x : Exchange) : Option Row :=
  match x.question with
  | .send call => x.before.ledger.rows.find? fun row =>
      row.hearing == call.hearing && row.is .processing
  | _ => none

/-- Whether the question is a call of the service that was accepted. -/
def succeeds : Exchange → Bool
  | ⟨_, .send _, some (.ok _), _⟩ => true
  | _ => false

def delivered? (x : Exchange) : Option Row := if x.succeeds then x.subject? else none

def call? : Exchange → Option (DownstreamCall × Option CallResult)
  | ⟨_, .send call, answer, _⟩ => some (call, answer)
  | _ => none

def storeFails : Exchange → Bool
  | ⟨_, .store _, .error _, _⟩ => true
  | _ => false

def queueFails : Exchange → Bool
  | ⟨_, .publish .., .error _, _⟩ => true
  | ⟨_, .poll _, .error _, _⟩ => true
  | ⟨_, .settle .., .error _, _⟩ => true
  | _ => false

end Exchange

def callsIn (trace : List Exchange) : List (DownstreamCall × Option CallResult) :=
  trace.filterMap (·.call?)

/-- The rows that successful calls were made for, one for each call. -/
def deliveries (trace : List Exchange) : List Row := trace.filterMap (·.delivered?)

/-- The surroundings with the record of what was asked of them. -/
structure Observed where
  world : World
  /-- The newest exchange comes first. -/
  trace : List Exchange

namespace Observed

variable {α : Type} (service : Service) (visibility : Nat)

def start (w : World) : Observed := ⟨w, []⟩

def exchange (o : Observed) (q : Request) : Exchange :=
  let answered := World.handle service visibility q o.world
  ⟨o.world, q, answered.2, answered.1⟩

def ask (o : Observed) (q : Request) : Observed :=
  let x := o.exchange service visibility q
  ⟨x.after, x :: o.trace⟩

def handle : Handler Request.Answer Observed := fun q o =>
  (o.ask service visibility q, (o.exchange service visibility q).answer)

/-- A record changes neither the surroundings nor the answer. -/
theorem run_handle (p : Relay α) (o : Observed) :
    ((p.run (handle service visibility) o).1.world, (p.run (handle service visibility) o).2) =
      p.run (World.handle service visibility) o.world := by
  induction p generalizing o with
  | done a => rfl
  | ask q next ih => exact ih _ _

@[simp] theorem ask_trace (o : Observed) (q : Request) :
    (o.ask service visibility q).trace = o.exchange service visibility q :: o.trace := rfl

theorem ask_store_world (o : Observed) (c : StoreCall) :
    (o.ask service visibility (.store c)).world =
      { o.world with ledger := (o.world.ledger.step o.world.now c).1 } := rfl

theorem ask_clock_world (o : Observed) : (o.ask service visibility .clock).world = o.world := rfl

@[simp] theorem ask_store_ledger (o : Observed) (c : StoreCall) :
    (o.ask service visibility (.store c)).world.ledger =
      (o.world.ledger.step o.world.now c).1 := rfl

@[simp] theorem ask_store_now (o : Observed) (c : StoreCall) :
    (o.ask service visibility (.store c)).world.now = o.world.now := rfl

/-- The clock stands still while questions are answered. -/
theorem ask_now (o : Observed) (q : Request) :
    (o.ask service visibility q).world.now = o.world.now := by
  cases q <;> rfl

/-- What was written down stays written down. -/
theorem trace_suffix_run (p : Relay α) (o : Observed) :
    o.trace <:+ (p.run (handle service visibility) o).1.trace := by
  induction p generalizing o with
  | done a => exact List.suffix_refl _
  | ask q next ih => exact (List.suffix_cons _ _).trans (ih _ (o.ask service visibility q))

/-- Only calls of the store touch the ledger. -/
theorem ask_ledger {q : Request} (hq : ∀ c, q ≠ .store c) (o : Observed) :
    (o.ask service visibility q).world.ledger = o.world.ledger := by
  cases q with
  | store c => exact absurd rfl (hq c)
  | _ => rfl

@[simp] theorem exchange_question (o : Observed) (q : Request) :
    (o.exchange service visibility q).question = q := rfl

@[simp] theorem exchange_after (o : Observed) (q : Request) :
    (o.exchange service visibility q).after = (o.ask service visibility q).world := rfl

/-- Questions other than calls of the service deliver nothing. -/
theorem delivered?_exchange {q : Request} (hq : ∀ call, q ≠ .send call) (o : Observed) :
    (o.exchange service visibility q).delivered? = none := by
  cases q with
  | send call => exact absurd rfl (hq call)
  | _ => rfl

/-- In a well-formed ledger the row of a call is the only one it can be for. -/
theorem subject?_send {o : Observed} (hwf : o.world.ledger.WellFormed) {row : Row}
    {call : DownstreamCall} (hfor : call.IsFor row o.world.ledger) :
    (o.exchange service visibility (.send call)).subject? = some row := by
  change (o.world.ledger.rows.find? fun row => row.hearing == call.hearing && row.is .processing) =
    some row
  cases hfind : o.world.ledger.rows.find? fun row =>
      row.hearing == call.hearing && row.is .processing with
  | none =>
    have hnot := List.find?_eq_none.mp hfind row hfor.mem
    simp [hfor.hearing, hfor.processing] at hnot
  | some q =>
    have hq := List.find?_some hfind
    simp only [Bool.and_eq_true, beq_iff_eq] at hq
    rw [hwf.one_in_progress q (List.mem_of_find?_eq_some hfind) row hfor.mem
      (hq.1.trans hfor.hearing.symm) hq.2 hfor.processing]

theorem run_store (c : StoreCall) (o : Observed) :
    (Relay.store c).run (handle service visibility) o =
      (o.ask service visibility (.store c), (o.world.ledger.step o.world.now c).2) := rfl

theorem run_send (call : DownstreamCall) (o : Observed) :
    (Relay.send call).run (handle service visibility) o =
      (o.ask service visibility (.send call), service o.world.calls call) := rfl

theorem run_poll (batch : Nat) (o : Observed) :
    (Relay.poll batch).run (handle service visibility) o =
      (o.ask service visibility (.poll batch), (o.world.poll visibility batch).2) := rfl

theorem run_clock (o : Observed) :
    Relay.clock.run (handle service visibility) o =
      (o.ask service visibility .clock, Time.Instant.ofMillis o.world.now) := rfl

def announced (o : Observed) (hearing : Int) : Option SyncResponse → Observed
  | none => o
  | some report => o.ask service visibility (.publish hearing report)

theorem run_announce (hearing : Int) (report : Option SyncResponse) (o : Observed) :
    ((Delivery.announce hearing report).run (handle service visibility) o).1 =
      o.announced service visibility hearing report := by
  cases report <;> rfl

def resultOf (o : Observed) (timeout : Time.Span) (call : DownstreamCall) : CallResult :=
  Delivery.resultWithin timeout (service o.world.calls call)

/-- A call delivers its row when its result is a response, and nothing otherwise. -/
theorem delivered?_send (o : Observed) (timeout : Time.Span) (call : DownstreamCall) :
    (o.exchange service visibility (.send call)).delivered? =
      match o.resultOf service timeout call with
      | .ok _ => (o.exchange service visibility (.send call)).subject?
      | .error _ => none := by
  have aux : ∀ (after : World) (answer : Option CallResult),
      (Exchange.mk o.world (.send call) answer after).delivered? =
        match Delivery.resultWithin timeout answer with
        | .ok _ => (Exchange.mk o.world (.send call) answer after).subject?
        | .error _ => none := by
    intro after answer
    cases answer with
    | none => rfl
    | some result => cases result <;> rfl
  exact aux _ (service o.world.calls call)

def called (o : Observed) (timeout : Time.Span) (call : DownstreamCall) : Observed :=
  (o.ask service visibility (.send call)).announced service visibility call.hearing
    (o.resultOf service timeout call).report?

theorem announced_ledger (o : Observed) (hearing : Int) (report : Option SyncResponse) :
    (o.announced service visibility hearing report).world.ledger = o.world.ledger := by
  cases report <;> rfl

theorem called_ledger (o : Observed) (timeout : Time.Span) (call : DownstreamCall) :
    (o.called service visibility timeout call).world.ledger = o.world.ledger :=
  announced_ledger service visibility _ _ _

theorem called_now (o : Observed) (timeout : Time.Span) (call : DownstreamCall) :
    (o.called service visibility timeout call).world.now = o.world.now := by
  unfold called
  cases (o.resultOf service timeout call).report? <;> rfl

theorem storeFails_exchange {o : Observed} {c : StoreCall} {e : StoreError}
    (h : (o.world.ledger.step o.world.now c).2 = .error e) :
    (o.exchange service visibility (.store c)).storeFails = true := by
  have aux : ∀ (after : World) (answer : Except StoreError c.Answer), answer = .error e →
      (Exchange.mk o.world (.store c) answer after).storeFails = true := by
    rintro after answer rfl
    rfl
  exact aux _ _ h

theorem queueFails_poll {o : Observed} {limit : Nat} {e : QueueError}
    (h : (o.world.poll visibility limit).2 = .error e) :
    (o.exchange service visibility (.poll limit)).queueFails = true := by
  have aux : ∀ (after : World) (answer : Except QueueError (List Leased)), answer = .error e →
      (Exchange.mk o.world (.poll limit) answer after).queueFails = true := by
    rintro after answer rfl
    rfl
  exact aux _ _ h

theorem callsIn_called (o : Observed) (timeout : Time.Span) (call : DownstreamCall) :
    callsIn (o.called service visibility timeout call).trace =
      (call, service o.world.calls call) :: callsIn o.trace := by
  unfold called
  cases (o.resultOf service timeout call).report? <;> rfl

/-- A delivery makes one call, unless its payload cannot be read. -/
theorem run_deliver (timeout : Time.Span) (hearing : Int) (eventType : EventType)
    {payload : String} {document : Json.Value} (hdoc : Json.parse payload = .ok document)
    (o : Observed) :
    (Delivery.deliver timeout hearing eventType payload).run (handle service visibility) o =
      (o.called service visibility timeout ⟨eventType, hearing, document⟩,
        (o.resultOf service timeout ⟨eventType, hearing, document⟩).mapError .downstream) := by
  unfold Delivery.deliver
  simp only [hdoc, Program.run_bind, Program.run_pure, run_send, run_announce]
  rfl

theorem run_deliver_unreadable (timeout : Time.Span) (hearing : Int) (eventType : EventType)
    {payload : String} {e : Json.Error} (hdoc : Json.parse payload = .error e) (o : Observed) :
    (Delivery.deliver timeout hearing eventType payload).run (handle service visibility) o =
      (o, .error (.payload e)) := by
  unfold Delivery.deliver
  simp only [hdoc, Program.run_pure]

end Observed

/-- A round of the worker polls, and handles what it was handed out. -/
theorem Worker.run_runOnce (service : Service) (visibility : Nat) (settings : DispatchSettings)
    (size : Nat) (o : Observed) :
    (runOnce settings size).run (Observed.handle service visibility) o =
      match (o.world.poll visibility size).2 with
      | .error e => (o.ask service visibility (.poll size), .error e)
      | .ok batch => (((handleAll settings batch).run (Observed.handle service visibility)
          (o.ask service visibility (.poll size))).1, .ok batch.length) := by
  unfold runOnce
  rw [Program.run_bind, Observed.run_poll]
  cases (o.world.poll visibility size).2 with
  | error e => rfl
  | ok batch =>
    dsimp only
    rw [Program.run_bind]
    rfl

end HearingRelay
