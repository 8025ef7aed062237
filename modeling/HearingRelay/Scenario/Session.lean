import HearingRelay.Scenario.Step
import HearingRelay.Worker
import HearingRelay.World

/-!
The state of a scenario: the world, the answers still laid down, the failures
still to come, and the receipts that the script knows by name. Every method
takes up one of its failures per call, whoever calls it; when none is left the
call goes through.
-/

namespace HearingRelay.Scenario

structure Settings where
  maxDeliveries : Nat := 3
  deployment : String := "local"
  timeout : Time.Span := .ofMillis 5000
  visibilitySeconds : Nat := 30
  batch : Nat := 10
  scheduler : SchedulerSettings
deriving Repr, Inhabited

namespace Settings

def dispatching (s : Settings) : DispatchSettings := ⟨s.maxDeliveries, s.deployment, s.timeout⟩

/-- The one consumer that a scenario has of each queue. -/
def consumer (s : Settings) (queue : String) : Consumer := ⟨queue, 0, s.visibilitySeconds⟩

end Settings

inductive Answer where
  | nothing
  | time (ms : Int)
  | count (n : Nat)
  | rowId (id : Int)
  | flag (b : Bool)
  | text (s : String)
  | request (r : Option PendingRequest)
  | requests (rs : List PendingRequest)
  | disposition (d : Disposition)
  | response (r : HearingResponse)
  /-- Messages polled, each with the name of its receipt. -/
  | polled (messages : List (String × Leased))
  | metrics (m : QueueMetrics)
  | deadLetters (letters : List (DeadLetter × Envelope))
  | redriven (outcome : RedriveOutcome)
  | summary (s : RunSummary)
  | stopped
  | started (starts : List Bool) (running runningAfter : Bool)
  | storeFailed (e : StoreError)
  | queueFailed (e : QueueError)
  | dispatchFailed (e : DispatchError)
  | schedulerFailed (e : StoreError)
  /-- A date left its range. -/
  | dateOutOfRange
  /-- The tables do not take what was to be planted. -/
  | conflict

structure Session where
  settings : Settings
  world : World
  script : List Reply
  faults : List (Method × Fault)
  /-- The messages that the script polled; the receipt of the first is `r1`. -/
  polled : List Leased
  /-- The answers of the steps inside of calls, by the number of the call. -/
  nested : List (Nat × List Answer)
  /-- Whether a worker runs that a step may shut down. -/
  workerRuns : Bool
  /-- Whether an empty poll shuts down the worker that runs. -/
  awaitsEmptyPoll : Bool
  /-- Whether a poll came back empty that no worker was waiting for. -/
  emptyPollLeft : Bool
  schedulerRuns : Bool

namespace Session

def startTime : Int := 1700000000000

def start (settings : Settings) (script : List Reply) : Session :=
  ⟨settings, World.empty startTime, script, [], [], [], false, false, false, false⟩

def takeFault (s : Session) (m : Method) : Session × Fault :=
  match s.faults.find? (·.1 == m) with
  | none => (s, .passes)
  | some entry => ({ s with faults := s.faults.erase entry }, entry.2)

def inWorld {α : Type} (s : Session) (f : World → World × α) : Session × α :=
  let changed := f s.world
  ({ s with world := changed.1 }, changed.2)

def injected (m : Method) : StoreError := .corruptRow 0 (.other ("injected " ++ m.name))

def refusal? : (c : StoreCall) → Option c.Answer
  | .markProcessing .. => some false
  | .markCompleted .. => some false
  | .markException .. => some false
  | .markPendingWithRetry .. => some false
  | .requeueException .. => some false
  | .create .. | .claim .. | .rowsOfHearing .. | .escalationCandidates .. => none
  | .markForEscalation .. | .deleteCompleted .. | .reclaimStuck .. => none

def store (s : Session) (c : StoreCall) : Session × Except StoreError c.Answer :=
  match s.takeFault (.ofCall c) with
  | (s, .fails) => (s, .error (injected (.ofCall c)))
  | (s, .refuses) =>
    match refusal? c with
    | some answer => (s, .ok answer)
    | none => s.inWorld (·.store c)
  | (s, .passes) => s.inWorld (·.store c)

/-- A call of the queues by the relay. Any laid-down failure fails it. -/
def guarded {α : Type} (s : Session) (m : Method) (e : QueueError)
    (f : Session → Session × Except QueueError α) : Session × Except QueueError α :=
  match s.takeFault m with
  | (s, .passes) => f s
  | (s, _) => (s, .error e)

/-- The service's next answer; when none is left, it accepts. -/
def nextReply (s : Session) : Session × Reply :=
  match s.script with
  | [] => (s, .plain (some (.ok ⟨200, none⟩)))
  | reply :: rest => ({ s with script := rest }, reply)

/-- A call of the service. The steps inside of its answer are taken by `nested`. -/
def send (nested : List Step → Session → Session × List Answer) (s : Session)
    (call : DownstreamCall) : Session × Option CallResult :=
  let number := s.world.calls.length
  let (s, _) := s.inWorld fun w => ({ w with calls := w.calls ++ [call] }, ())
  match s.nextReply with
  | (s, .plain result) => (s, result)
  | (s, .during steps result) =>
    let (s, answers) := nested steps s
    ({ s with nested := s.nested ++ [(number, answers)] }, result)

/-- An empty poll ends the run that waits for one, or is kept for the next. -/
def noteEmptyPoll (s : Session) : Session :=
  if s.awaitsEmptyPoll then { s with world.shutdown := true, awaitsEmptyPoll := false }
  else { s with emptyPollLeft := true }

/-- An empty poll that was kept ends a run that waits, though not before the
poll that is about to be made. -/
def collectEmptyPoll (s : Session) : Session :=
  if s.awaitsEmptyPoll && s.emptyPollLeft then
    { s with world.shutdown := true, awaitsEmptyPoll := false, emptyPollLeft := false }
  else s

def workerPoll (s : Session) (limit : Nat) : Session × Except QueueError (List Leased) :=
  let polled := s.inWorld (·.poll s.settings.visibilitySeconds limit)
  match polled.2 with
  | .ok [] => (polled.1.noteEmptyPoll, polled.2)
  | _ => polled

def handle (nested : List Step → Session → Session × List Answer) :
    Handler Request.Answer Session
  | .store call, s => s.store call
  | .send call, s => s.send nested call
  | .publish hearing report, s =>
    s.guarded .publish .stopped (·.inWorld (·.publish hearing report))
  | .poll limit, s =>
    s.collectEmptyPoll.guarded .poll (.leaseLost (.foreign "injected poll")) (·.workerPoll limit)
  | .settle leased disposition, s =>
    s.guarded .settle (.leaseLost (.foreign "injected settle"))
      (·.inWorld (·.settle leased disposition))
  | .clock, s => (s, Time.Instant.ofMillis s.world.now)
  | .shutdownSignal, s => (s, s.world.shutdown)
  | .pause, s => (s, s.world.shutdown)

def nameOf (index : Nat) : String := "r" ++ Text.writeNat (index + 1)

def leasedNamed? (s : Session) (name : String) : Option Leased :=
  (s.polled.zipIdx.find? fun p => nameOf p.2 == name).map (·.1)

/-- The receipt of the given name. Any other name is a receipt of nobody. -/
def receiptNamed (s : Session) (name : String) : Receipt :=
  match s.leasedNamed? name with
  | some m => m.receipt
  | none => .foreign name

/-- The message whose receipt has the given name, and the count of its
deliveries. Behind any other name stands a message without properties. -/
def messageNamed (s : Session) (name : String) : Envelope × Nat :=
  match s.leasedNamed? name with
  | some m => (m.envelope, m.deliveryCount)
  | none => (⟨"", Properties.empty, "\x7b\x7d"⟩, 1)

def nameOfReceipt? (s : Session) (receipt : Receipt) : Option String :=
  (s.polled.zipIdx.find? (·.1.receipt == receipt)).map fun p => nameOf p.2

end Session

end HearingRelay.Scenario
