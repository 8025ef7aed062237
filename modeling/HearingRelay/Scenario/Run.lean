import HearingRelay.Scenario.Session

/-!
Taking the steps of a scenario. Each step has one answer; what it left behind
is read off the session. Steps inside of calls are taken by the same function,
to a depth that the number of laid-down answers bounds.
-/

namespace HearingRelay.Scenario

namespace Answer

def ofStore : (c : StoreCall) → c.Answer → Answer
  | .create .., r => .request (some r)
  | .claim .., r => .request r
  | .markProcessing .., b => .flag b
  | .markCompleted .., b => .flag b
  | .markException .., b => .flag b
  | .markPendingWithRetry .., b => .flag b
  | .requeueException .., b => .flag b
  | .rowsOfHearing .., rs => .requests rs
  | .escalationCandidates .., rs => .requests rs
  | .markForEscalation .., n => .count n
  | .deleteCompleted .., n => .count n
  | .reclaimStuck .., n => .count n

def ofExcept {ε α : Type} (failed : ε → Answer) (done : α → Answer) : Except ε α → Answer
  | .ok a => done a
  | .error e => failed e

def ofScheduler {α : Type} (done : α → Answer) : Except SchedulerError α → Answer
  | .ok a => done a
  | .error (.store e) => .schedulerFailed e
  | .error .limitOutOfRange => .dateOutOfRange

end Answer

namespace Session

def seedRow (s : Session) (seed : RowSeed) : Session × Answer :=
  let row : Row := {
    id := seed.id.getD (s.world.ledger.lastId + 1), hearing := seed.hearing,
    eventType := seed.eventType, version := seed.version, message := seed.message,
    status := seed.status, submitted := seed.submitted.getD s.world.now,
    lastTried := seed.lastTried, retryCount := seed.retryCount, incident := seed.incident,
    deployment := seed.deployment }
  match s.world.ledger.load? row with
  | some ledger => ({ s with world.ledger := ledger }, .rowId row.id)
  | none => (s, .conflict)

def seedMessage (s : Session) (seed : MessageSeed) : Session × Answer :=
  let m : Queued :=
    ⟨seed.queue, seed.id, seed.payload, none, seed.visibleAt.getD s.world.now,
      seed.createdAt.getD s.world.now, seed.receiveCount⟩
  match s.world.broker.load? m with
  | some broker => ({ s with world.broker := broker }, .nothing)
  | none => (s, .conflict)

def inBroker {α : Type} (s : Session) (f : Broker → Broker × α) : Session × α :=
  s.inWorld fun w =>
    let changed := f w.broker
    ({ w with broker := changed.1 }, changed.2)

def scriptPoll (s : Session) (queue : String) (limit : Nat) : Session × Answer :=
  match s.inBroker (·.poll (s.settings.consumer queue) s.world.now limit) with
  | (s, .error e) => (s, .queueFailed e)
  | (s, .ok messages) =>
    let names := (List.range messages.length).map fun i => nameOf (s.polled.length + i)
    ({ s with polled := s.polled ++ messages }, .polled (names.zip messages))

/-- Settles under a receipt given by name. A failure names what was given. -/
def settleNamed (s : Session) (name : String)
    (f : Broker → Receipt → Broker × Except QueueError Unit) : Session × Answer :=
  match s.inBroker (f · (s.receiptNamed name)) with
  | (s, .ok ()) => (s, .nothing)
  | (s, .error (.leaseLost _)) => (s, .queueFailed (.leaseLost (.foreign name)))
  | (s, .error e) => (s, .queueFailed e)

def maxRounds : Nat := 1000000

def runWorker (nested : List Step → Session → Session × List Answer) (s : Session)
    (mode : ShutdownMode) : Session :=
  let before := (s.workerRuns, s.awaitsEmptyPoll, s.world.shutdown)
  let s := { s with workerRuns := true, awaitsEmptyPoll := mode == .whenIdle,
                    world.shutdown := mode == .before }
  let (s, _) := (Worker.run s.settings.dispatching s.settings.batch maxRounds).run (handle nested) s
  { s with workerRuns := before.1, awaitsEmptyPoll := before.2.1, world.shutdown := before.2.2 }

/-- Starts the scheduler, waits for its first run and shuts it down. Only the
first start of one that does not run and may run does anything. A run that is
cut short leaves the mark that it runs. -/
def startScheduler (nested : List Step → Session → Session × List Answer) (s : Session)
    (starts : Nat) : Session × Answer :=
  if s.schedulerRuns || !s.settings.scheduler.enabled || starts = 0 then
    (s, .started (List.replicate starts false) s.schedulerRuns s.schedulerRuns)
  else
    let flags := true :: List.replicate (starts - 1) false
    let (s, summary) := (Scheduler.runOnce s.settings.scheduler s.settings.timeout).run
      (handle nested) { s with schedulerRuns := true }
    match summary with
    | some _ => ({ s with schedulerRuns := false }, .started flags true false)
    | none => (s, .started flags true true)

def perform (nested : List Step → Session → Session × List Answer) (s : Session) :
    Step → Session × Answer
  | .advance ms =>
    ({ s with world.now := s.world.now + ms }, .time (s.world.now + ms))
  | .setClock ms => ({ s with world.now := ms }, .time ms)
  | .respond replies =>
    ({ s with script := s.script ++ replies }, .count (s.script.length + replies.length))
  | .fail method faults =>
    ({ s with faults := s.faults ++ faults.map fun f => (method, f) }, .nothing)
  | .seedRow seed => s.seedRow seed
  | .seedMessage seed => s.seedMessage seed
  | .store call =>
    let (s, result) := s.store call
    (s, .ofExcept .storeFailed (.ofStore call) result)
  | .findById id => (s, .ofExcept .storeFailed .request (s.world.ledger.findById id))
  | .findLatest hearing => (s, .ofExcept .storeFailed .request (s.world.ledger.findLatest hearing))
  | .dispatch e deliveryCount =>
    let (s, d) := (HearingRelay.dispatch s.settings.dispatching e deliveryCount).run
      (handle nested) s
    (s, .disposition d)
  | .dispatchLeased name =>
    let m := s.messageNamed name
    let (s, d) := (HearingRelay.dispatch s.settings.dispatching m.1 m.2).run (handle nested) s
    (s, .disposition d)
  | .deliver hearing eventType payload =>
    let (s, result) := (Delivery.deliver s.settings.timeout hearing eventType payload).run
      (handle nested) s
    (s, .ofExcept .dispatchFailed .response result)
  | .publish queue e =>
    s.inBroker fun b => (b.publish queue s.world.now e, .text e.id)
  | .poll queue limit => s.scriptPoll queue limit
  | .complete queue name => s.settleNamed name fun b r => b.complete queue r
  | .abandon queue name delay =>
    s.settleNamed name fun b r => b.abandon queue s.world.now r delay
  | .settle queue name disposition =>
    s.settleNamed name fun b r => b.settle queue s.world.now r disposition
  | .stop queue =>
    let q := s.settings.consumer queue
    s.inBroker fun b => (b.stop q, .flag ((b.stop q).isHealthy q))
  | .isHealthy queue => (s, .flag (s.world.broker.isHealthy (s.settings.consumer queue)))
  | .metrics queue => (s, .metrics (s.world.broker.metrics queue s.world.now))
  | .deadLetters queue =>
    (s, .ofExcept .queueFailed .deadLetters (s.world.broker.readDeadLetters queue))
  | .workerOnce =>
    let (s, result) := (Worker.runOnce s.settings.dispatching s.settings.batch).run
      (handle nested) s
    (s, .ofExcept .queueFailed .count result)
  | .workerRun mode => (s.runWorker nested mode, .stopped)
  | .shutdown =>
    if s.workerRuns then ({ s with world.shutdown := true }, .flag true) else (s, .nothing)
  | .redrive =>
    let (s, result) := (redriveNext s.settings.scheduler s.settings.timeout).run (handle nested) s
    (s, .ofScheduler .redriven result)
  | .escalate =>
    let (s, result) := (Housekeeping.escalate s.settings.scheduler).run (handle nested) s
    (s, .ofExcept .schedulerFailed .count result)
  | .deleteCompleted =>
    let (s, result) := (Housekeeping.deleteCompleted s.settings.scheduler).run (handle nested) s
    (s, .ofExcept .schedulerFailed .count result)
  | .reclaim =>
    let (s, result) := (Housekeeping.reclaimStuck s.settings.scheduler).run (handle nested) s
    (s, .ofExcept .schedulerFailed .count result)
  | .schedulerRun =>
    let (s, summary) := (Scheduler.runOnce s.settings.scheduler s.settings.timeout).run
      (handle nested) s
    (s, match summary with
      | some summary => .summary summary
      | none => .dateOutOfRange)
  | .schedulerStart starts => s.startScheduler nested starts

/-- Takes steps in order, and those inside of calls up to the given depth. -/
def performAll : Nat → List Step → Session → Session × List Answer
  | 0, _, s => (s, [])
  | depth + 1, steps, s =>
    steps.foldl (fun (s, answers) step =>
      let (s, answer) := s.perform (performAll depth) step
      (s, answers ++ [answer])) (s, [])

end Session

structure CallRecord where
  call : DownstreamCall
  during : Option (List Answer)

/-- A live message as a scenario shows it: its receipt by name, or `none` for
one that the script has not seen. -/
structure QueueEntry where
  queue : String
  id : String
  receipt : Option (Option String)
  visibleAt : Int
  createdAt : Int
  receiveCount : Int
deriving DecidableEq

/-- What a step answered and left behind. Tables are shown when they changed. -/
structure StepRecord where
  answer : Answer
  calls : List CallRecord
  reports : List Envelope
  ledger : Option (List Row)
  queues : Option (List QueueEntry)

namespace Session

def queueEntries (s : Session) : List QueueEntry :=
  let before := fun a b : Queued =>
    a.queue < b.queue || (a.queue == b.queue && a.createdAt ≤ b.createdAt)
  (Sorting.sort before s.world.broker.messages).map fun m =>
    ⟨m.queue, m.id, m.receipt.map s.nameOfReceipt?, m.visibleAt, m.createdAt, m.receiveCount⟩

def callsFrom (s : Session) (number : Nat) : List CallRecord :=
  ((s.world.calls.zipIdx).drop number).map fun p =>
    ⟨p.1, (s.nested.find? (·.1 == p.2)).map (·.2)⟩

def ifChanged {α : Type} [DecidableEq α] (shown current : α) : Option α :=
  if shown = current then none else some current

def recordAll (depth : Nat) : List Step → Session → List Row → List QueueEntry → List StepRecord
  | [], _, _, _ => []
  | step :: rest, s, rows, entries =>
    let calls := s.world.calls.length
    let reports := s.world.reports.length
    let (s, answer) := s.perform (performAll depth) step
    { answer, calls := s.callsFrom calls, reports := s.world.reports.drop reports,
      ledger := ifChanged rows s.world.ledger.rows,
      queues := ifChanged entries s.queueEntries } ::
      recordAll depth rest s s.world.ledger.rows s.queueEntries

end Session

def play (settings : Settings) (script : List Reply) (steps : List Step) : List StepRecord :=
  Session.recordAll (replyCountOf script + stepReplyCount steps) steps
    (Session.start settings script) [] []

end HearingRelay.Scenario
