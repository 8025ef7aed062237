import HearingRelay.Scheduler.Run
import HearingRelay.Queue.Basic
import HearingRelay.Downstream.Error

/-!
Scenarios: scripts of steps that one relay takes. A script moves the clock,
plants raw rows and messages, makes single calls fail, and lays down how the
scheduling service answers; steps may stand inside of an answer, and are then
taken while the call is under way.
-/

namespace HearingRelay.Scenario

inductive Method where
  | create
  | claim
  | markProcessing
  | markCompleted
  | markException
  | markPendingWithRetry
  | requeueException
  | rowsOfHearing
  | escalationCandidates
  | markForEscalation
  | deleteCompleted
  | reclaimStuck
  | publish
  | poll
  | settle
deriving DecidableEq, Repr

namespace Method

def name : Method → String
  | create => "create"
  | claim => "claim"
  | markProcessing => "mark_processing"
  | markCompleted => "mark_completed"
  | markException => "mark_exception"
  | markPendingWithRetry => "mark_pending_with_retry"
  | requeueException => "requeue_exception"
  | rowsOfHearing => "find_by_hearing_id_locked"
  | escalationCandidates => "find_for_escalation"
  | markForEscalation => "mark_for_escalation"
  | deleteCompleted => "delete_completed_older_than"
  | reclaimStuck => "reclaim_stuck_processing"
  | publish => "publish"
  | poll => "poll"
  | settle => "settle"

def all : List Method :=
  [create, claim, markProcessing, markCompleted, markException, markPendingWithRetry,
    requeueException, rowsOfHearing, escalationCandidates, markForEscalation, deleteCompleted,
    reclaimStuck, publish, poll, settle]

def ofName? (s : String) : Option Method := all.find? (·.name == s)

def ofCall : StoreCall → Method
  | .create .. => create
  | .claim .. => claim
  | .markProcessing .. => markProcessing
  | .markCompleted .. => markCompleted
  | .markException .. => markException
  | .markPendingWithRetry .. => markPendingWithRetry
  | .requeueException .. => requeueException
  | .rowsOfHearing .. => rowsOfHearing
  | .escalationCandidates .. => escalationCandidates
  | .markForEscalation .. => markForEscalation
  | .deleteCompleted .. => deleteCompleted
  | .reclaimStuck .. => reclaimStuck

end Method

inductive Fault where
  | fails
  /-- A conditional change is refused. Other calls go through. -/
  | refuses
  | passes
deriving DecidableEq, Repr

/-- A row to plant. Without an identifier it gets the next one, and without a
submission time that of the clock. -/
structure RowSeed where
  id : Option Int
  hearing : Int
  eventType : String
  version : Int
  message : String
  status : String
  submitted : Option Int
  lastTried : Option Int
  retryCount : Int
  incident : Bool
  deployment : Option String
deriving Repr

structure MessageSeed where
  queue : String
  id : String
  payload : String
  visibleAt : Option Int
  createdAt : Option Int
  receiveCount : Int
deriving Repr

inductive ShutdownMode where
  /-- Before it starts, or in a way that counts as such. -/
  | before
  /-- When a poll comes back empty. -/
  | whenIdle
  /-- By a step only. -/
  | byStep
deriving DecidableEq, Repr

mutual

inductive Step where
  | advance (ms : Int)
  | setClock (ms : Int)
  | respond (replies : List Reply)
  | fail (method : Method) (faults : List Fault)
  | seedRow (seed : RowSeed)
  | seedMessage (seed : MessageSeed)
  | store (call : StoreCall)
  | findById (id : Int)
  | findLatest (hearing : Int)
  | dispatch (e : Envelope) (deliveryCount : Nat)
  | dispatchLeased (receipt : String)
  | deliver (hearing : Int) (eventType : EventType) (payload : String)
  | publish (queue : String) (e : Envelope)
  | poll (queue : String) (limit : Nat)
  | complete (queue receipt : String)
  | abandon (queue receipt : String) (delaySeconds : Nat)
  | settle (queue receipt : String) (disposition : Disposition)
  | stop (queue : String)
  | isHealthy (queue : String)
  | metrics (queue : String)
  | deadLetters (queue : String)
  | workerOnce
  | workerRun (mode : ShutdownMode)
  | shutdown
  | redrive
  | escalate
  | deleteCompleted
  | reclaim
  | schedulerRun
  | schedulerStart (starts : Nat)

inductive Reply where
  | plain (result : Option CallResult)
  | during (steps : List Step) (result : Option CallResult)

end

mutual

/-- The number of answers that a step lays down, those inside of them included. -/
def Step.replyCount : Step → Nat
  | .respond replies => replyCountOf replies
  | _ => 0

def replyCountOf : List Reply → Nat
  | [] => 0
  | .plain _ :: rest => replyCountOf rest + 1
  | .during steps _ :: rest => stepReplyCount steps + replyCountOf rest + 1

def stepReplyCount : List Step → Nat
  | [] => 0
  | s :: rest => s.replyCount + stepReplyCount rest

end

end HearingRelay.Scenario
