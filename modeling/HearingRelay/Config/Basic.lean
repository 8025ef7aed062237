import HearingRelay.Time.Span
import HearingRelay.Text.Blank
import HearingRelay.Bounds

/-!
The settings of the relay, in six parts with defaults for everything, and the
rules that they must meet to be used. The windows of the ledger are given in
minutes, hours and days; a window that is too long for a count of seconds has
no span.
-/

namespace HearingRelay

namespace Config

structure Database where
  url : String := "sqlite://./data/hearing-sync.db?mode=rwc"
  maxConnections : Nat := 5
deriving DecidableEq, Repr

structure Queue where
  kind : String := "embedded"
  inbound : String := "hearings-inbound"
  outbound : String := "hearings-outbound"
  deadLetter : String := "hearings-inbound-dlq"
  visibilityTimeoutSecs : Nat := 120
  pollBatchSize : Nat := 10
  pollIntervalMs : Nat := 1000
  workers : Nat := 2
  maxDeliveryCount : Nat := 3
  region : String := "eu-west-2"
deriving DecidableEq, Repr

structure Downstream where
  baseUrl : String := "http://localhost:4550"
  tokenUrl : String := "http://localhost:4550/oauth2/token"
  clientId : String := ""
  clientSecret : String := ""
  scope : String := ""
  timeoutSecs : Nat := 30
  connectTimeoutSecs : Nat := 10
deriving DecidableEq, Repr

structure Pending where
  pendingWaitIntervalMinutes : Nat := 15
  escalationWaitIntervalDays : Nat := 1
  deletionWaitIntervalDays : Nat := 30
  exceptionLimitInHours : Nat := 4
  processingReclaimMinutes : Nat := 30
deriving DecidableEq, Repr

structure Scheduling where
  enabled : Bool := true
  runIntervalSecs : Nat := 120
deriving DecidableEq, Repr

end Config

structure Config where
  deploymentId : String := "local"
  database : Config.Database := {}
  queue : Config.Queue := {}
  downstream : Config.Downstream := {}
  pending : Config.Pending := {}
  scheduler : Config.Scheduling := {}
deriving DecidableEq, Repr

namespace Config

/-- A number of seconds, if 64 bits hold it. -/
def secondsWithin? (n : Nat) : Option Time.Span :=
  if n ≤ Bounds.maxUInt64 then some (.ofSeconds n) else none

def minute : Nat := 60
def hour : Nat := 60 * minute
def day : Nat := 24 * hour

namespace Pending

def wait? (p : Pending) : Option Time.Span := secondsWithin? (p.pendingWaitIntervalMinutes * minute)

def escalationWait? (p : Pending) : Option Time.Span :=
  secondsWithin? (p.escalationWaitIntervalDays * day)

def deletionWait? (p : Pending) : Option Time.Span :=
  secondsWithin? (p.deletionWaitIntervalDays * day)

def exceptionLimit? (p : Pending) : Option Time.Span :=
  secondsWithin? (p.exceptionLimitInHours * hour)

def processingReclaim? (p : Pending) : Option Time.Span :=
  secondsWithin? (p.processingReclaimMinutes * minute)

end Pending

inductive Violation where
  | baseUrlMissing
  | noWorkers
  | noDeliveries
  | noTimeout
  | noRunInterval
  | emptyWindow
deriving DecidableEq, Repr

def Violation.message : Violation → String
  | .baseUrlMissing => "downstream.base_url must be set"
  | .noWorkers => "queue.workers must be at least 1"
  | .noDeliveries => "queue.max_delivery_count must be at least 1"
  | .noTimeout => "downstream.timeout_secs must be greater than 0"
  | .noRunInterval => "scheduler.run_interval_secs must be greater than 0"
  | .emptyWindow => "pending request intervals must be greater than 0"

def Pending.hasEmptyWindow (p : Pending) : Bool :=
  p.pendingWaitIntervalMinutes == 0 || p.escalationWaitIntervalDays == 0 ||
  p.deletionWaitIntervalDays == 0 || p.exceptionLimitInHours == 0 ||
  p.processingReclaimMinutes == 0

def violation? (c : Config) : Option Violation :=
  if Text.IsBlankText c.downstream.baseUrl then some .baseUrlMissing
  else if c.queue.workers = 0 then some .noWorkers
  else if c.queue.maxDeliveryCount = 0 then some .noDeliveries
  else if c.downstream.timeoutSecs = 0 then some .noTimeout
  else if c.scheduler.runIntervalSecs = 0 then some .noRunInterval
  else if c.pending.hasEmptyWindow then some .emptyWindow
  else none

end Config

end HearingRelay
