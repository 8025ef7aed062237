import HearingRelay.Config.Basic
import HearingRelay.Text.Digits

/-!
Settings in the environment. Each of some settings has a variable of its own,
which goes before the file; a variable whose value does not suit the type of
its setting is passed over.
-/

namespace HearingRelay

abbrev Environment := String → Option String

namespace Config

structure Variable where
  name : String
  /-- Takes up the value of the variable, if it suits the setting. -/
  take : Config → String → Config

/-- A variable whose value is read first. -/
def variableFor {α : Type} (name : String) (read : String → Option α) (set : Config → α → Config) :
    Variable :=
  ⟨name, fun c text => match read text with
    | some a => set c a
    | none => c⟩

def textOf (s : String) : Option String := some s

def countOf (high : Nat) (s : String) : Option Nat := Text.readUnsignedUpTo? high s.toList

def boolOf (s : String) : Option Bool :=
  if s = "true" then some true else if s = "false" then some false else none

def overrides : List Variable := [
  variableFor "HS_DEPLOYMENT_ID" textOf fun c v => { c with deploymentId := v },
  variableFor "HS_DATABASE_URL" textOf fun c v => { c with database.url := v },
  variableFor "HS_DATABASE_MAX_CONNECTIONS" (countOf Bounds.maxUInt32)
    fun c v => { c with database.maxConnections := v },
  variableFor "HS_QUEUE_TYPE" textOf fun c v => { c with queue.kind := v },
  variableFor "HS_QUEUE_INBOUND" textOf fun c v => { c with queue.inbound := v },
  variableFor "HS_QUEUE_OUTBOUND" textOf fun c v => { c with queue.outbound := v },
  variableFor "HS_QUEUE_DEAD_LETTER" textOf fun c v => { c with queue.deadLetter := v },
  variableFor "HS_QUEUE_REGION" textOf fun c v => { c with queue.region := v },
  variableFor "HS_QUEUE_WORKERS" (countOf Bounds.maxUInt64)
    fun c v => { c with queue.workers := v },
  variableFor "HS_MAX_DELIVERY_COUNT" (countOf Bounds.maxUInt32)
    fun c v => { c with queue.maxDeliveryCount := v },
  variableFor "HS_DOWNSTREAM_BASE_URL" textOf fun c v => { c with downstream.baseUrl := v },
  variableFor "HS_DOWNSTREAM_TOKEN_URL" textOf fun c v => { c with downstream.tokenUrl := v },
  variableFor "HS_DOWNSTREAM_CLIENT_ID" textOf fun c v => { c with downstream.clientId := v },
  variableFor "HS_DOWNSTREAM_CLIENT_SECRET" textOf
    fun c v => { c with downstream.clientSecret := v },
  variableFor "HS_DOWNSTREAM_SCOPE" textOf fun c v => { c with downstream.scope := v },
  variableFor "HS_DOWNSTREAM_TIMEOUT_SECS" (countOf Bounds.maxUInt64)
    fun c v => { c with downstream.timeoutSecs := v },
  variableFor "HS_PENDING_WAIT_INTERVAL_MINUTES" (countOf Bounds.maxUInt64)
    fun c v => { c with pending.pendingWaitIntervalMinutes := v },
  variableFor "HS_ESCALATION_WAIT_INTERVAL_DAYS" (countOf Bounds.maxUInt64)
    fun c v => { c with pending.escalationWaitIntervalDays := v },
  variableFor "HS_DELETION_WAIT_INTERVAL_DAYS" (countOf Bounds.maxUInt64)
    fun c v => { c with pending.deletionWaitIntervalDays := v },
  variableFor "HS_EXCEPTION_LIMIT_IN_HOURS" (countOf Bounds.maxUInt64)
    fun c v => { c with pending.exceptionLimitInHours := v },
  variableFor "HS_PROCESSING_RECLAIM_MINUTES" (countOf Bounds.maxUInt64)
    fun c v => { c with pending.processingReclaimMinutes := v },
  variableFor "HS_SCHEDULER_ENABLED" boolOf fun c v => { c with scheduler.enabled := v },
  variableFor "HS_SCHEDULER_RUN_INTERVAL_SECS" (countOf Bounds.maxUInt64)
    fun c v => { c with scheduler.runIntervalSecs := v }]

def Variable.apply (v : Variable) (env : Environment) (c : Config) : Config :=
  match env v.name with
  | some text => v.take c text
  | none => c

def overriddenBy (c : Config) (env : Environment) : Config :=
  overrides.foldl (fun c v => v.apply env c) c

end Config

end HearingRelay
