import HearingRelay.Json.Parser
import HearingRelay.Json.Printer
import HearingRelay.Json.Record
import HearingRelay.Time.Rfc3339
import HearingRelay.Message.SyncResponse
import HearingRelay.Message.RoutingKey
import HearingRelay.Ledger.Call
import HearingRelay.Worker
import HearingRelay.Scheduler.Run
import HearingRelay.World
import HearingRelay.Scenario.Run
import HearingRelay.Toml.Parser
import HearingRelay.Config.Load
import HearingRelay.Config.Scheduling
import HearingRelay.Config.Working
import HearingRelay.Http.Url
import HearingRelay.Downstream.Client
import HearingRelay.Main
import HearingRelay.Proofs.Ledger.RowStep
import HearingRelay.Proofs.Ledger.WellFormed
import HearingRelay.Proofs.Ledger.Order
import HearingRelay.Proofs.Ledger.Reading
import HearingRelay.Proofs.Queue.Leases
import HearingRelay.Proofs.Relay.Lookup
import HearingRelay.Proofs.Relay.Observation
import HearingRelay.Proofs.Relay.Course
import HearingRelay.Proofs.Relay.Balance
import HearingRelay.Proofs.Relay.Rounds
import HearingRelay.Proofs.Relay.Settlement
import HearingRelay.Proofs.Relay.Turns
import HearingRelay.Proofs.Relay.Repetition
import HearingRelay.Proofs.Relay.Agreement
import HearingRelay.Proofs.Relay.Protocol
import HearingRelay.Proofs.Relay.Interleaving
import HearingRelay.Proofs.Relay.Exclusion
import HearingRelay.Proofs.Relay.Rivals
import HearingRelay.Proofs.Relay.StoreFaults
import HearingRelay.Proofs.Ledger.LifeCycle
import HearingRelay.Proofs.Queue.Conservation
import HearingRelay.Proofs.Relay.OpenRows
import HearingRelay.Proofs.Queue.Batch
import HearingRelay.Proofs.Relay.Redelivery
import HearingRelay.Proofs.Ledger.LastTry
import HearingRelay.Proofs.Ledger.Legible
import HearingRelay.Proofs.Ledger.Progress
import HearingRelay.Proofs.Relay.Validation
import HearingRelay.Proofs.Json.RoundTrip
import HearingRelay.Proofs.Message.Written
import HearingRelay.Proofs.Queue.Receipts
import HearingRelay.Proofs.Ledger.Claim
import HearingRelay.Proofs.Queue.Unreadable
import HearingRelay.Proofs.Relay.Redriving
import HearingRelay.Proofs.Relay.Idempotence
import HearingRelay.Proofs.Except
import HearingRelay.Proofs.Queue.Polling
import HearingRelay.Proofs.Json.Literals
import HearingRelay.Proofs.Message.Reports
import HearingRelay.Proofs.Json.Consumption
import HearingRelay.Proofs.Json.Derivation
import HearingRelay.Proofs.Json.Documents
import HearingRelay.Proofs.Downstream.Refusals
import HearingRelay.Proofs.Relay.Reporting
import HearingRelay.Proofs.Relay.Surfacing
import HearingRelay.Proofs.Decimal.Rounding
import HearingRelay.Proofs.Decimal.Digits
import HearingRelay.Proofs.Json.Numbers
import HearingRelay.Proofs.Json.Canonical
import HearingRelay.Proofs.Json.Sameness
import HearingRelay.Proofs.Relay.Forwarding
import HearingRelay.Proofs.Config.Windows
import HearingRelay.Proofs.Ledger.Elapsed
import HearingRelay.Proofs.Relay.Handling
import HearingRelay.Proofs.Ledger.Untried
import HearingRelay.Proofs.Relay.Draining
import HearingRelay.Proofs.Ledger.Upkeep
import HearingRelay.Proofs.Text.Numerals
import HearingRelay.Proofs.Message.Routing
import HearingRelay.Proofs.Queue.Isolation
import HearingRelay.Proofs.Ledger.Renumbering
import HearingRelay.Proofs.Relay.SideBySide
import HearingRelay.Proofs.Relay.Independence
import HearingRelay.Proofs.Queue.Contents
import HearingRelay.Proofs.Config.Layout
import HearingRelay.Proofs.Config.Precedence
import HearingRelay.Proofs.Relay.Escalation
import HearingRelay.Proofs.Ledger.Identity
import HearingRelay.Proofs.Ledger.Columns
import HearingRelay.Proofs.Ledger.Answers
