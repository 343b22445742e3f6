import Flowgraph.Api.Service
import Flowgraph.Background
import Flowgraph.Command.Script
import Flowgraph.Database.Pool
import Flowgraph.Database.Reply
import Flowgraph.Main
import Flowgraph.Proofs.Action.Asks
import Flowgraph.Proofs.Action.History
import Flowgraph.Proofs.Action.Perform
import Flowgraph.Proofs.Action.Underway
import Flowgraph.Proofs.Api.Integrity
import Flowgraph.Proofs.Api.Isolation
import Flowgraph.Proofs.Api.Refusals
import Flowgraph.Proofs.Binding.Required
import Flowgraph.Proofs.Code.Agreement
import Flowgraph.Proofs.Code.Capture
import Flowgraph.Proofs.Code.Lines
import Flowgraph.Proofs.Code.Literals
import Flowgraph.Proofs.Code.Reading
import Flowgraph.Proofs.Database.Memory
import Flowgraph.Proofs.Executor.Alone
import Flowgraph.Proofs.Executor.Audit
import Flowgraph.Proofs.Executor.Boundaries
import Flowgraph.Proofs.Executor.Cancellation
import Flowgraph.Proofs.Executor.Closing
import Flowgraph.Proofs.Executor.Crew
import Flowgraph.Proofs.Executor.Crowd
import Flowgraph.Proofs.Executor.Dataflow
import Flowgraph.Proofs.Executor.Discipline
import Flowgraph.Proofs.Executor.Dispatch
import Flowgraph.Proofs.Executor.Drive
import Flowgraph.Proofs.Executor.Driven
import Flowgraph.Proofs.Executor.Failures
import Flowgraph.Proofs.Executor.Faults
import Flowgraph.Proofs.Executor.Filing
import Flowgraph.Proofs.Executor.Lifecycle
import Flowgraph.Proofs.Executor.Numbered
import Flowgraph.Proofs.Executor.Protocol
import Flowgraph.Proofs.Executor.Seclusion
import Flowgraph.Proofs.Executor.Served
import Flowgraph.Proofs.Executor.Stage
import Flowgraph.Proofs.Executor.Trail
import Flowgraph.Proofs.Executor.Views
import Flowgraph.Proofs.Graph.Ancestors
import Flowgraph.Proofs.Graph.Edges
import Flowgraph.Proofs.Graph.Encoding
import Flowgraph.Proofs.Graph.Staging
import Flowgraph.Proofs.Program.Arranged
import Flowgraph.Proofs.Program.Slots
import Flowgraph.Proofs.Redaction.Conceal
import Flowgraph.Proofs.Redaction.Idempotent
import Flowgraph.Proofs.Redaction.Keys
import Flowgraph.Proofs.Redaction.Secrecy
import Flowgraph.Proofs.Redaction.Tokens
import Flowgraph.Proofs.Run.Machine
import Flowgraph.Proofs.Run.Results
import Flowgraph.Proofs.Run.Statuses
import Flowgraph.Proofs.Store.Deletion
import Flowgraph.Proofs.Store.Evolution
import Flowgraph.Proofs.Store.Logs
import Flowgraph.Proofs.Store.Rows
import Flowgraph.Proofs.Store.Shared
import Flowgraph.Proofs.Store.Trace
import Flowgraph.Proofs.Template.Parsing
import Flowgraph.Proofs.Tracker.Attempts
import Flowgraph.Proofs.Tracker.Backoff
import Flowgraph.Proofs.Tracker.Calls
import Flowgraph.Proofs.Tracker.Completion
import Flowgraph.Proofs.Tracker.Latest
import Flowgraph.Proofs.Tracker.Readers
import Flowgraph.Proofs.Tracker.Replies
import Flowgraph.Step.Description
import Flowgraph.Store.Codec
