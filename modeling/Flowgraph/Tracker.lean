import Flowgraph.Program
import Flowgraph.Redaction.Value
import Flowgraph.Run.State

/-! Keeping track of runs. Writing a log is best effort: a refused write is tried again after a
growing delay and then given up, and never fails the run. Snapshots are redacted when they are
written and again when they are served. -/

namespace Flowgraph

structure TrackerConfig where
  maxLogRetries : UInt32
  retryBaseDelay : Duration

def TrackerConfig.default : TrackerConfig := ⟨3, .ofMillis 50⟩

def maxRetryDelay : Duration := .seconds 30

/-- The delay before a retry doubles with every attempt, up to sixteen times. -/
def backoffDelay (base : Duration) (attempt : Nat) : Duration :=
  ((base.times? (Nat.pow 2 (min (attempt - 1) 16))).getD maxRetryDelay).min maxRetryDelay

namespace Action

/-- Goes on trying with `left` retries to come. The counter of attempts is as wide as the
budget, so a failure after the greatest budget has no number. -/
def retryFrom (config : TrackerConfig) (op : Action (Except StoreError α)) :
    (left : Nat) → Action (Except StoreError α)
  | 0 => op.bind fun
    | .ok a => .done (.ok a)
    | .error .notFound => .done (.error .notFound)
    | .error e =>
      if config.maxLogRetries.toNat + 1 = UInt32.size then .overflow else .done (.error e)
  | left + 1 => op.bind fun
    | .ok a => .done (.ok a)
    | .error .notFound => .done (.error .notFound)
    | .error _ =>
      .sleep (backoffDelay config.retryBaseDelay (config.maxLogRetries.toNat - left))
        (retryFrom config op left)

/-- No retry makes a missing row appear. -/
def withRetry (config : TrackerConfig) (op : Action (Except StoreError α)) :
    Action (Except StoreError α) :=
  retryFrom config op config.maxLogRetries.toNat

end Action

/-- What the start of an attempt gives to its end: the log row, if it could be written. -/
structure LogHandle where
  row : Option Uuid
  startedAt : Instant
  deriving DecidableEq

inductive AccessError
  | notFound
  | forbidden
  | database (e : StoreError)
  deriving DecidableEq

namespace AccessError

def message : AccessError → String
  | notFound => "execution not found"
  | forbidden => "execution belongs to another team"
  | database e => "database error: " ++ e.message

def ofStore : StoreError → AccessError
  | .notFound => notFound
  | e => database e

end AccessError

structure ExecutionLogs where
  execution : ExecutionRow
  logs : List LogRow

structure NodeStatusSummary where
  status : RunStatus
  nodes : List (String × RunStatus)

/-- The status of each node's last attempt, nodes in the order in which they first appear. -/
def latestPerNode (logs : List LogRow) : List (String × RunStatus) :=
  logs.foldl enter []
where
  enter (entries : List (String × RunStatus)) (log : LogRow) : List (String × RunStatus) :=
    if entries.any (·.1 = log.nodeId) then
      entries.map fun (id, s) => (id, if id = log.nodeId then log.status else s)
    else entries ++ [(log.nodeId, log.status)]

/-- A final row stands; until then a failed node already means an error. -/
def effectiveStatus (row : ExecutionRow) (nodes : List (String × RunStatus)) : RunStatus :=
  if row.status.isTerminal then row.status
  else if nodes.any (·.2 = .error) then .error
  else row.status

def LogRow.redact (row : LogRow) : LogRow :=
  { row with
    input := Redaction.redact row.input
    output := row.output.map Redaction.redact
    error := row.error.map Redaction.redactText }

/-- The statuses of a run, each raised to the logged one if that is further on. -/
def mergedStatuses (run : RunState) (logged : List (String × RunStatus)) : List RunStatus :=
  run.snapshot.map fun (id, s) =>
    match logged.lookup id with
    | some l => s.mostAdvanced l
    | none => s

namespace Tracker

variable (config : TrackerConfig)

def createExecution (workflow : Uuid) : Action (Except StoreError ExecutionRow) :=
  .ask (.createExecution workflow)

def logStart (execution : Uuid) (node : CompiledNode) (input : Json) : Action LogHandle := do
  let startedAt ← Action.clock
  let entry : LogEntry :=
    { execution
      nodeId := node.id
      nodeName := node.name
      nodeType := node.stepType
      input := Redaction.redact input
      startedAt }
  match ← Action.withRetry config (.ask (.insertLog entry)) with
  | .ok row => return ⟨some row.id, row.startedAt⟩
  | .error _ => return ⟨none, startedAt⟩

def completion (result : StepResult) (finishedAt : Instant) : Completion :=
  match result with
  | .success data => ⟨.success, some (Redaction.redact data), none, finishedAt⟩
  | .failure error => ⟨.error, none, some (Redaction.redactText error), finishedAt⟩

def complete (target : LogTarget) (c : Completion) : Action (Except StoreError Unit) :=
  Action.withRetry config (.ask (.completeLog target c))

/-- Completes the row of the handle, or if there is none the latest row of the node. Tells
whether the outcome was written. -/
def logComplete (execution : Uuid) (nodeId : String) (handle : LogHandle) (result : StepResult) :
    Action Bool := do
  let c := completion result (← Action.clock)
  let byRow ← match handle.row with
    | some id => complete config (.row id) c
    | none => pure (.error .notFound)
  let written ← match byRow with
    | .error .notFound => complete config (.latest execution nodeId) c
    | other => pure other
  return written.isOk

/-- Derives the status of the run from its state and its logs and writes it to its row. Until
the run has finished only `running` is written: that a row is final is how a stop is seen. -/
def refreshStatus (execution : Uuid) (run : RunState) (finished : Bool) : Action RunStatus := do
  let logged := match ← Action.ask (.listLogs execution) with
    | .ok logs => latestPerNode logs
    | .error _ => []
  let derived := RunStatus.derive (mergedStatuses run logged)
  let persisted := if finished then derived else .running
  let _ ← Action.withRetry config (.ask (.updateStatus execution persisted finished))
  return derived

/-- The status on the row, if it can be read. -/
def persistedStatus (execution : Uuid) : Action (Option RunStatus) := do
  match ← Action.ask (.getExecution execution) with
  | .ok row => return some row.status
  | .error _ => return none

def isStopped (execution : Uuid) : Action Bool := do
  return (← persistedStatus execution).any RunStatus.isTerminal

/-- The row of an execution, if the team owns its workflow. -/
def ownedExecution (execution team : Uuid) : Action (Except AccessError ExecutionRow) := do
  match ← Action.ask (.getExecution execution) with
  | .error e => return .error (.ofStore e)
  | .ok row =>
    match ← Action.ask (.workflowTeam row.workflow) with
    | .error e => return .error (.ofStore e)
    | .ok owner => return if owner = team then .ok row else .error .forbidden

/-- Ends a run with an error. Tells whether it was still open. -/
def stop (execution team : Uuid) : Action (Except AccessError Bool) := do
  match ← ownedExecution execution team with
  | .error e => return .error e
  | .ok _ =>
    match ← Action.ask (.updateStatus execution .error true) with
    | .error e => return .error (.ofStore e)
    | .ok stopped => return .ok stopped

def executionLogs (execution team : Uuid) : Action (Except AccessError ExecutionLogs) := do
  match ← ownedExecution execution team with
  | .error e => return .error e
  | .ok row =>
    match ← Action.ask (.listLogs execution) with
    | .error e => return .error (.ofStore e)
    | .ok logs =>
      let logs := logs.map LogRow.redact
      return .ok ⟨{ row with status := effectiveStatus row (latestPerNode logs) }, logs⟩

def nodeStatuses (execution team : Uuid) : Action (Except AccessError NodeStatusSummary) := do
  match ← ownedExecution execution team with
  | .error e => return .error e
  | .ok row =>
    match ← Action.ask (.listLogs execution) with
    | .error e => return .error (.ofStore e)
    | .ok logs =>
      let nodes := latestPerNode logs
      return .ok ⟨effectiveStatus row nodes, nodes⟩

end Tracker

end Flowgraph
