import Flowgraph.Tracker
import Flowgraph.Workflow

/-! Running programs. The nodes of a stage run side by side; a node waits for all its
dependencies to succeed, so what lies below a failed node is never started, and other branches
go on. A stop is looked for before every stage. -/

namespace Flowgraph

structure Executor where
  registry : Registry
  config : TrackerConfig
  credentials : Credentials

/-- The run that is being executed. -/
structure RunIds where
  workflow : Uuid
  execution : Uuid
  deriving DecidableEq

/-- What is known of a run between two stages. -/
structure Course where
  run : RunState
  /-- The data of every node that has succeeded. -/
  outputs : Outputs

/-- A node that has been started, and its log. -/
structure Attempt where
  node : CompiledNode
  log : LogHandle

structure ExecutionReport where
  execution : Uuid
  status : RunStatus
  nodes : List (String × RunStatus)
  outputs : Outputs

def RunState.isReady (run : RunState) (node : CompiledNode) : Bool :=
  node.dependencies.all fun d => run.status? d = some .success

namespace Course

def start (program : Program) : Course := ⟨.new program.nodeIds, []⟩

/-- Keeps the data of a node that has succeeded. -/
def keep (c : Course) (id : String) : StepResult → Course
  | .success data => { c with outputs := c.outputs.insert id data }
  | .failure _ => c

/-- Takes in what a node has come to. A refused move leaves the statuses as they are. -/
def record (c : Course) (id : String) (result : StepResult) : Action Course :=
  let c := c.keep id result
  match c.run.finish id result.isSuccess with
  | .ok run => pure { c with run }
  | .error e => do
    Action.note e
    return c

end Course

namespace Executor

variable (x : Executor)

def compile (graph : Graph) : Except (List Violation) Program := graph.compile x.registry

def context (ids : RunIds) (node : CompiledNode) : StepContext where
  workflow := ids.workflow
  execution := ids.execution
  node := node.id
  integrationId := node.integrationId
  credentials := x.credentials

/-- A step of an unknown type fails. -/
def work (ids : RunIds) (node : CompiledNode) (input : Fields Json) : Work :=
  match x.registry.resolve node.stepType with
  | .ok d => d.step input (x.context ids node)
  | .error e => .done (.returned (.failure e.message))

/-- Logs the start of a node and starts its step. -/
def attempt (ids : RunIds) (node : CompiledNode) (outputs : Outputs) : Action Attempt := do
  let input := node.resolveInput outputs
  let log ← Tracker.logStart x.config ids.execution node (.object input)
  Action.start ⟨node.stepType, node.id, node.integrationId, input⟩ (x.work ids node input)
  return ⟨node, log⟩

/-- Starts the nodes that are ready. -/
def dispatch (ids : RunIds) (outputs : Outputs) :
    List CompiledNode → RunState → Action (RunState × List Attempt)
  | [], run => pure (run, [])
  | node :: rest, run =>
    if run.isReady node then
      match run.begin node.id with
      | .error e => do
        Action.note e
        dispatch ids outputs rest run
      | .ok run => do
        let a ← x.attempt ids node outputs
        let (run, attempts) ← dispatch ids outputs rest run
        return (run, a :: attempts)
    else dispatch ids outputs rest run

/-- Records what the started nodes have come to, in the order of their start. -/
def collect (ids : RunIds) : List (Attempt × Outcome) → Course → Action Course
  | [], c => pure c
  | (a, outcome) :: rest, c => do
    let result := outcome.result
    let c ← c.record a.node.id result
    let _ ← Tracker.logComplete x.config ids.execution a.node.id a.log result
    collect ids rest c

def runStage (ids : RunIds) (nodes : List CompiledNode) (c : Course) : Action Course := do
  let (run, attempts) ← x.dispatch ids c.outputs nodes c.run
  let outcomes ← Action.outcomes
  let c ← x.collect ids (attempts.zip outcomes) { c with run }
  let _ ← Tracker.refreshStatus x.config ids.execution c.run false
  return c

/-- Runs stage by stage until the run is seen to be stopped; tells whether it was. -/
def runStages (ids : RunIds) (program : Program) :
    List Stage → Course → Action (Course × Bool)
  | [], c => pure (c, false)
  | stage :: rest, c => do
    if ← Tracker.isStopped ids.execution then return (c, true)
    else
      let c ← x.runStage ids (program.stageNodes stage) c
      runStages ids program rest c

/-- The status of a run that has ended. A stop during the last stage shows on the row only. -/
def finalStatus (persisted : Option RunStatus) (stopped : Bool) (derived : RunStatus) :
    RunStatus :=
  match persisted with
  | some s => if s.isTerminal then s else if stopped then .error else derived
  | none => if stopped then .error else derived

/-- Runs a program for an execution that has been created. -/
def drive (ids : RunIds) (program : Program) : Action ExecutionReport := do
  let c := Course.start program
  let _ ← Tracker.refreshStatus x.config ids.execution c.run false
  let (c, stopped) ← x.runStages ids program program.stages c
  let derived ← Tracker.refreshStatus x.config ids.execution c.run true
  let persisted ← Tracker.persistedStatus ids.execution
  return ⟨ids.execution, finalStatus persisted stopped derived, c.run.snapshot, c.outputs⟩

/-- Compiles a workflow, creates an execution and runs it. A node that fails is part of the
report. -/
def run (workflow : Workflow) : Action (Except WorkflowError ExecutionReport) := do
  match x.compile workflow.graph with
  | .error violations => return .error (.invalid violations)
  | .ok program =>
    match ← Tracker.createExecution workflow.id with
    | .error e => return .error (.store e)
    | .ok row => return .ok (← x.drive ⟨workflow.id, row.id⟩ program)

end Executor

end Flowgraph
