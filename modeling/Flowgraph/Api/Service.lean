import Flowgraph.Api.Operation
import Flowgraph.Code.Layout
import Flowgraph.Report

/-! The service: workflows are stored, shown as code and run, and runs are stopped and watched.
All that a request does to the store is in its action; a run that it starts is part of its
answer. -/

namespace Flowgraph.Api

/-- The answer to a request, and the run that it has started. -/
structure Answer where
  response : Response
  run : Option (Action ExecutionReport)

/-- What an operation comes to. -/
abbrev Handled := Action (Except Failure Answer)

def reply (status : Nat) (body : Body) : Answer := ⟨⟨status, body⟩, none⟩

/-- A store call whose refusal ends the request. -/
def ask (c : Call) (next : c.Answer → Handled) : Handled :=
  .call c fun
    | .ok a => next a
    | .error e => .done (.error (.ofStore e))

/-- Reads what a team may read. -/
def read (a : Action (Except AccessError α)) (next : α → Handled) : Handled :=
  a.bind fun
    | .ok x => next x
    | .error e => .done (.error (.ofAccess e))

def ownedWorkflow (id team : Uuid) (next : WorkflowRow → Handled) : Handled :=
  ask (.getWorkflow id) fun row =>
    if row.team = team then next row else .done (.error .forbidden)

def loadWorkflow (id team : Uuid) (next : Workflow → Handled) : Handled :=
  ownedWorkflow id team fun row =>
    match Workflow.ofRow row with
    | .ok w => next w
    | .error e => .done (.error (.unreadable e))

/-- A name is kept without the blanks around it. -/
def createWorkflow (team : Uuid) (new : NewWorkflow) : Handled :=
  let name := Text.trim new.name
  if name.isEmpty then .done (.error (.badRequest "workflow name must not be empty"))
  else
    match Graph.ofJson new.definition with
    | .error e => .done (.error (.badRequest ("invalid workflow definition: " ++ e.message)))
    | .ok _ =>
      ask (.createWorkflow team name new.definition) fun row =>
        .done (.ok (reply 201 (.json row.json)))

def listWorkflows (team : Uuid) : Handled :=
  ask (.listWorkflows team) fun rows =>
    .done (.ok (reply 200 (.json (.array (rows.map WorkflowRow.json)))))

def getWorkflow (id team : Uuid) : Handled :=
  ownedWorkflow id team fun row => .done (.ok (reply 200 (.json row.json)))

def deleteWorkflow (id team : Uuid) : Handled :=
  ownedWorkflow id team fun _ =>
    ask (.deleteWorkflow id) fun _ => .done (.ok (reply 204 .empty))

def stop (execution team : Uuid) : Handled :=
  read (Tracker.stop execution team) fun _ => .done (.ok (reply 202 .empty))

def executionLogs (execution team : Uuid) : Handled :=
  read (Tracker.executionLogs execution team) fun r => .done (.ok (reply 200 (.json r.json)))

def nodeStatuses (execution team : Uuid) : Handled :=
  read (Tracker.nodeStatuses execution team) fun r => .done (.ok (reply 200 (.json r.json)))

section

variable (x : Executor)

/-- The program of a workflow; a graph that is not valid ends the request. -/
def compiled (id team : Uuid) (next : Workflow → Program → Handled) : Handled :=
  loadWorkflow id team fun w =>
    match x.compile w.graph with
    | .ok program => next w program
    | .error violations => .done (.error (.invalid violations))

def workflowCode (id team : Uuid) : Handled :=
  compiled x id team fun w program =>
    .done (.ok (reply 200 (.json (.object [("code", .string (program.generate w.name))]))))

/-- The run goes on in the background. -/
def execute (id team : Uuid) : Handled :=
  compiled x id team fun w program =>
    ask (.createExecution w.id) fun row =>
      .done (.ok {
        response := ⟨202, .json (.object [("executionId", row.id.json)])⟩
        run := some (x.drive ⟨w.id, row.id⟩ program) })

/-- What a request comes to that is made for a team. -/
def perform (team : Uuid) : Operation → Handled
  | .createWorkflow new => createWorkflow team new
  | .listWorkflows => listWorkflows team
  | .getWorkflow id => getWorkflow id team
  | .deleteWorkflow id => deleteWorkflow id team
  | .workflowCode id => workflowCode x id team
  | .execute id => execute x id team
  | .stop id => stop id team
  | .executionLogs id => executionLogs id team
  | .nodeStatuses id => nodeStatuses id team

/-- A request is read first; then it must name a team. -/
def handle (r : Request) : Action Answer :=
  match Operation.ofRequest r with
  | .error response => .done ⟨response, none⟩
  | .ok operation =>
    match r.team with
    | .error f => .done ⟨f.response, none⟩
    | .ok team =>
      (perform x team operation).bind fun
        | .ok answer => .done answer
        | .error f => .done ⟨f.response, none⟩

/-- The answer that is sent; to a request for the head alone it has no body. -/
def serve (r : Request) : Action Answer :=
  (handle x r).bind fun answer =>
    .done (if r.method = "HEAD" then
      { answer with response := ⟨answer.response.status, .empty⟩ } else answer)

end

end Flowgraph.Api
