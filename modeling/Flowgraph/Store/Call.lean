import Flowgraph.Store.Row
import Flowgraph.Store.Error

/-! The calls that a store answers, and the type of each answer. -/

namespace Flowgraph

inductive Call
  | createWorkflow (team : Uuid) (name : String) (definition : Json)
  | getWorkflow (id : Uuid)
  | listWorkflows (team : Uuid)
  | deleteWorkflow (id : Uuid)
  | createExecution (workflow : Uuid)
  | getExecution (id : Uuid)
  | updateStatus (id : Uuid) (status : RunStatus) (finished : Bool)
  | insertLog (entry : LogEntry)
  | completeLog (target : LogTarget) (completion : Completion)
  | listLogs (execution : Uuid)
  | workflowTeam (workflow : Uuid)
  deriving DecidableEq

namespace Call

/-- An update of a status tells whether the row was still open. -/
abbrev Answer : Call → Type
  | createWorkflow .. => WorkflowRow
  | getWorkflow .. => WorkflowRow
  | listWorkflows .. => List WorkflowRow
  | deleteWorkflow .. => Unit
  | createExecution .. => ExecutionRow
  | getExecution .. => ExecutionRow
  | updateStatus .. => Bool
  | insertLog .. => LogRow
  | completeLog .. => Unit
  | listLogs .. => List LogRow
  | workflowTeam .. => Uuid

abbrev Reply (c : Call) : Type := Except StoreError c.Answer

inductive Method
  | createWorkflow | getWorkflow | listWorkflows | deleteWorkflow
  | createExecution | getExecution | updateStatus
  | insertLog | completeLog | listLogs | workflowTeam
  deriving DecidableEq

def method : Call → Method
  | createWorkflow .. => .createWorkflow
  | getWorkflow .. => .getWorkflow
  | listWorkflows .. => .listWorkflows
  | deleteWorkflow .. => .deleteWorkflow
  | createExecution .. => .createExecution
  | getExecution .. => .getExecution
  | updateStatus .. => .updateStatus
  | insertLog .. => .insertLog
  | completeLog .. => .completeLog
  | listLogs .. => .listLogs
  | workflowTeam .. => .workflowTeam

def Method.name : Method → String
  | createWorkflow => "createWorkflow"
  | getWorkflow => "getWorkflow"
  | listWorkflows => "listWorkflows"
  | deleteWorkflow => "deleteWorkflow"
  | createExecution => "createExecution"
  | getExecution => "getExecution"
  | updateStatus => "updateExecutionStatus"
  | insertLog => "insertLog"
  | completeLog => "completeLog"
  | listLogs => "listLogs"
  | workflowTeam => "workflowTeam"

def Method.parse (name : String) : Option Method :=
  [createWorkflow, getWorkflow, listWorkflows, deleteWorkflow, createExecution, getExecution,
    updateStatus, insertLog, completeLog, listLogs, workflowTeam].find? (·.name = name)

end Call

end Flowgraph
