import Flowgraph.Database.Statement
import Flowgraph.Store.Memory

/-! The statement that a store in a database runs for each call. The store makes new identifiers
itself, and where a row gets the present time it reads its own clock. -/

namespace Flowgraph.Database

/-- A statement with a value for each of its parameters. -/
structure Query where
  statement : Statement
  params : List Cell
  deriving DecidableEq

def workflowColumns : List String := ["id", "team_id", "name", "definition", "created_at"]

def executionColumns : List String := ["id", "workflow_id", "status", "started_at", "finished_at"]

def logColumns : List String :=
  ["id", "execution_id", "node_id", "node_name", "node_type", "status", "input", "output",
    "error", "started_at", "finished_at"]

/-- The rows of a table whose column has the value of the only parameter. -/
def rowsWhere (columns : List String) (table column : String) (orders : List Order) : Statement :=
  .select ⟨columns, table, [.equals column 1], orders, none⟩

def insertWorkflow : Statement :=
  .insert "workflows"
    [("id", .param 1), ("team_id", .param 2), ("name", .param 3), ("definition", .param 4),
      ("created_at", .param 5)]
    workflowColumns

def insertExecution : Statement :=
  .insert "executions"
    [("id", .param 1), ("workflow_id", .param 2), ("status", .quoted RunStatus.pending.text),
      ("started_at", .param 3)]
    executionColumns

def insertLog : Statement :=
  .insert "execution_logs"
    [("id", .param 1), ("execution_id", .param 2), ("node_id", .param 3), ("node_name", .param 4),
      ("node_type", .param 5), ("status", .quoted RunStatus.running.text), ("input", .param 6),
      ("started_at", .param 7)]
    logColumns

/-- A row whose status is final is left alone. -/
def updateStatus : Statement :=
  .update "executions" [("status", .param 1), ("finished_at", .paramIf 2 3)]
    (.tests [.equals "id" 4, .noneOf "status" [RunStatus.success.text, RunStatus.error.text]])

def completeLog (filter : Filter) : Statement :=
  .update "execution_logs"
    [("status", .param 1), ("output", .param 2), ("error", .param 3), ("finished_at", .param 4)]
    filter

/-- The log row of a node that started last. -/
def latestLog : Filter :=
  .selected "id"
    ⟨["id"], "execution_logs", [.equals "execution_id" 5, .equals "node_id" 6],
      [⟨"started_at", true⟩], some 1⟩

def Cell.ofOption (f : α → Cell) : Option α → Cell
  | none => .null
  | some a => f a

def completionParams (c : Completion) : List Cell :=
  [.text c.status.text, .ofOption .json c.output, .ofOption .text c.error, .ofInstant c.finishedAt]

def targetQuery (c : Completion) : LogTarget → Query
  | .row id => ⟨completeLog (.tests [.equals "id" 5]), completionParams c ++ [.uuid id]⟩
  | .latest execution nodeId =>
    ⟨completeLog latestLog, completionParams c ++ [.uuid execution, .text nodeId]⟩

def workflowById (id : Uuid) : Query :=
  ⟨rowsWhere workflowColumns "workflows" "id" [], [.uuid id]⟩

/-- The query for a call. The owner of a workflow is read off its row. -/
def queryFor (supply : Supply) : Call → Query × Supply
  | .createWorkflow team name definition =>
    let (id, supply) := supply.fresh
    let (now, supply) := supply.now
    (⟨insertWorkflow, [.uuid id, .uuid team, .text name, .json definition, .ofInstant now]⟩, supply)
  | .getWorkflow id | .workflowTeam id => (workflowById id, supply)
  | .listWorkflows team =>
    (⟨rowsWhere workflowColumns "workflows" "team_id" [⟨"created_at", true⟩], [.uuid team]⟩,
      supply)
  | .deleteWorkflow id => (⟨.delete "workflows" [.equals "id" 1], [.uuid id]⟩, supply)
  | .createExecution workflow =>
    let (id, supply) := supply.fresh
    let (now, supply) := supply.now
    (⟨insertExecution, [.uuid id, .uuid workflow, .ofInstant now]⟩, supply)
  | .getExecution id => (⟨rowsWhere executionColumns "executions" "id" [], [.uuid id]⟩, supply)
  | .updateStatus id status finished =>
    let (now, supply) := supply.now
    (⟨updateStatus, [.text status.text, .bool finished, .ofInstant now, .uuid id]⟩, supply)
  | .insertLog entry =>
    let (id, supply) := supply.fresh
    (⟨insertLog,
      [.uuid id, .uuid entry.execution, .text entry.nodeId, .text entry.nodeName,
        .text entry.nodeType, .json entry.input, .ofInstant entry.startedAt]⟩, supply)
  | .completeLog target completion => (targetQuery completion target, supply)
  | .listLogs execution =>
    (⟨rowsWhere logColumns "execution_logs" "execution_id"
      [⟨"started_at", false⟩, ⟨"id", false⟩], [.uuid execution]⟩, supply)

end Flowgraph.Database
