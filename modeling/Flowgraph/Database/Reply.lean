import Flowgraph.Database.Query

/-! What a store in a database makes of the reply to each query. The columns of a row are read in
a fixed order, and the first that cannot be read is reported. -/

namespace Flowgraph.Database

inductive Reply
  | rows (rows : List Row)
  | affected (count : Nat)
  | refused (message : String)
  deriving DecidableEq

namespace Reply

def rowsOf : Reply → Except DatabaseFault (List Row)
  | rows rs => .ok rs
  | affected _ => .ok []
  | refused message => .error (.reported message)

/-- How many rows a statement has changed or returned. -/
def count : Reply → Except DatabaseFault Nat
  | rows rs => .ok rs.length
  | affected n => .ok n
  | refused message => .error (.reported message)

end Reply

namespace Cell

def uuid? : Cell → Option Uuid
  | uuid id => some id
  | _ => none

def text? : Cell → Option String
  | text s => some s
  | _ => none

def json? : Cell → Option Json
  | json v => some v
  | _ => none

def time? : Cell → Option Instant
  | time micros => some (instant micros)
  | _ => none

end Cell

namespace Row

/-- A column that may be null. -/
def optional (row : Row) (read : Cell → Option α) (column : String) :
    Except DatabaseFault (Option α) :=
  match row.lookup column with
  | none => .error (.columnNotFound column)
  | some cell => .ok (read cell)

def required (row : Row) (read : Cell → Option α) (column : String) : Except DatabaseFault α := do
  match ← row.optional read column with
  | some a => return a
  | none => throw (.unexpectedNull column)

def status (row : Row) (column : String) : Except DatabaseFault RunStatus := do
  match RunStatus.parse (← row.required Cell.text? column) with
  | some s => return s
  | none => throw (.unreadableStatus column)

def workflow (row : Row) : Except DatabaseFault WorkflowRow :=
  return {
    id := ← row.required Cell.uuid? "id"
    team := ← row.required Cell.uuid? "team_id"
    name := ← row.required Cell.text? "name"
    definition := ← row.required Cell.json? "definition"
    createdAt := ← row.required Cell.time? "created_at" }

def execution (row : Row) : Except DatabaseFault ExecutionRow :=
  return {
    id := ← row.required Cell.uuid? "id"
    workflow := ← row.required Cell.uuid? "workflow_id"
    status := ← row.status "status"
    startedAt := ← row.required Cell.time? "started_at"
    finishedAt := ← row.optional Cell.time? "finished_at" }

def log (row : Row) : Except DatabaseFault LogRow :=
  return {
    id := ← row.required Cell.uuid? "id"
    execution := ← row.required Cell.uuid? "execution_id"
    nodeId := ← row.required Cell.text? "node_id"
    nodeName := ← row.required Cell.text? "node_name"
    nodeType := ← row.required Cell.text? "node_type"
    status := ← row.status "status"
    input := ← row.required Cell.json? "input"
    output := ← row.optional Cell.json? "output"
    error := ← row.optional Cell.text? "error"
    startedAt := ← row.required Cell.time? "started_at"
    finishedAt := ← row.optional Cell.time? "finished_at" }

end Row

namespace Reply

/-- The row that a statement must return. -/
def one (reply : Reply) (read : Row → Except DatabaseFault α) : Except StoreError α :=
  Except.mapError .database do
    match ← reply.rowsOf with
    | row :: _ => read row
    | [] => throw .rowNotFound

/-- The row that a statement may return. -/
def first (reply : Reply) (read : Row → Except DatabaseFault α) : Except StoreError α := do
  match ← (reply.rowsOf).mapError StoreError.database with
  | row :: _ => (read row).mapError StoreError.database
  | [] => throw .notFound

/-- All rows; the first that cannot be read is reported. -/
def all (reply : Reply) (read : Row → Except DatabaseFault α) : Except StoreError (List α) :=
  Except.mapError .database do (← reply.rowsOf).mapM read

def changed (reply : Reply) : Except StoreError Bool :=
  Except.mapError .database do return 0 < (← reply.count)

def mustChange (reply : Reply) : Except StoreError Unit := do
  if ← reply.changed then return () else throw .notFound

end Reply

/-- The answer to a call, for the reply to its query. -/
def answer (reply : Reply) : (c : Call) → c.Reply
  | .createWorkflow .. => reply.one Row.workflow
  | .getWorkflow .. => reply.first Row.workflow
  | .listWorkflows .. => reply.all Row.workflow
  | .deleteWorkflow .. => reply.mustChange
  | .createExecution .. => reply.one Row.execution
  | .getExecution .. => reply.first Row.execution
  | .updateStatus .. => reply.changed
  | .insertLog .. => reply.one Row.log
  | .completeLog .. => reply.mustChange
  | .listLogs .. => reply.all Row.log
  | .workflowTeam .. => (reply.first Row.workflow).map (·.team)

end Flowgraph.Database
