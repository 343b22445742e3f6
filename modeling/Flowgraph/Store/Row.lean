import Flowgraph.Json.Basic
import Flowgraph.Run.Status
import Flowgraph.Uuid
import Flowgraph.Instant

/-! The rows of the three tables, and their JSON. -/

namespace Flowgraph

structure WorkflowRow where
  id : Uuid
  /-- The owner; every read is for one team. -/
  team : Uuid
  name : String
  definition : Json
  createdAt : Instant
  deriving DecidableEq

structure ExecutionRow where
  id : Uuid
  workflow : Uuid
  status : RunStatus
  startedAt : Instant
  finishedAt : Option Instant
  deriving DecidableEq

/-- One attempt at a node. -/
structure LogRow where
  id : Uuid
  execution : Uuid
  nodeId : String
  nodeName : String
  nodeType : String
  status : RunStatus
  input : Json
  output : Option Json
  error : Option String
  startedAt : Instant
  finishedAt : Option Instant
  deriving DecidableEq

/-- What is written when an attempt starts; it is running then. -/
structure LogEntry where
  execution : Uuid
  nodeId : String
  nodeName : String
  nodeType : String
  input : Json
  startedAt : Instant
  deriving DecidableEq

/-- What is written when an attempt ends. -/
structure Completion where
  status : RunStatus
  output : Option Json
  error : Option String
  finishedAt : Instant
  deriving DecidableEq

/-- How the log row to complete is found. -/
inductive LogTarget
  | row (id : Uuid)
  | latest (execution : Uuid) (nodeId : String)
  deriving DecidableEq

def LogRow.complete (row : LogRow) (c : Completion) : LogRow :=
  { row with
    status := c.status
    output := c.output
    error := c.error
    finishedAt := some c.finishedAt }

def LogEntry.row (entry : LogEntry) (id : Uuid) : LogRow where
  id := id
  execution := entry.execution
  nodeId := entry.nodeId
  nodeName := entry.nodeName
  nodeType := entry.nodeType
  status := .running
  input := entry.input
  output := none
  error := none
  startedAt := entry.startedAt
  finishedAt := none

def Json.ofOption (f : α → Json) : Option α → Json
  | none => .null
  | some a => f a

def Uuid.json (id : Uuid) : Json := .string id.text

def Instant.json (t : Instant) : Json := .string t.text

def RunStatus.json (s : RunStatus) : Json := .string s.text

def WorkflowRow.json (row : WorkflowRow) : Json :=
  .object [
    ("createdAt", row.createdAt.json), ("definition", row.definition), ("id", row.id.json),
    ("name", .string row.name), ("teamId", row.team.json)]

def ExecutionRow.json (row : ExecutionRow) : Json :=
  .object [
    ("finishedAt", .ofOption Instant.json row.finishedAt), ("id", row.id.json),
    ("startedAt", row.startedAt.json), ("status", row.status.json),
    ("workflowId", row.workflow.json)]

def LogRow.json (row : LogRow) : Json :=
  .object [
    ("error", .ofOption Json.string row.error), ("executionId", row.execution.json),
    ("finishedAt", .ofOption Instant.json row.finishedAt), ("id", row.id.json),
    ("input", row.input), ("nodeId", .string row.nodeId), ("nodeName", .string row.nodeName),
    ("nodeType", .string row.nodeType), ("output", row.output.getD .null),
    ("startedAt", row.startedAt.json), ("status", row.status.json)]

end Flowgraph
