import Flowgraph.Graph.Codec
import Flowgraph.Store.Error
import Flowgraph.Store.Row
import Flowgraph.Violation

/-! Workflows: rows whose definition has been read as a graph. -/

namespace Flowgraph

structure Workflow where
  id : Uuid
  team : Uuid
  name : String
  graph : Graph
  createdAt : Instant
  deriving DecidableEq

/-- Why a workflow cannot be run. -/
inductive WorkflowError
  | invalid (violations : List Violation)
  /-- The definition is no graph. -/
  | unreadable (e : Json.DecodeError)
  | store (e : StoreError)
  deriving DecidableEq

def WorkflowError.message : WorkflowError → String
  | invalid violations => Violation.summary violations
  | unreadable e => "invalid workflow definition: " ++ e.message
  | store e => "database error: " ++ e.message

def Workflow.ofRow (row : WorkflowRow) : Except Json.DecodeError Workflow :=
  (Graph.ofJson row.definition).map fun graph =>
    ⟨row.id, row.team, row.name, graph, row.createdAt⟩

end Flowgraph
