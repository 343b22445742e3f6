import Flowgraph.Executor

/-! The JSON of what runs and their readers give. -/

namespace Flowgraph

def statusesJson (nodes : List (String × RunStatus)) : Json :=
  .array (nodes.map fun (id, s) => .object [("nodeId", .string id), ("status", s.json)])

def ExecutionReport.json (r : ExecutionReport) : Json :=
  .object [
    ("executionId", r.execution.json), ("nodeStatuses", statusesJson r.nodes),
    ("outputs", .object r.outputs), ("status", r.status.json)]

def ExecutionLogs.json (r : ExecutionLogs) : Json :=
  .object [("execution", r.execution.json), ("logs", .array (r.logs.map LogRow.json))]

def NodeStatusSummary.json (r : NodeStatusSummary) : Json :=
  .object [("nodeStatuses", statusesJson r.nodes), ("status", r.status.json)]

end Flowgraph
