import Flowgraph.Tracker
import Flowgraph.Workflow

/-! Failures of requests, and how they are answered. What went wrong inside is not shown. -/

namespace Flowgraph.Api

inductive Failure
  | unauthorized
  | notFound
  | forbidden
  | badRequest (message : String)
  | invalid (violations : List Violation)
  | internal (detail : String)
  deriving DecidableEq

namespace Failure

def message : Failure → String
  | unauthorized => "missing or invalid x-team-id header"
  | notFound => "not found"
  | forbidden => "resource belongs to another team"
  | badRequest message => message
  | invalid violations => Violation.summary violations
  | internal _ => "internal error"

def status : Failure → Nat
  | unauthorized => 401
  | notFound => 404
  | forbidden => 403
  | badRequest _ => 400
  | invalid _ => 422
  | internal _ => 500

/-- One violation, with the node to highlight if there is one. -/
def violationJson (v : Violation) : Json :=
  .object (("message", .string v.message) :: (v.node?.map fun id => ("nodeId", Json.string id)).toList)

/-- The violations of a graph stand in a list of their own. -/
def body : Failure → Json
  | invalid violations =>
    .object (("error", .string "workflow graph is invalid") ::
      if violations.isEmpty then []
      else [("violations", .array (violations.map violationJson))])
  | f => .object [("error", .string f.message)]

def ofStore : StoreError → Failure
  | .notFound => notFound
  | e => internal e.message

def ofAccess : AccessError → Failure
  | .notFound => notFound
  | .forbidden => forbidden
  | .database e => ofStore e

def unreadable (e : Json.DecodeError) : Failure :=
  internal ("stored definition is unreadable: " ++ e.message)

def ofWorkflow : WorkflowError → Failure
  | .invalid violations => invalid violations
  | .unreadable e => unreadable e
  | .store e => ofStore e

end Failure

end Flowgraph.Api
