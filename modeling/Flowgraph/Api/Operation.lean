import Flowgraph.Api.Request
import Flowgraph.Api.Route

/-! What a request asks for. It is read from left to right: the path, the method, the identifier
in the path, the body. -/

namespace Flowgraph.Api

inductive Operation
  | createWorkflow (new : NewWorkflow)
  | listWorkflows
  | getWorkflow (id : Uuid)
  | deleteWorkflow (id : Uuid)
  | workflowCode (id : Uuid)
  | execute (id : Uuid)
  | stop (id : Uuid)
  | executionLogs (id : Uuid)
  | nodeStatuses (id : Uuid)
  deriving DecidableEq

namespace Operation

def notAllowed : Except Response Operation := .error ⟨405, .empty⟩

/-- An operation on the row that a path names. -/
def onRow (segment : String) (operation : Uuid → Operation) : Except Response Operation :=
  match Route.id? segment with
  | some id => .ok (operation id)
  | none => .error ⟨400, .text "the path holds no identifier"⟩

/-- Where a page can be read, its head can. -/
def reads (method : String) : Bool := method = "GET" || method = "HEAD"

def ofRoute (r : Request) : Route → Except Response Operation
  | .workflows =>
    if r.method = "POST" then (NewWorkflow.ofRequest r).map createWorkflow
    else if reads r.method then .ok listWorkflows
    else notAllowed
  | .workflow id =>
    if reads r.method then onRow id getWorkflow
    else if r.method = "DELETE" then onRow id deleteWorkflow
    else notAllowed
  | .code id => if reads r.method then onRow id workflowCode else notAllowed
  | .execute id => if r.method = "POST" then onRow id execute else notAllowed
  | .stop id => if r.method = "POST" then onRow id stop else notAllowed
  | .logs id => if reads r.method then onRow id executionLogs else notAllowed
  | .status id => if reads r.method then onRow id nodeStatuses else notAllowed

def ofRequest (r : Request) : Except Response Operation :=
  match Route.ofPath? r.target with
  | none => .error ⟨404, .empty⟩
  | some route => ofRoute r route

end Operation

end Flowgraph.Api
