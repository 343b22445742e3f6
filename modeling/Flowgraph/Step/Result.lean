import Flowgraph.Json.Basic

/-! What a step comes to. -/

namespace Flowgraph

inductive StepResult
  | success (data : Json)
  | failure (error : String)
  deriving DecidableEq

namespace StepResult

def isSuccess : StepResult → Bool
  | success _ => true
  | failure _ => false

/-- The shape that connectors exchange. -/
def json : StepResult → Json
  | success data => .object [("data", data), ("success", .bool true)]
  | failure error => .object [("error", .string error), ("success", .bool false)]

end StepResult

/-- A step returns a result, or faults with a message or with something else. -/
inductive Outcome
  | returned (result : StepResult)
  | faulted (message : Option String)
  deriving DecidableEq

/-- A fault counts as a failure. -/
def Outcome.result : Outcome → StepResult
  | returned result => result
  | faulted message => .failure ("step panicked: " ++ message.getD "unknown panic")

end Flowgraph
