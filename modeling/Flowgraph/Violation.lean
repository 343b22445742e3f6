/-! What can be wrong with a workflow graph. -/

namespace Flowgraph

/-- The end of an edge. -/
inductive Side
  | source
  | target
  deriving DecidableEq

def Side.text : Side → String
  | source => "source"
  | target => "target"

inductive Violation
  | duplicateNodeId (id : String)
  | unknownNodeReference (id : String) (side : Side)
  | cycleDetected (ids : List String)
  | unknownStepType (node stepType : String)
  | missingInput (node field : String)
  | malformedReference (node reference : String)
  | unknownTemplateNode (node reference name : String)
  | ambiguousTemplateNode (node reference name : String)
  | notADependency (node reference source : String)
  deriving DecidableEq

namespace Violation

def message : Violation → String
  | duplicateNodeId id => s!"duplicate node ID: '{id}'"
  | unknownNodeReference id side => s!"edge references unknown node '{id}' ({side.text} side)"
  | cycleDetected ids => "workflow graph contains a cycle through: " ++ ", ".intercalate ids
  | unknownStepType node stepType => s!"node '{node}' has unknown step type '{stepType}'"
  | missingInput node field => s!"node '{node}' is missing required input '{field}'"
  | malformedReference node reference =>
    s!"node '{node}' has a malformed template reference '{reference}'"
  | unknownTemplateNode node reference name =>
    s!"node '{node}' references '{reference}' but no node is named '{name}'"
  | ambiguousTemplateNode node reference name =>
    s!"node '{node}' references '{reference}' but several nodes are named '{name}'"
  | notADependency node reference source =>
    s!"node '{node}' references '{reference}' but does not depend on node '{source}'"

/-- The node to highlight, if the violation belongs to one. -/
def node? : Violation → Option String
  | duplicateNodeId id => some id
  | unknownNodeReference _ _ | cycleDetected _ => none
  | unknownStepType node _ | missingInput node _ | malformedReference node _
  | unknownTemplateNode node _ _ | ambiguousTemplateNode node _ _
  | notADependency node _ _ => some node

def isCycle : Violation → Bool
  | cycleDetected _ => true
  | _ => false

/-- One text for all violations of a graph. -/
def summary (violations : List Violation) : String :=
  "workflow graph is invalid: " ++ "; ".intercalate (violations.map message)

end Violation

end Flowgraph
