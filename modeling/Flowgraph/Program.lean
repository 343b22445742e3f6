import Flowgraph.Validation

/-! Compiled workflows: nodes stage by stage, and within a stage in the order of declaration. -/

namespace Flowgraph

/-- A node that is ready to be dispatched. -/
structure CompiledNode where
  id : String
  name : String
  stepType : String
  stage : Nat
  dependencies : List String
  inputs : Fields Binding
  integrationId : Option String

/-- The input for the outputs so far. -/
def CompiledNode.resolveInput (node : CompiledNode) (outputs : Outputs) : Fields Json :=
  Binding.resolveFields outputs node.inputs

structure Stage where
  index : Nat
  nodeIds : List String
  deriving DecidableEq

structure Program where
  nodes : List CompiledNode
  stages : List Stage

namespace Program

def node? (p : Program) (id : String) : Option CompiledNode := p.nodes.find? (·.id = id)

def stageNodes (p : Program) (stage : Stage) : List CompiledNode :=
  stage.nodeIds.filterMap p.node?

def nodeIds (p : Program) : List String := p.nodes.map (·.id)

def isEmpty (p : Program) : Bool := p.nodes.isEmpty

end Program

def ValidNode.compile (node : ValidNode) (stage : Nat) : CompiledNode where
  id := node.id
  name := node.name
  stepType := node.stepType
  stage := stage
  dependencies := node.dependencies
  inputs := node.inputs
  integrationId := node.integrationId

def ValidGraph.compile (valid : ValidGraph) : Program where
  nodes := valid.stages.zipIdx.flatMap fun (members, index) =>
    members.map fun i => valid.nodes[i].compile index
  stages := valid.stages.zipIdx.map fun (members, index) =>
    ⟨index, members.map fun i => valid.nodes[i].id⟩

def Graph.compile (graph : Graph) (registry : Registry) : Except (List Violation) Program :=
  (graph.validate registry).map ValidGraph.compile

end Flowgraph
