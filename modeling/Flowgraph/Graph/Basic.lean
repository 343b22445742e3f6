import Flowgraph.Json.Basic

/-! Workflow graphs: nodes in the order of their declaration, and edges from what is needed to
what needs it. -/

namespace Flowgraph

structure Node where
  id : String
  stepType : String
  name : Option String
  config : Fields Json
  deriving DecidableEq, Inhabited

namespace Node

def new (id stepType : String) : Node := ⟨id, stepType, none, []⟩

def named (node : Node) (name : String) : Node := { node with name := some name }

def configured (node : Node) (key : String) (v : Json) : Node :=
  { node with config := node.config.insert key v }

/-- The name that templates call the node by. -/
def referenceName (node : Node) : String := node.name.getD node.id

end Node

/-- `target` depends on `source`. -/
structure Edge where
  source : String
  target : String
  deriving DecidableEq, Inhabited

structure Graph where
  nodes : List Node
  edges : List Edge
  deriving DecidableEq, Inhabited

def Graph.node (graph : Graph) (i : Fin graph.nodes.length) : Node := graph.nodes[i]

end Flowgraph
