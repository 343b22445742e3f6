import Flowgraph.Config
import Flowgraph.Step.Registry

/-! Checking a graph against a registry. All violations are collected; a graph without any
comes back with its configs compiled and its stages found. -/

namespace Flowgraph

/-- A node that passed. -/
structure ValidNode where
  id : String
  /-- The name that templates call it by. -/
  name : String
  stepType : String
  dependencies : List String
  inputs : Fields Binding
  integrationId : Option String

structure ValidGraph where
  size : Nat
  nodes : Vector ValidNode size
  stages : List (List (Fin size))

namespace Graph

variable (graph : Graph)

/-- One violation names the nodes that lie on a cycle. Were there none, it would name all that
no stage could take. -/
def cycleViolations (g : DependencyGraph graph.nodes.length) : List Violation :=
  let order := g.order
  if order.unresolved.isEmpty then []
  else
    let members := g.cycleMembers order
    let named := if members.isEmpty then order.unresolved else members
    [.cycleDetected (named.map fun i => (graph.node i).id)]

/-- A required input that is absent or null. -/
def lacks (node : Node) (input : String) : Bool := ((node.config.lookup input).getD .null).isNull

def schemaViolations (registry : Registry) (node : Node) : List Violation :=
  match registry.find? node.stepType with
  | none => [.unknownStepType node.id node.stepType]
  | some d => (d.requiredInputs.filter (lacks node)).map (.missingInput node.id)

/-- Edges attach to the first node that carries an id. -/
def slot (i : Fin graph.nodes.length) : Fin graph.nodes.length :=
  (graph.place? (graph.node i).id).getD i

def scope (g : DependencyGraph graph.nodes.length) (i : Fin graph.nodes.length) : Scope where
  graph := graph
  node := (graph.node i).id
  ancestors := g.ancestors (graph.slot i)

/-- The compiled config of every node. -/
def configs (g : DependencyGraph graph.nodes.length) : Vector CompiledConfig graph.nodes.length :=
  Vector.ofFn fun i => (graph.scope g i).compileConfig (graph.node i).config

def validNode (g : DependencyGraph graph.nodes.length)
    (configs : Vector CompiledConfig graph.nodes.length) (i : Fin graph.nodes.length) :
    ValidNode where
  id := (graph.node i).id
  name := (graph.node i).referenceName
  stepType := (graph.node i).stepType
  dependencies := (g.dependencies.get (graph.slot i)).map fun d => (graph.node d).id
  inputs := (configs.get i).inputs
  integrationId := (configs.get i).integrationId

/-- Structure first, then node by node its type, its inputs and its references. -/
def violations (g : DependencyGraph graph.nodes.length)
    (configs : Vector CompiledConfig graph.nodes.length) (registry : Registry) :
    List Violation :=
  graph.structuralViolations ++ graph.cycleViolations g ++
    (List.finRange graph.nodes.length).flatMap fun i =>
      schemaViolations registry (graph.node i) ++ (configs.get i).violations

def validate (registry : Registry) : Except (List Violation) ValidGraph :=
  let g := graph.dependencies
  let configs := graph.configs g
  match graph.violations g configs registry with
  | [] =>
    .ok ⟨graph.nodes.length, Vector.ofFn (graph.validNode g configs), g.order.stages⟩
  | vs => .error vs

end Graph

end Flowgraph
