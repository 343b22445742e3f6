import Flowgraph.Graph.Basic
import Flowgraph.Json.Decode

/-! Workflow graphs as JSON. Lists that are absent are empty, as is an absent config; a name
may be absent or null. -/

namespace Flowgraph

open Json

/-- What has been read of a node. -/
structure Node.Draft where
  id : Option String
  stepType : Option String
  name : Option (Option String)
  config : Option (Fields Json)

def Node.shape : Shape Node.Draft where
  name := "Node"
  empty := ⟨none, none, none, none⟩
  members := [
    ⟨"id", true, (·.id.isSome), fun src d s => do
      return { s with id := some (← Document.toText src d) }⟩,
    ⟨"type", true, (·.stepType.isSome), fun src d s => do
      return { s with stepType := some (← Document.toText src d) }⟩,
    ⟨"name", false, (·.name.isSome), fun src d s => do
      return { s with name := some (← Document.toText? src d) }⟩,
    ⟨"config", false, (·.config.isSome), fun src d s => do
      return { s with config := some (← Document.toMap src d) }⟩]

def Node.Draft.node (d : Node.Draft) : Node :=
  ⟨d.id.getD "", d.stepType.getD "", d.name.getD none, d.config.getD []⟩

def Node.decode : Decoder Node := fun src d => (Node.shape.decode src d).map Node.Draft.node

structure Edge.Draft where
  source : Option String
  target : Option String

def Edge.shape : Shape Edge.Draft where
  name := "Edge"
  empty := ⟨none, none⟩
  members := [
    ⟨"source", true, (·.source.isSome), fun src d s => do
      return { s with source := some (← Document.toText src d) }⟩,
    ⟨"target", true, (·.target.isSome), fun src d s => do
      return { s with target := some (← Document.toText src d) }⟩]

def Edge.Draft.edge (d : Edge.Draft) : Edge := ⟨d.source.getD "", d.target.getD ""⟩

def Edge.decode : Decoder Edge := fun src d => (Edge.shape.decode src d).map Edge.Draft.edge

structure Graph.Draft where
  nodes : Option (List Node)
  edges : Option (List Edge)

def Graph.shape : Shape Graph.Draft where
  name := "WorkflowGraph"
  empty := ⟨none, none⟩
  members := [
    ⟨"nodes", false, (·.nodes.isSome), fun src d s => do
      return { s with nodes := some (← Document.toList Node.decode src d) }⟩,
    ⟨"edges", false, (·.edges.isSome), fun src d s => do
      return { s with edges := some (← Document.toList Edge.decode src d) }⟩]

def Graph.Draft.graph (d : Graph.Draft) : Graph := ⟨d.nodes.getD [], d.edges.getD []⟩

def Graph.decode : Decoder Graph := fun src d => (Graph.shape.decode src d).map Graph.Draft.graph

def Graph.ofJson (v : Json) : Except DecodeError Graph := Graph.decode.ofJson v

def Graph.ofText (text : String) : Except DecodeError Graph := Graph.decode.ofText text

/-- The name is left out when there is none. -/
def Node.toJson (node : Node) : Json :=
  .object <|
    [("config", .object node.config), ("id", .string node.id)] ++
      (node.name.map fun name => ("name", Json.string name)).toList ++
      [("type", .string node.stepType)]

def Edge.toJson (edge : Edge) : Json :=
  .object [("source", .string edge.source), ("target", .string edge.target)]

def Graph.toJson (graph : Graph) : Json :=
  .object [
    ("edges", .array (graph.edges.map Edge.toJson)),
    ("nodes", .array (graph.nodes.map Node.toJson))]

end Flowgraph
