import Flowgraph.Proofs.Dependency.Cycle
import Flowgraph.Proofs.Graph.Accepted
import Flowgraph.Proofs.Json.Texts
import Flowgraph.Proofs.Template.Placeholders
import Mathlib.Data.List.Dedup

/-! What a well-formed graph is, and the defects of one that is not. Nothing here runs: places in a
text, counts of ids and chains of edges stand for the scans that look for them. -/

namespace Flowgraph

/-- The texts of a node's config, at any depth. -/
def Node.texts (node : Node) : List String := Json.textsOfFields node.config

/-- The config has a value for the input, and not null. -/
def Node.Gives (node : Node) (input : String) : Prop :=
  ∃ v, node.config.lookup input = some v ∧ v ≠ .null

namespace Graph

theorem lacks_iff {node : Node} {input : String} : lacks node input = true ↔ ¬ node.Gives input := by
  rw [lacks, Node.Gives]
  cases node.config.lookup input <;> simp

instance (node : Node) (input : String) : Decidable (node.Gives input) :=
  decidable_of_iff (¬ lacks node input = true) (by rw [lacks_iff, not_not])

variable (graph : Graph)

/-- An edge between declared nodes leads from the first to the second. -/
def Joined (source target : String) : Prop :=
  graph.Leads source target ∧ source ∈ graph.ids ∧ target ∈ graph.ids

/-- The node's data reach the other node. Edges attach to the first node that carries an id. -/
def Provides (source target : Fin graph.nodes.length) : Prop :=
  graph.place? (graph.node source).id = some source ∧
    Relation.TransGen graph.Joined (graph.node source).id (graph.node target).id

/-- The node that a name stands for: no other bears it. -/
def Bears (name : String) (i : Fin graph.nodes.length) : Prop :=
  ∀ j, (graph.node j).referenceName = name ↔ j = i

structure WellFormed (registry : Registry) : Prop where
  distinct : graph.ids.Nodup
  declared : ∀ e ∈ graph.edges, e.source ∈ graph.ids ∧ e.target ∈ graph.ids
  acyclic : ∀ id, ¬ graph.Upstream id id
  typed : ∀ node ∈ graph.nodes, ∃ d, registry.find? node.stepType = some d ∧
    ∀ input ∈ d.requiredInputs, node.Gives input
  referenced : ∀ i, ∀ text ∈ (graph.node i).texts, ∀ body, Template.Braceless body →
    Template.braced body <:+: text.toList → ∃ name source, Template.Calls body name ∧
      graph.Bears name source ∧ graph.Upstream (graph.node source).id (graph.node i).id

def edgeDefects (e : Edge) : List Violation :=
  (if e.source ∈ graph.ids then [] else [.unknownNodeReference e.source .source]) ++
    if e.target ∈ graph.ids then [] else [.unknownNodeReference e.target .target]

section

open Classical

/-- What is wrong with a placeholder that calls a node. -/
noncomputable def callDefects (i : Fin graph.nodes.length) (body : List Char) : List Violation :=
  let id := (graph.node i).id
  let raw := String.ofList (Template.braced body)
  match Template.called body with
  | none => []
  | some name =>
    match graph.bearers name with
    | [] => [.unknownTemplateNode id raw name]
    | [source] => if graph.Provides source i then [] else [.notADependency id raw (graph.node source).id]
    | _ => [.ambiguousTemplateNode id raw name]

/-- Placeholders that call nothing hide what is wrong with the others of the text. -/
noncomputable def textDefects (i : Fin graph.nodes.length) (text : String) : List Violation :=
  let found := Template.bodies text.toList
  match found.filter fun body => (Template.called body).isNone with
  | [] => found.flatMap (graph.callDefects i)
  | bad => bad.map fun body =>
    .malformedReference (graph.node i).id (String.ofList (Template.braced body))

noncomputable def nodeDefects (registry : Registry) (i : Fin graph.nodes.length) : List Violation :=
  let node := graph.node i
  (match registry.find? node.stepType with
    | none => [.unknownStepType node.id node.stepType]
    | some d => (d.requiredInputs.filter (¬ node.Gives ·)).map (.missingInput node.id)) ++
    node.texts.flatMap (graph.textDefects i)

/-- All defects but cycles: each once. -/
noncomputable def defects (registry : Registry) : List Violation :=
  (graph.ids.dedup.filter (1 < graph.ids.count ·)).map .duplicateNodeId ++
    graph.edges.flatMap graph.edgeDefects ++
      (List.finRange graph.nodes.length).flatMap (graph.nodeDefects registry)

end

end Graph

end Flowgraph
