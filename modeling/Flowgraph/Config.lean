import Flowgraph.Binding
import Flowgraph.Dependency

/-! Compiling a node's config. Every string is a template; its references are resolved to the
nodes that bear their names. What is wrong is reported, and the text kept. -/

namespace Flowgraph

/-- The key whose text, if it has no placeholder, chooses the integration of a step. -/
def integrationKey : String := "integrationId"

/-- Where references of one node are resolved: the graph, the node, and what it depends on. -/
structure Scope where
  graph : Graph
  node : String
  ancestors : Vector Bool graph.nodes.length

namespace Graph

/-- The nodes that templates call by this name. -/
def bearers (graph : Graph) (name : String) : List (Fin graph.nodes.length) :=
  (List.finRange graph.nodes.length).filter fun i => (graph.node i).referenceName = name

end Graph

namespace Scope

variable (scope : Scope)

def resolve (r : Reference) : Except Violation OutputRef :=
  match scope.graph.bearers r.node with
  | [] => .error (.unknownTemplateNode scope.node r.raw r.node)
  | [i] =>
    let source := (scope.graph.node i).id
    if scope.ancestors[i] then .ok ⟨source, r.path⟩
    else .error (.notADependency scope.node r.raw source)
  | _ :: _ :: _ => .error (.ambiguousTemplateNode scope.node r.raw r.node)

/-- A reference that cannot be resolved stays as it was written. -/
def compileSegment : Segment → Part × List Violation
  | .text s => (.text s, [])
  | .reference r =>
    match scope.resolve r with
    | .ok output => (.output output, [])
    | .error v => (.text r.raw, [v])

def isText : Part → Bool
  | .text _ => true
  | .output _ => false

/-- One reference alone keeps the type of its value. -/
def assemble (text : String) (parts : List Part) : Binding :=
  match parts with
  | [.output r] => .output r
  | parts => if parts.all isText then .literal (.string text) else .interpolate parts

def compileText (text : String) : Binding × List Violation :=
  match Template.parse text with
  | .error raws => (.literal (.string text), raws.map (.malformedReference scope.node))
  | .ok segments =>
    let compiled := segments.map scope.compileSegment
    (assemble text (compiled.map (·.1)), compiled.flatMap (·.2))

mutual

/-- Objects and arrays of literals are literals. -/
def compileValue : Json → Binding × List Violation
  | .string s => scope.compileText s
  | .array items =>
    let compiled := compileItems items
    let bindings := compiled.map (·.1)
    (if bindings.all Binding.isLiteral then .literal (.array items) else .array bindings,
      compiled.flatMap (·.2))
  | .object fields =>
    let compiled := compileFields fields
    let bindings := compiled.map fun c => (c.1, c.2.1)
    (if bindings.all (·.2.isLiteral) then .literal (.object fields) else .object bindings,
      compiled.flatMap (·.2.2))
  | v => (.literal v, [])

def compileItems : List Json → List (Binding × List Violation)
  | [] => []
  | v :: rest => compileValue v :: compileItems rest

def compileFields : List (String × Json) → List (String × Binding × List Violation)
  | [] => []
  | (key, v) :: rest => (key, compileValue v) :: compileFields rest

end

theorem compileItems_eq_map (items : List Json) :
    scope.compileItems items = items.map scope.compileValue := by
  induction items <;> simp_all [compileItems]

theorem compileFields_eq_map (fields : List (String × Json)) :
    scope.compileFields fields = fields.map fun kv => (kv.1, scope.compileValue kv.2) := by
  induction fields <;> simp_all [compileFields]

end Scope

/-- The integration chosen by a field of a config. -/
def integration? (key : String) (v : Json) : Option String :=
  match v with
  | .string id => if key = integrationKey && !Template.hasPlaceholder id then some id else none
  | _ => none

/-- What a config compiles to. -/
structure CompiledConfig where
  inputs : Fields Binding
  integrationId : Option String
  violations : List Violation

def Scope.compileConfig (scope : Scope) (config : Fields Json) : CompiledConfig :=
  let inputs := config.filter fun kv => (integration? kv.1 kv.2).isNone
  let compiled := scope.compileFields inputs
  { inputs := compiled.map fun c => (c.1, c.2.1)
    integrationId := config.findSome? fun kv => integration? kv.1 kv.2
    violations := compiled.flatMap (·.2.2) }

end Flowgraph
