import Flowgraph.Template
import Flowgraph.Json.Printer

/-! Compiled configuration values: literals, values out of other nodes' outputs, and text
with such values spliced in. -/

namespace Flowgraph

/-- What each finished node returned, by node id. -/
abbrev Outputs := Fields Json

/-- A place in the output of the node with this id. -/
structure OutputRef where
  node : String
  path : Path
  deriving DecidableEq, Inhabited

def OutputRef.lookup (r : OutputRef) (outputs : Outputs) : Option Json :=
  (outputs.lookup r.node).bind r.path.lookup

inductive Part
  | text (s : String)
  | output (r : OutputRef)
  deriving DecidableEq

inductive Binding
  | literal (v : Json)
  | output (r : OutputRef)
  | interpolate (parts : List Part)
  | object (fields : List (String × Binding))
  | array (items : List Binding)
  deriving Inhabited

/-- A value within text: null is nothing, a string is itself, all else is JSON text. -/
def Json.spliced : Json → String
  | null => ""
  | string s => s
  | v => v.text

namespace Part

/-- A value that is not there is nothing. -/
def resolve (outputs : Outputs) : Part → String
  | text s => s
  | output r => ((r.lookup outputs).map Json.spliced).getD ""

def reference? : Part → Option OutputRef
  | text _ => none
  | output r => some r

end Part

namespace Binding

def isLiteral : Binding → Bool
  | literal _ => true
  | _ => false

mutual

/-- The value for these outputs; one that is not there is null. -/
def resolve (outputs : Outputs) : Binding → Json
  | literal v => v
  | output r => (r.lookup outputs).getD .null
  | interpolate parts => .string (String.join (parts.map (Part.resolve outputs)))
  | object fields => .object (resolveFields outputs fields)
  | array items => .array (resolveItems outputs items)

def resolveItems (outputs : Outputs) : List Binding → List Json
  | [] => []
  | b :: rest => resolve outputs b :: resolveItems outputs rest

def resolveFields (outputs : Outputs) : List (String × Binding) → List (String × Json)
  | [] => []
  | (key, b) :: rest => (key, resolve outputs b) :: resolveFields outputs rest

end

mutual

/-- The outputs that a binding reads, in the order in which they stand. -/
def references : Binding → List OutputRef
  | literal _ => []
  | output r => [r]
  | interpolate parts => parts.filterMap Part.reference?
  | object fields => fieldReferences fields
  | array items => itemReferences items

def itemReferences : List Binding → List OutputRef
  | [] => []
  | b :: rest => references b ++ itemReferences rest

def fieldReferences : List (String × Binding) → List OutputRef
  | [] => []
  | (_, b) :: rest => references b ++ fieldReferences rest

end

theorem resolveItems_eq_map (outputs : Outputs) (items : List Binding) :
    resolveItems outputs items = items.map (resolve outputs) := by
  induction items <;> simp_all [resolveItems]

theorem resolveFields_eq_map (outputs : Outputs) (fields : List (String × Binding)) :
    resolveFields outputs fields = fields.map fun kb => (kb.1, resolve outputs kb.2) := by
  induction fields <;> simp_all [resolveFields]

theorem itemReferences_eq_flatMap (items : List Binding) :
    itemReferences items = items.flatMap references := by
  induction items <;> simp_all [itemReferences]

theorem fieldReferences_eq_flatMap (fields : List (String × Binding)) :
    fieldReferences fields = fields.flatMap fun kb => references kb.2 := by
  induction fields <;> simp_all [fieldReferences]

end Binding

end Flowgraph
