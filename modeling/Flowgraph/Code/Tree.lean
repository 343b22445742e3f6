import Flowgraph.Code.Name

/-! Generated code as a tree: a function for every node, and one that calls them stage by
stage. -/

namespace Flowgraph.Code

/-- A place in the value of a variable. -/
structure Pick where
  name : String
  path : List String
  deriving DecidableEq

inductive Piece
  | text (s : String)
  | picked (p : Pick)

inductive Expr
  | text (s : String)
  /-- A null, a boolean or a number. -/
  | scalar (v : Json)
  /-- An array or object, read from its text. -/
  | parsed (v : Json)
  | pick (p : Pick)
  | concat (pieces : List Piece)
  | object (fields : List (String × Expr))
  | array (items : List Expr)

/-- Calls the step of one node. -/
structure StepFunction where
  name : String
  nodeId : String
  stepType : String
  stage : Nat
  params : List String
  integrationId : Option String
  inputs : List (String × Expr)

/-- Binds the output of one node. -/
structure StepCall where
  name : String
  nodeId : String
  arguments : List String

structure StageBlock where
  index : Nat
  calls : List StepCall

structure Listing where
  title : String
  functions : List StepFunction
  stages : List StageBlock

/-- What stands for a node that has no name. -/
def noValue : String := "&Value::Null"

def Pick.ofRef (names : Names) (r : OutputRef) : Pick :=
  ⟨(names.lookup r.node).getD noValue, r.path.segments⟩

def Piece.ofPart (names : Names) : Part → Piece
  | .text s => .text s
  | .output r => .picked (.ofRef names r)

def Expr.ofLiteral : Json → Expr
  | .string s => .text s
  | .array items => .parsed (.array items)
  | .object fields => .parsed (.object fields)
  | v => .scalar v

mutual

def Expr.ofBinding (names : Names) : Binding → Expr
  | .literal v => .ofLiteral v
  | .output r => .pick (.ofRef names r)
  | .interpolate parts => .concat (parts.map (Piece.ofPart names))
  | .object fields => .object (ofBindingFields names fields)
  | .array items => .array (ofBindings names items)

def Expr.ofBindings (names : Names) : List Binding → List Expr
  | [] => []
  | b :: rest => Expr.ofBinding names b :: Expr.ofBindings names rest

def Expr.ofBindingFields (names : Names) : List (String × Binding) → List (String × Expr)
  | [] => []
  | (key, b) :: rest => (key, Expr.ofBinding names b) :: Expr.ofBindingFields names rest

end

/-- The nodes whose outputs a node reads, in the order of the program. -/
def producers (p : Program) (node : CompiledNode) : List String :=
  let read := (Binding.fieldReferences node.inputs).map (·.node)
  (p.nodeIds).filter (· ∈ read)

def StepFunction.ofNode (p : Program) (names : Names) (node : CompiledNode) : StepFunction where
  name := names.of node.id
  nodeId := node.id
  stepType := node.stepType
  stage := node.stage
  params := (producers p node).map names.of
  integrationId := node.integrationId
  inputs := Expr.ofBindingFields names node.inputs

def StepCall.ofNode (p : Program) (names : Names) (node : CompiledNode) : StepCall where
  name := names.of node.id
  nodeId := node.id
  arguments := (producers p node).map names.of

def Listing.ofProgram (p : Program) (title : String) : Listing :=
  let names := Names.ofProgram p
  { title
    functions := p.nodes.map (StepFunction.ofNode p names)
    stages := p.stages.map fun stage =>
      ⟨stage.index, (p.stageNodes stage).map (StepCall.ofNode p names)⟩ }

end Flowgraph.Code
