import Flowgraph.Code.Prelude
import Flowgraph.Code.Tree
import Flowgraph.Text.Quoted

/-! The text of generated code, line by line. -/

namespace Flowgraph.Code

open Text (quote)

def Pick.text (p : Pick) : String :=
  "pick(" ++ p.name ++ ", &[" ++ ", ".intercalate (p.path.map quote) ++ "])"

def stringOf (s : String) : String := "String::from(" ++ quote s ++ ")"

def Piece.source : Piece → String
  | text s => stringOf s
  | picked p => "text(&" ++ p.text ++ ")"

mutual

def Expr.source : Expr → String
  | .text s => "Value::from(" ++ quote s ++ ")"
  | .scalar v => "json!(" ++ v.text ++ ")"
  | .parsed v => "lit(" ++ quote v.text ++ ")"
  | .pick p => p.text
  | .concat pieces =>
    "Value::String([" ++ ", ".intercalate (pieces.map Piece.source) ++ "].concat())"
  | .object fields =>
    "\x7b let mut m = Map::new(); " ++ String.join (fieldSources fields) ++ "Value::Object(m) \x7d"
  | .array items => "Value::Array(vec![" ++ ", ".intercalate (itemSources items) ++ "])"

def Expr.itemSources : List Expr → List String
  | [] => []
  | e :: rest => e.source :: itemSources rest

def Expr.fieldSources : List (String × Expr) → List String
  | [] => []
  | (key, e) :: rest => ("m.insert(" ++ stringOf key ++ ", " ++ e.source ++ "); ") :: fieldSources rest

end

def indent (line : String) : String := "    " ++ line

namespace StepFunction

def signature (f : StepFunction) : String :=
  "pub async fn step_" ++ f.name ++ "(registry: &StepRegistry, ctx: &RuntimeContext" ++
    String.join (f.params.map fun p => ", " ++ p ++ ": &Value") ++
    ") -> Result<Value, String> \x7b"

def integrationLine (f : StepFunction) : String :=
  match f.integrationId with
  | some id => "ctx.integration_id = Some(" ++ stringOf id ++ ");"
  | none => "ctx.integration_id = None;"

def inputLine (input : String × Expr) : String :=
  "input.insert(" ++ stringOf input.1 ++ ", " ++ input.2.source ++ ");"

def lines (f : StepFunction) : List String :=
  ["/// Node " ++ quote f.nodeId ++ " (" ++ f.stepType ++ "), stage " ++ toString f.stage ++ ".",
    f.signature] ++
  (["let mut ctx = ctx.clone();", "ctx.node_id = " ++ stringOf f.nodeId ++ ";",
    f.integrationLine, "let mut input = Map::new();"] ++
    f.inputs.map inputLine ++
    ["invoke(registry, &ctx, " ++ quote f.stepType ++ ", input).await"]).map indent ++
  ["\x7d"]

end StepFunction

def StepCall.lines (c : StepCall) : List String :=
  ["let " ++ c.name ++ " = step_" ++ c.name ++ "(registry, ctx" ++
      String.join (c.arguments.map (", &" ++ ·)) ++ ").await?;",
    "outputs.insert(" ++ stringOf c.nodeId ++ ", " ++ c.name ++ ".clone());"]

def StageBlock.lines (b : StageBlock) : List String :=
  ("// Stage " ++ toString b.index) :: b.calls.flatMap StepCall.lines

namespace Listing

/-- Line breaks in a title are made blanks. -/
def oneLine (title : String) : String :=
  title.map fun c => if c = '\r' ∨ c = '\n' then ' ' else c

def headerLines (u : Listing) : List String :=
  ["// Workflow: " ++ oneLine u.title,
    "// Generated by rusty-automation-tool: " ++ toString u.stages.length ++ " stage(s), " ++
      toString u.functions.length ++ " node(s). Do not edit."]

def runLines (u : Listing) : List String :=
  ["/// Run every node in stage order; stops at the first failing node.",
    "pub async fn run_workflow(registry: &StepRegistry, ctx: &RuntimeContext)" ++
      " -> Result<Map<String, Value>, String> \x7b"] ++
  (["let mut outputs = Map::new();"] ++ u.stages.flatMap StageBlock.lines ++
    ["Ok(outputs)"]).map indent ++
  ["\x7d"]

def lines (u : Listing) : List String :=
  u.headerLines ++ [""] ++ preludeLines ++
    u.functions.flatMap (fun f => "" :: f.lines) ++ [""] ++ u.runLines

def text (u : Listing) : String := String.join (u.lines.map (· ++ "\n"))

end Listing

end Flowgraph.Code

namespace Flowgraph

/-- The code of a compiled workflow. The title stands in its header only. -/
def Program.generate (p : Program) (title : String) : String := (Code.Listing.ofProgram p title).text

end Flowgraph
