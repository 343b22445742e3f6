import Flowgraph.Code.Layout
import Flowgraph.Command.Arguments
import Flowgraph.Command.Directory
import Flowgraph.Command.Manifest
import Flowgraph.Graph.Codec
import Flowgraph.Tracker
import Flowgraph.Workflow

/-! What each command does, as a tree: reading and writing a file has a branch for every outcome.
The tree can be run on a directory that is given as a value. -/

namespace Flowgraph

/-- What a command leaves when it ends. -/
structure Ending where
  code : UInt32
  stdout : String
  stderr : String
  deriving DecidableEq

/-- What is done with a database once it is reached. -/
inductive DatabaseTask
  | migrate
  | serve (bind : SocketAddress) (registry : Registry) (config : TrackerConfig)

inductive Script
  | done (ending : Ending)
  /-- Reads a text; an error is given as text. -/
  | read (file : String) (next : Except String String → Script)
  /-- Writes a text; what is passed on is the error, if there is one. -/
  | write (file text : String) (next : Option String → Script)
  | withDatabase (config : Database.PoolConfig) (task : DatabaseTask) (failed : StoreError → Script)

/-- A failure that ends a command: what failed, and what lies behind it, the nearest cause
first. -/
structure Fatal where
  message : String
  causes : List String
  deriving DecidableEq

namespace Fatal

/-- Lines after the first are indented by as much as the first. -/
def indented (first rest text : String) : String := first ++ text.replace "\n" ("\n" ++ rest)

/-- One cause is indented; several are numbered. -/
def causesText : List String → String
  | [] => ""
  | [cause] => "\n\nCaused by:\n" ++ indented "    " "    " cause
  | causes =>
    "\n\nCaused by:\n" ++
      "\n".intercalate (causes.zipIdx.map fun (cause, i) =>
        let number := toString i
        indented (String.ofList (List.replicate (5 - number.length) ' ') ++ number ++ ": ")
          "       " cause)

def text (f : Fatal) : String := s!"Error: {f.message}{causesText f.causes}\n"

def ending (f : Fatal) : Ending := ⟨1, "", f.text⟩

end Fatal

namespace Command

def fail (message : String) (causes : List String) : Script :=
  .done (Fatal.ending ⟨message, causes⟩)

/-- Reads a file as JSON. -/
def readJson (decode : String → Except Json.DecodeError α) (file : String) (next : α → Script) :
    Script :=
  .read file fun
    | .error reason => fail s!"cannot read file {file}" [reason]
    | .ok text =>
      match decode text with
      | .error e => fail s!"invalid JSON in {file}" [e.message]
      | .ok a => next a

/-- The steps that are always there, and those of the manifest. -/
def withRegistry (manifest : Option String) (next : Registry → Script) : Script :=
  match Step.withBuiltins .empty with
  | .error e => fail e.message []
  | .ok registry =>
    match manifest with
    | none => next registry
    | some file =>
      readJson Manifest.ofText file fun declared =>
        match registry.registerAll (declared.map DeclaredStep.descriptor) with
        | .error e => fail e.message []
        | .ok registry => next registry

def validText (program : Program) : String :=
  s!"Workflow is valid: {program.nodes.length} node(s) in {program.stages.length} stage(s)\n" ++
    String.join (program.stages.map fun stage =>
      s!"  stage {stage.index}: " ++ ", ".intercalate stage.nodeIds ++ "\n")

def invalidText (violations : List Violation) : String :=
  s!"Validation failed with {violations.length} violation(s):\n" ++
    String.join (violations.map fun v => s!"  - {v.message}\n")

/-- The name of a file without its directories and its last extension. -/
def title (file : String) : String :=
  match ((file.splitOn "/").filter fun s => !s.isEmpty && s ≠ ".").getLast? with
  | none | some ".." => "workflow"
  | some name =>
    let cs := name.toList
    let extension := (cs.reverse.takeWhile (· ≠ '.')).reverse
    let stem := cs.take (cs.length - extension.length - 1)
    if stem.isEmpty then name else String.ofList stem

def connectionFailed (e : StoreError) : Script := fail "failed to connect to database" e.chain

def validateScript (file : String) (steps : Option String) : Script :=
  readJson Graph.ofText file fun graph =>
    withRegistry steps fun registry =>
      match graph.compile registry with
      | .ok program => .done ⟨0, validText program, ""⟩
      | .error violations => .done ⟨1, "", invalidText violations⟩

def compileScript (file : String) (output steps : Option String) : Script :=
  readJson Graph.ofText file fun graph =>
    withRegistry steps fun registry =>
      match graph.compile registry with
      | .error violations => fail (Violation.summary violations) []
      | .ok program =>
        let code := program.generate (title file)
        match output with
        | none => .done ⟨0, code, ""⟩
        | some out =>
          .write out code fun
            | none => .done ⟨0, "", ""⟩
            | some reason => fail s!"cannot write {out}" [reason]

def script : Command → Script
  | .validate file steps => validateScript file steps
  | .compile file output steps => compileScript file output steps
  | .migrate database => .withDatabase database .migrate connectionFailed
  | .serve bind database steps retries =>
    withRegistry steps fun registry =>
      let config := { TrackerConfig.default with maxLogRetries := retries }
      .withDatabase database (.serve bind registry config) connectionFailed

/-- What is shown in place of running a command. -/
def Interruption.ending (environment : List (String × String)) (i : Interruption) : Ending :=
  let text := String.ofList (visible .plain (i.message environment).toList)
  if i.isError then ⟨2, "", text⟩ else ⟨0, text, ""⟩

/-- The script of a command line. -/
def ofArguments (environment : List (String × String)) (arguments : List String) : Script :=
  match parse environment arguments with
  | .ok command => command.script
  | .error i => .done (i.ending environment)

end Command

/-- Runs a script in a directory, where `login` is what the database says when it is reached. -/
def Script.run (login : Except DatabaseFault Unit) (d : Command.Directory) :
    Script → Ending × Command.Directory
  | done ending => (ending, d)
  | read file next => (next ((d.read file).mapError Command.FileFault.message)).run login d
  | write file text next =>
    match d.write file text with
    | .ok d => (next none).run login d
    | .error fault => (next (some fault.message)).run login d
  | withDatabase config _ failed =>
    match config.open login with
    | .ok _ => (⟨0, "", ""⟩, d)
    | .error e => (failed e).run login d

end Flowgraph
