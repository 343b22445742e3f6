/-! The commands of the program, and what each of them takes. -/

namespace Flowgraph.Command

def programName : String := "rusty-automation-tool"

def version : String := "0.1.0"

inductive Style
  | positional
  /-- A value follows the name; a single letter may stand for the name. -/
  | option (short : Option Char)
  /-- No value follows. -/
  | switch (short : Char)
  deriving DecidableEq

/-- What a value has to be. -/
inductive ValueKind
  | text
  | file
  | number
  | address
  deriving DecidableEq

structure Parameter where
  name : String
  label : String
  style : Style
  kind : ValueKind
  help : String
  /-- The variable of the environment that may give it. -/
  source : Option String
  default : Option String
  required : Bool
  deriving DecidableEq

namespace Parameter

def isPositional (p : Parameter) : Bool := p.style = .positional

def short? (p : Parameter) : Option Char :=
  match p.style with
  | .positional => none
  | .option short => short
  | .switch short => some short

def text (p : Parameter) : String :=
  match p.style with
  | .positional => s!"<{p.label}>"
  | .option _ => s!"--{p.name} <{p.label}>"
  | .switch _ => s!"--{p.name}"

def bind : Parameter where
  name := "bind"
  label := "BIND"
  style := .option none
  kind := .address
  help := ""
  source := some "BIND_ADDR"
  default := some "0.0.0.0:8080"
  required := false

def databaseUrl : Parameter where
  name := "database-url"
  label := "DATABASE_URL"
  style := .option none
  kind := .text
  help := ""
  source := some "DATABASE_URL"
  default := none
  required := true

def maxConnections : Parameter where
  name := "max-connections"
  label := "MAX_CONNECTIONS"
  style := .option none
  kind := .number
  help := ""
  source := some "DATABASE_MAX_CONNECTIONS"
  default := some "10"
  required := false

def steps : Parameter where
  name := "steps"
  label := "STEPS"
  style := .option none
  kind := .file
  help := "JSON manifest of extra step types: " ++
    "`[\x7b\"type\": \"email\", \"requiredInputs\": [\"to\"]\x7d]`"
  source := some "STEP_MANIFEST"
  default := none
  required := false

def logWriteRetries : Parameter where
  name := "log-write-retries"
  label := "LOG_WRITE_RETRIES"
  style := .option none
  kind := .number
  help := "Retries for a failed execution-log write"
  source := some "LOG_WRITE_RETRIES"
  default := some "3"
  required := false

def output : Parameter where
  name := "output"
  label := "OUTPUT"
  style := .option (some 'o')
  kind := .file
  help := "Write the generated source here instead of stdout"
  source := none
  default := none
  required := false

/-- The graph file, with what is said of it. -/
def path (help : String) : Parameter where
  name := "path"
  label := "PATH"
  style := .positional
  kind := .file
  help := help
  source := none
  default := none
  required := true

def graphToValidate : Parameter :=
  path "Path to the graph JSON file (`\x7b\"nodes\": [...], \"edges\": [...]\x7d`)"

def graphToCompile : Parameter := path ""

def helpSwitch : Parameter where
  name := "help"
  label := ""
  style := .switch 'h'
  kind := .text
  help := "Print help"
  source := none
  default := none
  required := false

end Parameter

/-- What the program can be told to do. -/
inductive Verb
  | serve
  | migrate
  | validate
  | compile
  deriving DecidableEq

namespace Verb

def all : List Verb := [serve, migrate, validate, compile]

def name : Verb → String
  | serve => "serve"
  | migrate => "migrate"
  | validate => "validate"
  | compile => "compile"

def ofName? (s : String) : Option Verb := all.find? (·.name = s)

def about : Verb → String
  | serve => "Start the REST API server"
  | migrate => "Run pending database migrations"
  | validate => "Validate a workflow graph JSON file and print its stages"
  | compile => "Compile a workflow graph JSON file into Rust source"

def parameters : Verb → List Parameter
  | serve => [.bind, .databaseUrl, .maxConnections, .steps, .logWriteRetries]
  | migrate => [.databaseUrl, .maxConnections]
  | validate => [.graphToValidate, .steps]
  | compile => [.graphToCompile, .output, .steps]

def places (v : Verb) : List Parameter := v.parameters.filter Parameter.isPositional

/-- What a command takes by name; all of them show help. -/
def named (v : Verb) : List Parameter :=
  v.parameters.filter (!·.isPositional) ++ [.helpSwitch]

/-- All variables of the environment that can give a parameter. -/
def sources : List String := ((all.flatMap parameters).filterMap Parameter.source).eraseDups

end Verb

end Flowgraph.Command
