import Flowgraph.Program

/-! Names for the variables and functions of generated code, one for each node. -/

namespace Flowgraph.Code

/-- Names that generated code uses for its own. -/
def reserved : List String :=
  ["registry", "ctx", "input", "outputs", "pick", "text", "lit", "invoke", "json", "m"]

/-- Words that cannot be names. -/
def keywords : List String :=
  ["as", "async", "await", "break", "const", "continue", "crate", "dyn", "else", "enum", "extern",
   "false", "fn", "for", "gen", "if", "impl", "in", "let", "loop", "match", "mod", "move", "mut",
   "pub", "ref", "return", "self", "static", "struct", "super", "trait", "true", "try", "type",
   "unsafe", "use", "where", "while", "abstract", "become", "box", "do", "final", "macro",
   "override", "priv", "typeof", "unsized", "virtual", "yield", "union"]

def nameChar (c : Char) : Char := if c.isAlphanum then c.toLower else '_'

/-- An id with everything but letters and digits made a low line; none stands at either end. -/
def stripped (id : String) : List Char :=
  (((id.toList.map nameChar).dropWhile (· == '_')).reverse.dropWhile (· == '_')).reverse

def baseName (id : String) : String :=
  let core := match stripped id with
    | [] => "node"
    | c :: cs => if c.isDigit then "n_" ++ String.ofList (c :: cs) else String.ofList (c :: cs)
  if core ∈ keywords then core ++ "_" else core

/-- The base, or the base with the first number from two that makes it free. Of so many
different names one is not taken. -/
def freeName (taken : List String) (base : String) : String :=
  let numbered := (List.range taken.length).map fun n => base ++ "_" ++ toString (n + 2)
  ((base :: numbered).find? (· ∉ taken)).getD base

/-- Names by node id. -/
abbrev Names := List (String × String)

def assignNames : (taken : List String) → List String → Names
  | _, [] => []
  | taken, id :: rest =>
    let name := freeName taken (baseName id)
    (id, name) :: assignNames (name :: taken) rest

def Names.ofProgram (p : Program) : Names := assignNames reserved p.nodeIds

/-- The name of a node. -/
def Names.of (names : Names) (id : String) : String := (names.lookup id).getD ""

end Flowgraph.Code
