import Flowgraph.Command.Parameter

/-! The texts that the command line shows: how a command is used, help, and what is wrong with
the arguments. -/

namespace Flowgraph.Command

/-- What may have been meant by an argument that is not known. -/
inductive Tip
  | similar (p : Parameter)
  /-- That it is a value, which goes behind two dashes. -/
  | value (word : String)
  deriving DecidableEq

/-- What is wrong with the arguments of a command. The parameters that the usage line is to show
are given where there are any. -/
inductive UsageError
  | unexpected (word : String) (tip : Option Tip) (shown : List Parameter)
  | unexpectedValue (value : String) (p : Parameter) (shown : List Parameter)
  | noValue (p : Parameter)
  | repeated (p : Parameter)
  | badValue (value : String) (p : Parameter) (reason : String)
  | missing (ps shown : List Parameter)
  deriving DecidableEq

/-- Why there is no command to run. -/
inductive Interruption
  /-- No argument at all, which shows the overview as an error. -/
  | nothing
  | overview
  | version
  | help (verb : Verb)
  | unknownVerb (word : String) (similar : List String)
  | unknownOption (word : String)
  | misused (verb : Verb) (e : UsageError)
  deriving DecidableEq

/-! Usage lines -/

/-- Required parameters are shown always. Those given are shown after them; when there are none,
a word stands for all that may be given. -/
def Verb.usage (verb : Verb) (shown : List Parameter) : String :=
  let options := (verb.named.filter Parameter.required ++
    shown.filter (!·.isPositional)).eraseDups
  " ".intercalate (["Usage:", programName, verb.name] ++
    (if shown.isEmpty then ["[OPTIONS]"] else []) ++
    (options ++ verb.places).map Parameter.text)

def overallUsage : String := s!"Usage: {programName} <COMMAND>"

/-! Help -/

def blanks (n : Nat) : String := String.ofList (List.replicate n ' ')

/-- An entry of a list in a help text: its name, whose width is given apart, what is said of it,
and remarks on its values. -/
structure Entry where
  name : String
  width : Nat
  help : String
  remarks : String

def Entry.body (e : Entry) : String :=
  if e.help.isEmpty then e.remarks
  else if e.remarks.isEmpty then e.help
  else e.help ++ " " ++ e.remarks

/-- The column that follows the longest name. -/
def column (entries : List Entry) : Nat := (entries.map Entry.width).foldl max 2 + 4

/-- Lines after the first stand under the first. -/
def Entry.text (column : Nat) (e : Entry) : String :=
  let start := "  " ++ e.name
  start ++ blanks (column - start.length) ++ e.body.replace "\n" ("\n" ++ blanks column)

/-- What is said stands on a line of its own. -/
def Entry.textApart (e : Entry) : String :=
  "  " ++ e.name ++ "\n" ++ blanks 10 ++ e.body.replace "\n" ("\n" ++ blanks 10)

/-- How many columns a text fills. A control character and what follows it up to an `m` are taken
for a colour. -/
def columnsOf (text : String) : Nat :=
  (text.toList.foldl (fun (n, colour) c =>
    if c.toNat < 32 || c.toNat = 127 then (n, true)
    else if colour then (n, c ≠ 'm')
    else (n + 1, false)) (0, false)).1

/-- Columns of a line. -/
def lineWidth : Nat := 100

/-- Whether a help text is too long to begin in the given column. -/
def Entry.isCramped (column : Nat) (e : Entry) : Bool :=
  let start := column + 8
  start ≤ lineWidth && lineWidth * 2 < start * 5 &&
    lineWidth - start < columnsOf e.help + columnsOf e.remarks

def listing (title : String) (entries : List Entry) : String :=
  let column := column entries
  let cramped := entries.any (Entry.isCramped column)
  title ++ ":\n" ++ String.join (entries.map fun e =>
    (if cramped then e.textApart else e.text column) ++ "\n")

/-- An option shows which variable may give it, with the value that this has now, and what it is
by default. -/
def Parameter.entry (environment : List (String × String)) (p : Parameter) : Entry :=
  let remarks :=
    (p.source.map fun name =>
      let value := (environment.lookup name).getD ""
      s!"[env: {name}={value}]").toList ++
      (p.default.map fun value => s!"[default: {value}]").toList
  { name :=
      if p.isPositional then p.text
      else match p.short? with
        | some c => s!"-{c}, {p.text}"
        | none => "    " ++ p.text
    width := p.text.length + if p.isPositional then 0 else 4
    help := p.help
    remarks := " ".intercalate remarks }

def Verb.help (verb : Verb) (environment : List (String × String)) : String :=
  let entries (ps : List Parameter) := ps.map (Parameter.entry environment)
  verb.about ++ "\n\n" ++ verb.usage [] ++ "\n\n" ++
    (if verb.places.isEmpty then "" else listing "Arguments" (entries verb.places) ++ "\n") ++
    listing "Options" (entries verb.named)

def overview : String :=
  let entry (name help : String) : Entry := ⟨name, name.length, help, ""⟩
  "Workflow graph compiler and execution engine\n\n" ++ overallUsage ++ "\n\n" ++
    listing "Commands" (Verb.all.map (fun v => entry v.name v.about) ++
      [entry "help" "Print this message or the help of the given subcommand(s)"]) ++ "\n" ++
    listing "Options" [entry "-h, --help" "Print help", entry "-V, --version" "Print version"]

/-! Errors -/

def hint : String := "For more information, try '--help'.\n"

def Tip.message : Tip → String
  | similar p => s!"a similar argument exists: '--{p.name}'"
  | value word => s!"to pass '{word}' as a value, use '-- {word}'"

/-- A complaint, a tip if there is one, and the usage line if it helps. -/
def complaint (text : String) (tip usage : Option String) : String :=
  "\n\n".intercalate (["error: " ++ text] ++ (tip.map ("  tip: " ++ ·)).toList ++ usage.toList ++
    [hint])

def UsageError.message (verb : Verb) : UsageError → String
  | unexpected word tip shown =>
    complaint s!"unexpected argument '{word}' found" (tip.map Tip.message) (verb.usage shown)
  | unexpectedValue value p shown =>
    complaint s!"unexpected value '{value}' for '{p.text}' found; no more were expected" none
      (verb.usage shown)
  | noValue p =>
    complaint s!"a value is required for '{p.text}' but none was supplied" none none
  | repeated p =>
    complaint s!"the argument '{p.text}' cannot be used multiple times" none (verb.usage [])
  | badValue value p reason =>
    complaint s!"invalid value '{value}' for '{p.text}': {reason}" none none
  | missing ps shown =>
    complaint ("the following required arguments were not provided:" ++
      String.join (ps.map fun p => "\n  " ++ p.text)) none (verb.usage shown)

def similarVerbs : List String → Option String
  | [] => none
  | [name] => some s!"a similar subcommand exists: '{name}'"
  | names => some ("some similar subcommands exist: " ++
      ", ".intercalate (names.map fun name => s!"'{name}'"))

/-- What is shown in place of running a command. -/
def Interruption.message (environment : List (String × String)) : Interruption → String
  | nothing | overview => Command.overview
  | version => s!"{programName} {Command.version}\n"
  | help verb => verb.help environment
  | unknownVerb word similar =>
    complaint s!"unrecognized subcommand '{word}'" (similarVerbs similar) overallUsage
  | unknownOption word => complaint s!"unexpected argument '{word}' found" none overallUsage
  | misused verb e => e.message verb

/-- Showing what was asked for is no failure. -/
def Interruption.isError : Interruption → Bool
  | overview | version | help _ => false
  | nothing | unknownVerb .. | unknownOption _ | misused .. => true

/-! Terminals -/

/-- What stands in front of a character that is shown. -/
inductive Mode
  | plain
  | escaped
  /-- Within a control sequence, which a letter or a like character ends. -/
  | sequence

/-- What a message shows: control characters and control sequences are left out, blanks not. -/
def visible : Mode → List Char → List Char
  | _, [] => []
  | mode, c :: rest =>
    if c = '\t' || c = '\n' || c = '\x0c' || c = '\r' then c :: visible .plain rest
    else if c = '\x1b' then visible .escaped rest
    else
      match mode with
      | .plain =>
        if c.toNat < 32 || c.toNat = 127 then visible .plain rest else c :: visible .plain rest
      | .escaped => if c = '[' then visible .sequence rest else visible .plain rest
      | .sequence =>
        if 64 ≤ c.toNat ∧ c.toNat < 127 then visible .plain rest else visible .sequence rest

end Flowgraph.Command
