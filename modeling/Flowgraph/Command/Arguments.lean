import Flowgraph.Command.Usage
import Flowgraph.Database.Pool
import Flowgraph.SocketAddress
import Flowgraph.Text.Similarity

/-! Reading the command line. A parameter may also be given by a variable of the environment; an
argument wins over it. -/

namespace Flowgraph

inductive Command
  | serve (bind : SocketAddress) (database : Database.PoolConfig) (steps : Option String)
      (logWriteRetries : UInt32)
  | migrate (database : Database.PoolConfig)
  | validate (path : String) (steps : Option String)
  | compile (path : String) (output steps : Option String)

namespace Command

/-! Values -/

inductive NumberFault
  | empty
  | invalidDigit
  | tooLarge
  | tooSmall
  | outOfRange (n : Int)
  deriving DecidableEq

def NumberFault.message : NumberFault → String
  | empty => "cannot parse integer from empty string"
  | invalidDigit => "invalid digit found in string"
  | tooLarge => "number too large to fit in target type"
  | tooSmall => "number too small to fit in target type"
  | outOfRange n => s!"{n} is not in 0..=4294967295"

/-- Goes on with a number of 64 bits; the first character that spoils it decides. -/
def readDigits (negative : Bool) (n : Int) : List Char → Except NumberFault Int
  | [] => .ok n
  | c :: cs =>
    let digit : Int := c.toNat - 48
    let next := if negative then n * 10 - digit else n * 10 + digit
    if !c.isDigit then .error .invalidDigit
    else if next < -(UInt64.size / 2 : Nat) then .error .tooSmall
    else if (UInt64.size / 2 : Nat) ≤ next then .error .tooLarge
    else readDigits negative next cs

/-- One sign may stand in front of the digits. -/
def readInteger (text : String) : Except NumberFault Int :=
  match text.toList with
  | [] => .error .empty
  | ['+'] | ['-'] => .error .invalidDigit
  | '+' :: cs => readDigits false 0 cs
  | '-' :: cs => readDigits true 0 cs
  | cs => readDigits false 0 cs

namespace Parameter

def readNumber (p : Parameter) (value : String) : Except UsageError UInt32 :=
  match readInteger value with
  | .error fault => .error (.badValue value p fault.message)
  | .ok n =>
    if 0 ≤ n ∧ n < UInt32.size then .ok (.ofNat n.toNat)
    else .error (.badValue value p (NumberFault.outOfRange n).message)

def readAddress (p : Parameter) (value : String) : Except UsageError SocketAddress :=
  match SocketAddress.parse value with
  | some address => .ok address
  | none => .error (.badValue value p "invalid socket address syntax")

/-- A file has a name. -/
def readFile (p : Parameter) (value : String) : Except UsageError String :=
  if value.isEmpty then .error (.noValue p) else .ok value

def check (p : Parameter) (value : String) : Except UsageError Unit :=
  match p.kind with
  | .text => .ok ()
  | .file => (p.readFile value).map fun _ => ()
  | .number => (p.readNumber value).map fun _ => ()
  | .address => (p.readAddress value).map fun _ => ()

end Parameter

/-! Words -/

/-- What is known before the next word. -/
structure Reading where
  given : List (Parameter × String)
  /-- The last parameter met, with its value if that has come: it is taken when the next begins. -/
  pending : Option (Parameter × Option String)
  /-- The positional parameters that are still to come. -/
  places : List Parameter
  /-- All further words are positional. -/
  closed : Bool

namespace Reading

def start (verb : Verb) : Reading := ⟨[], none, verb.places, false⟩

def taken (r : Reading) : List Parameter := r.given.map (·.1)

def isGiven (r : Reading) (p : Parameter) : Bool := r.taken.contains p

/-- Takes a value. That there is none counts before that there are two, and that before what it
is. -/
def take (r : Reading) (p : Parameter) : Option String → Except UsageError Reading
  | none => .error (.noValue p)
  | some value =>
    if r.isGiven p then .error (.repeated p)
    else (p.check value).map fun _ => { r with given := r.given ++ [(p, value)] }

/-- Takes what is pending. -/
def settle (r : Reading) : Except UsageError Reading :=
  match r.pending with
  | none => .ok r
  | some (p, value) => { r with pending := none }.take p value

/-- What counts as given when reading ends at a word that is not known: what is pending too, if it
has a value, good or bad. A second value undoes the first. -/
def met (r : Reading) : List Parameter :=
  match r.pending with
  | some (p, some _) => if r.isGiven p then r.taken.erase p else r.taken ++ [p]
  | _ => r.taken

def isOptional (p : Parameter) : Bool := !p.required

/-- Why reading ends before the last word. -/
inductive Stop
  | help
  | misused (e : UsageError)

def settled (r : Reading) : Except Stop Reading := r.settle.mapError .misused

def takeNow (r : Reading) (p : Parameter) (value : String) : Except Stop Reading := do
  ((← r.settled).take p value).mapError .misused

def await (r : Reading) (p : Parameter) : Except Stop Reading :=
  return { ← r.settled with pending := some (p, none) }

/-- Help is shown unless what is pending is wrong. -/
def showHelp (r : Reading) : Except Stop Reading := do
  let _ ← r.settled
  throw .help

/-- A name that is not known may be a slip, or a value where the command has places for such. -/
def unknownName (verb : Verb) (r : Reading) (name : String) : UsageError :=
  let word := "--" ++ name
  let meant := (Text.alike name (verb.named.map Parameter.name)).getLast?.bind fun likely =>
    verb.named.find? (·.name = likely)
  match meant with
  | some p => .unexpected word (some (.similar p)) (r.met ++ [p])
  | none => .unexpected word (if verb.places.isEmpty then none else some (.value word)) r.met

/-- Two dashes and a name, with or without an equals sign and a value. -/
def long (verb : Verb) (r : Reading) (name : String) (value : Option String) :
    Except Stop Reading :=
  match verb.named.find? (·.name = name) with
  | none => throw (.misused (r.unknownName verb name))
  | some p =>
    match p.style, value with
    | .switch _, none => r.showHelp
    | .switch _, some value =>
      throw (.misused (.unexpectedValue value p (r.taken.filter isOptional ++ [p])))
    | _, some value => r.takeNow p value
    | _, none => r.await p

/-- A dash and a letter. What follows the letter is its value; an equals sign between them is not
part of it. -/
def short (verb : Verb) (r : Reading) (letter : Char) (rest : List Char) : Except Stop Reading :=
  match verb.named.find? (·.short? = some letter) with
  | none =>
    let word := String.ofList ['-', letter]
    let tip := if verb.places.isEmpty then none else some (Tip.value word)
    throw (.misused (.unexpected word tip []))
  | some p =>
    match p.style, rest with
    | .switch _, _ => r.showHelp
    | _, [] => r.await p
    | _, '=' :: value | _, value => r.takeNow p (String.ofList value)

def place (r : Reading) (word : String) : Except Stop Reading :=
  match r.places with
  | [] => throw (.misused (.unexpected word none []))
  | p :: places => return { ← r.settled with pending := some (p, some word), places }

/-- A word that is no name: the value that is awaited, or else a positional one. -/
def plain (r : Reading) (word : String) : Except Stop Reading :=
  match r.pending with
  | some (p, none) => .ok { r with pending := some (p, some word) }
  | _ => r.place word

def word (verb : Verb) (r : Reading) (word : String) : Except Stop Reading :=
  if r.closed then r.place word
  else
    match word.toList with
    | ['-', '-'] => .ok { r with closed := true }
    | '-' :: '-' :: cs =>
      let name := cs.takeWhile (· ≠ '=')
      let value := (cs.drop name.length).tail?
      r.long verb (String.ofList name) (value.map String.ofList)
    | '-' :: c :: cs => r.short verb c cs
    | _ => r.plain word

/-- Takes from the environment what no argument has given. -/
def takeVariable (environment : List (String × String)) (r : Reading) (p : Parameter) :
    Except UsageError Reading :=
  match p.source.bind fun name => environment.lookup name with
  | some value => if r.isGiven p then .ok r else r.take p (some value)
  | none => .ok r

/-- Fills in from the environment; nothing that is required may then be missing. -/
def complete (verb : Verb) (environment : List (String × String)) (r : Reading) :
    Except UsageError Reading := do
  let r ← verb.parameters.foldlM (takeVariable environment) (← r.settle)
  let missing := verb.parameters.filter fun p => p.required && !r.isGiven p
  if missing.isEmpty then return r
  else throw (.missing missing (r.taken.filter isOptional ++ missing))

def ofWords (verb : Verb) (environment : List (String × String)) (words : List String) :
    Except Stop Reading := do
  let r ← words.foldlM (word verb) (start verb)
  (r.complete verb environment).mapError .misused

/-- What a parameter has been given, or else what it is by default. -/
def value? (r : Reading) (p : Parameter) : Option String := (r.given.lookup p).or p.default

end Reading

/-! Commands -/

section

variable (r : Reading)

def file? (p : Parameter) : Except UsageError (Option String) :=
  (r.value? p).mapM p.readFile

def text (p : Parameter) : String := (r.value? p).getD ""

def pool : Except UsageError Database.PoolConfig :=
  return .new (text r .databaseUrl) (← Parameter.maxConnections.readNumber (text r .maxConnections))

def ofReading : Verb → Except UsageError Command
  | .serve => do
    let bind ← Parameter.bind.readAddress (text r .bind)
    let retries ← Parameter.logWriteRetries.readNumber (text r .logWriteRetries)
    return .serve bind (← pool r) (← file? r .steps) retries
  | .migrate => return .migrate (← pool r)
  | .validate => return .validate (text r .graphToValidate) (← file? r .steps)
  | .compile =>
    return .compile (text r .graphToCompile) (← file? r .output) (← file? r .steps)

end

/-- The command of a verb and the words that follow it. -/
def ofWords (verb : Verb) (environment : List (String × String)) (words : List String) :
    Except Interruption Command :=
  match Reading.ofWords verb environment words with
  | .error .help => .error (.help verb)
  | .error (.misused e) => .error (.misused verb e)
  | .ok r => (ofReading r verb).mapError (.misused verb)

/-- A word that stands where a verb is due. -/
def unknownVerb (word : String) : Interruption :=
  .unknownVerb word (Text.alike word (Verb.all.map Verb.name ++ ["help"]))

/-- Help on what a word names. -/
def helpOn (word : String) : Interruption :=
  match Verb.ofName? word with
  | some verb => .help verb
  | none => unknownVerb word

/-- Reads a command line, given the variables of the environment that are set. -/
def parse (environment : List (String × String)) : List String → Except Interruption Command
  | [] => .error .nothing
  | word :: words =>
    match Verb.ofName? word with
    | some verb => ofWords verb environment words
    | none =>
      .error (
        if word = "help" then (words.head?.map helpOn).getD .overview
        else if word = "--help" ∨ word = "-h" then .overview
        else if word = "--version" ∨ word = "-V" then .version
        else if word.startsWith "-" ∧ word ≠ "-" then .unknownOption word
        else unknownVerb word)

end Command

end Flowgraph
