import Flowgraph.Json.Document
import Flowgraph.Json.Printer
import Flowgraph.Text.Quoted

/-! Reading typed data from a document. Problems are found in the order of the document; the
fields of a structure may be named, or stand in a list in their order. -/

namespace Flowgraph.Json

/-- What stands where something else was expected. -/
inductive Found
  | null
  | bool (b : Bool)
  | number (n : Number)
  | string (s : String)
  | sequence
  | map
  deriving DecidableEq

inductive Expected
  | string
  | sequence
  | map
  | record (name : String)
  /-- A structure written as a list that is too short. -/
  | elements (name : String) (count : Nat)
  /-- A list that has not so many items. -/
  | fewerElements
  | described (text : String)
  deriving DecidableEq

inductive DecodeError
  | malformed (m : Malformation)
  | invalidType (found : Found) (expected : Expected)
  | invalidLength (length : Nat) (expected : Expected)
  | missingField (name : String)
  | duplicateField (name : String)
  | invalidValue (found : Found) (expected : Expected)
  deriving DecidableEq

def Found.text : Found → String
  | null => "null"
  | bool b => s!"boolean `{b}`"
  | number (.whole n) => s!"integer `{n}`"
  | number (.real x) => "floating point `" ++ x.text ++ "`"
  | string s => "string " ++ Text.quote s
  | sequence => "sequence"
  | map => "map"

def Expected.text : Expected → String
  | string => "a string"
  | sequence => "a sequence"
  | map => "a map"
  | record name => "struct " ++ name
  | elements name count => s!"struct {name} with {count} elements"
  | fewerElements => "fewer elements in array"
  | described text => text

def DecodeError.message : DecodeError → String
  | malformed m => m.message
  | invalidType found expected => s!"invalid type: {found.text}, expected {expected.text}"
  | invalidLength length expected => s!"invalid length {length}, expected {expected.text}"
  | missingField name => s!"missing field `{name}`"
  | duplicateField name => s!"duplicate field `{name}`"
  | invalidValue found expected => s!"invalid value: {found.text}, expected {expected.text}"

/-- Whether the problem lies in the shape of the data and not in its spelling. -/
def DecodeError.isShape : DecodeError → Bool
  | malformed _ => false
  | _ => true

/-- Where a document comes from: how many levels may still be opened, and what is reported when
a structure written as a list has too many items. -/
structure Source where
  depth : Option Nat
  surplus : (length : Nat) → DecodeError

/-- A text may nest 127 levels deep. -/
def Source.text : Source := ⟨some 127, fun _ => .malformed .trailingText⟩

def Source.value : Source := ⟨none, fun length => .invalidLength length .fewerElements⟩

def Source.enter (src : Source) : Except DecodeError Source :=
  match src.depth with
  | none => .ok src
  | some 0 => .error (.malformed .tooDeep)
  | some (depth + 1) => .ok { src with depth := some depth }

/-- A value that something is read from. -/
abbrev Decoder (α : Type) := Source → Document → Except DecodeError α

namespace Document

/-- The error for a document of another type than expected. -/
def mismatch (expected : Expected) : Document → DecodeError
  | null => .invalidType .null expected
  | bool b => .invalidType (.bool b) expected
  | number (some n) => .invalidType (.number n) expected
  | number none => .malformed .numberTooLarge
  | string (.ok s) => .invalidType (.string s) expected
  | string (.error m) => .malformed m
  | array _ _ => .invalidType .sequence expected
  | object _ _ => .invalidType .map expected
  | broken stop => .malformed stop.wanted

def close (stop : Option Break) (a : α) : Except DecodeError α :=
  match stop with
  | none => .ok a
  | some stop => .error (.malformed stop.wanted)

def spelled (s : Spelling) : Except DecodeError String := s.mapError .malformed

mutual

/-- Any value. Of a repeated name the last value counts. -/
def toJson : Decoder Json
  | _, null => .ok .null
  | _, bool b => .ok (.bool b)
  | _, number (some n) => .ok (.number n)
  | _, number none => .error (.malformed .numberTooLarge)
  | _, string s => (spelled s).map .string
  | src, array items stop => do
    let src ← src.enter
    let items ← toItems src items
    close stop (.array items)
  | src, object fields stop => do
    let src ← src.enter
    let fields ← toFields src fields
    close stop (.object (Fields.ofList fields))
  | _, broken stop => .error (.malformed stop.wanted)

def toItems (src : Source) : List Document → Except DecodeError (List Json)
  | [] => .ok []
  | d :: rest => do
    let v ← toJson src d
    let rest ← toItems src rest
    return v :: rest

def toFields (src : Source) : List (Spelling × Document) → Except DecodeError (List (String × Json))
  | [] => .ok []
  | (key, d) :: rest => do
    let key ← spelled key
    let v ← toJson src d
    let rest ← toFields src rest
    return (key, v) :: rest

end

def toText : Decoder String
  | _, string s => spelled s
  | _, d => .error (d.mismatch .string)

/-- Text or null. -/
def toText? : Decoder (Option String)
  | _, null => .ok none
  | src, d => (toText src d).map some

/-- The fields of an object, in the order of their names. -/
def toMap : Decoder (Fields Json)
  | src, object fields stop => do
    let src ← src.enter
    let fields ← toFields src fields
    close stop (Fields.ofList fields)
  | _, d => .error (d.mismatch .map)

def toList (item : Decoder α) : Decoder (List α)
  | src, array items stop => do
    let src ← src.enter
    let items ← items.mapM (item src)
    close stop items
  | _, d => .error (d.mismatch .sequence)

end Document

/-- One field of a structure that is being read into `σ`. -/
structure Member (σ : Type) where
  name : String
  required : Bool
  isRead : σ → Bool
  read : Source → Document → σ → Except DecodeError σ

structure Shape (σ : Type) where
  name : String
  empty : σ
  members : List (Member σ)

namespace Shape

variable {σ : Type} (shape : Shape σ)

/-- Fields by name. A name that the structure does not have is passed over. -/
def readNamed (src : Source) : List (Spelling × Document) → σ → Except DecodeError σ
  | [], s => .ok s
  | (key, d) :: rest, s => do
    let key ← Document.spelled key
    match shape.members.find? (·.name = key) with
    | none =>
      match d.skip with
      | some m => .error (.malformed m)
      | none => readNamed src rest s
    | some m =>
      if m.isRead s then .error (.duplicateField key)
      else readNamed src rest (← m.read src d s)

/-- Fields by position; what is left over is returned. -/
def readListed (src : Source) (stop : Option Break) (position : Nat) :
    List (Member σ) → List Document → σ → Except DecodeError (σ × List Document)
  | [], items, s => .ok (s, items)
  | m :: ms, [], s =>
    match stop with
    | some stop => .error (.malformed stop.wanted)
    | none =>
      if m.required then
        .error (.invalidLength position (.elements shape.name shape.members.length))
      else readListed src stop (position + 1) ms [] s
  | m :: ms, d :: items, s => do
    let s ← m.read src d s
    readListed src stop (position + 1) ms items s

def missing (s : σ) : Option String :=
  (shape.members.find? fun m => m.required && !m.isRead s).map (·.name)

def decode : Decoder σ
  | src, .object fields stop => do
    let src ← src.enter
    let s ← shape.readNamed src fields shape.empty
    let s ← Document.close stop s
    match shape.missing s with
    | some name => .error (.missingField name)
    | none => return s
  | src, .array items stop => do
    let inner ← src.enter
    let (s, rest) ← shape.readListed inner stop 0 shape.members items shape.empty
    match rest, stop with
    | [], none => return s
    | [], some stop => .error (.malformed stop.closing)
    | _ :: _, _ => .error (src.surplus items.length)
  | _, d => .error (d.mismatch (.record shape.name))

end Shape

/-- Reads a whole text. -/
def Decoder.ofText (decoder : Decoder α) (text : String) : Except DecodeError α := do
  let (document, more) := Document.read text
  let a ← decoder .text document
  if more then .error (.malformed .trailingText) else return a

/-- Reads a value. -/
def Decoder.ofJson (decoder : Decoder α) (v : Json) : Except DecodeError α :=
  decoder .value (Document.ofJson v)

/-- The value of a text. -/
def parse (text : String) : Except DecodeError Json := Decoder.ofText Document.toJson text

end Flowgraph.Json
