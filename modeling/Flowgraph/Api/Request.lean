import Flowgraph.Api.Failure
import Flowgraph.Api.MediaType
import Flowgraph.Text.Blank

/-! Requests and responses, and what is read off a request. -/

namespace Flowgraph.Api

structure Request where
  method : String
  /-- The path, perhaps with a query. -/
  target : String
  headers : List (String × String)
  body : String
  deriving DecidableEq

inductive Body
  | empty
  | json (v : Json)
  | text (s : String)
  deriving DecidableEq

structure Response where
  status : Nat
  body : Body
  deriving DecidableEq

def Failure.response (f : Failure) : Response := ⟨f.status, .json f.body⟩

namespace Request

/-- The first header of this name, whatever the case of its letters. -/
def header? (r : Request) (name : String) : Option String :=
  let lower (s : String) := s.toList.map Char.toLower
  (r.headers.find? fun h => lower h.1 = lower name).map (·.2)

def teamHeader : String := "x-team-id"

/-- The team that a request is made for. -/
def team (r : Request) : Except Failure Uuid :=
  match r.header? teamHeader with
  | some text =>
    match if MediaType.isVisible text then Uuid.parse (Text.trim text) else none with
    | some id => .ok id
    | none => .error .unauthorized
  | none => .error .unauthorized

end Request

/-- The body of a request for a new workflow. -/
structure NewWorkflow where
  name : String
  definition : Json
  deriving DecidableEq

/-- What has been read of it. -/
structure NewWorkflow.Draft where
  name : Option String
  definition : Option Json

def NewWorkflow.shape : Json.Shape NewWorkflow.Draft where
  name := "NewWorkflow"
  empty := ⟨none, none⟩
  members := [
    ⟨"name", true, (·.name.isSome), fun src d s => do
      return { s with name := some (← Json.Document.toText src d) }⟩,
    ⟨"definition", true, (·.definition.isSome), fun src d s => do
      return { s with definition := some (← Json.Document.toJson src d) }⟩]

def NewWorkflow.decode : Json.Decoder NewWorkflow := fun src d =>
  (NewWorkflow.shape.decode src d).map fun s => ⟨s.name.getD "", s.definition.getD .null⟩

/-- Bytes that a body may have. -/
def longestBody : Nat := 2097152

/-- Reads the body, which must be declared as JSON. -/
def NewWorkflow.ofRequest (r : Request) : Except Response NewWorkflow :=
  if !((r.header? "content-type").any MediaType.isJson) then
    .error ⟨415, .text "expected a request with a JSON content type"⟩
  else if longestBody < r.body.utf8ByteSize then
    .error ⟨413, .text "the request body is too long"⟩
  else
    match NewWorkflow.decode.ofText r.body with
    | .ok new => .ok new
    | .error e =>
      .error ⟨if e.isShape then 422 else 400, .text ("cannot read the request body: " ++ e.message)⟩

end Flowgraph.Api
