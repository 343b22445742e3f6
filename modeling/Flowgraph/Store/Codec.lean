import Flowgraph.Json.Decode
import Flowgraph.Store.Row

/-! Workflow rows as JSON. Identifiers and times are texts; the definition may be any value. -/

namespace Flowgraph

open Json

def Uuid.decode : Decoder Uuid := fun src d => do
  let s ← Document.toText src d
  match Uuid.parse s with
  | some id => return id
  | none => throw (.invalidValue (.string s) (.described "an identifier"))

def Instant.decode : Decoder Instant := fun src d => do
  let s ← Document.toText src d
  match Instant.parse s with
  | some t => return t
  | none => throw (.invalidValue (.string s) (.described "a time"))

/-- What has been read of a workflow row. -/
structure WorkflowRow.Draft where
  id : Option Uuid
  team : Option Uuid
  name : Option String
  definition : Option Json
  createdAt : Option Instant

def WorkflowRow.shape : Shape WorkflowRow.Draft where
  name := "WorkflowRow"
  empty := ⟨none, none, none, none, none⟩
  members := [
    ⟨"id", true, (·.id.isSome), fun src d s => do
      return { s with id := some (← Uuid.decode src d) }⟩,
    ⟨"teamId", true, (·.team.isSome), fun src d s => do
      return { s with team := some (← Uuid.decode src d) }⟩,
    ⟨"name", true, (·.name.isSome), fun src d s => do
      return { s with name := some (← Document.toText src d) }⟩,
    ⟨"definition", true, (·.definition.isSome), fun src d s => do
      return { s with definition := some (← Document.toJson src d) }⟩,
    ⟨"createdAt", true, (·.createdAt.isSome), fun src d s => do
      return { s with createdAt := some (← Instant.decode src d) }⟩]

def WorkflowRow.Draft.row (d : WorkflowRow.Draft) : WorkflowRow :=
  ⟨d.id.getD .nil, d.team.getD .nil, d.name.getD "", d.definition.getD .null,
    d.createdAt.getD default⟩

def WorkflowRow.decode : Decoder WorkflowRow := fun src d =>
  (WorkflowRow.shape.decode src d).map WorkflowRow.Draft.row

def WorkflowRow.ofJson (v : Json) : Except DecodeError WorkflowRow := WorkflowRow.decode.ofJson v

end Flowgraph
