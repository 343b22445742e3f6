import Flowgraph.Json.Decode
import Flowgraph.Step.Mock

/-! Manifests: further step types that a graph may name, with the inputs that they take. -/

namespace Flowgraph

open Json

structure DeclaredStep where
  stepType : String
  requiredInputs : List String
  optionalInputs : List String
  deriving DecidableEq

namespace DeclaredStep

/-- What has been read of a declared step. -/
structure Draft where
  stepType : Option String
  requiredInputs : Option (List String)
  optionalInputs : Option (List String)

def shape : Shape Draft where
  name := "DeclaredStepType"
  empty := ⟨none, none, none⟩
  members := [
    ⟨"type", true, (·.stepType.isSome), fun src d s => do
      return { s with stepType := some (← Document.toText src d) }⟩,
    ⟨"requiredInputs", false, (·.requiredInputs.isSome), fun src d s => do
      return { s with requiredInputs := some (← Document.toList Document.toText src d) }⟩,
    ⟨"optionalInputs", false, (·.optionalInputs.isSome), fun src d s => do
      return { s with optionalInputs := some (← Document.toList Document.toText src d) }⟩]

def decode : Decoder DeclaredStep := fun src d =>
  (shape.decode src d).map fun s =>
    ⟨s.stepType.getD "", s.requiredInputs.getD [], s.optionalInputs.getD []⟩

/-- A declared step cannot run. -/
def unavailable (stepType : String) : String :=
  s!"step type '{stepType}' is declared but not available in this deployment"

/-- The required inputs stand first. -/
def descriptor (d : DeclaredStep) : StepDescriptor where
  stepType := d.stepType
  inputs := d.requiredInputs.map (⟨·, true⟩) ++ d.optionalInputs.map (⟨·, false⟩)
  step := Step.fixed (.returned (.failure (unavailable d.stepType)))

end DeclaredStep

def Manifest.ofText (text : String) : Except DecodeError (List DeclaredStep) :=
  (Document.toList DeclaredStep.decode : Decoder (List DeclaredStep)).ofText text

end Flowgraph
