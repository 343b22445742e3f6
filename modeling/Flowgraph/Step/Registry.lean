import Flowgraph.Action

/-! Steps, what they declare and where they are found. -/

namespace Flowgraph

/-- Looks up the credentials of an integration; a lookup may fail. -/
abbrev Credentials := (integrationId : String) → Option (Fields String)

/-- What a step is told about the run it belongs to. -/
structure StepContext where
  workflow : Uuid
  execution : Uuid
  node : String
  integrationId : Option String
  credentials : Credentials

/-- A step reads its input and its context. -/
abbrev Step := Fields Json → StepContext → Work

structure InputField where
  name : String
  required : Bool
  deriving DecidableEq

structure StepDescriptor where
  stepType : String
  inputs : List InputField
  step : Step

def StepDescriptor.requiredInputs (d : StepDescriptor) : List String :=
  (d.inputs.filter (·.required)).map (·.name)

inductive RegistryError
  | notFound (stepType : String)
  | duplicate (stepType : String)
  deriving DecidableEq

def RegistryError.message : RegistryError → String
  | notFound stepType => s!"unknown step type: '{stepType}'"
  | duplicate stepType => s!"step type '{stepType}' is already registered"

/-- Descriptors in the order of registration, no two of one type. -/
structure Registry where
  descriptors : List StepDescriptor

namespace Registry

def empty : Registry := ⟨[]⟩

def find? (r : Registry) (stepType : String) : Option StepDescriptor :=
  r.descriptors.find? (·.stepType = stepType)

def resolve (r : Registry) (stepType : String) : Except RegistryError StepDescriptor :=
  match r.find? stepType with
  | some d => .ok d
  | none => .error (.notFound stepType)

def register (r : Registry) (d : StepDescriptor) : Except RegistryError Registry :=
  if (r.find? d.stepType).isSome then .error (.duplicate d.stepType)
  else .ok ⟨r.descriptors ++ [d]⟩

def registerAll (r : Registry) (ds : List StepDescriptor) : Except RegistryError Registry :=
  ds.foldlM register r

/-- All types in order. -/
def stepTypes (r : Registry) : List String := (r.descriptors.map (·.stepType)).mergeSort

theorem find?_stepType {r : Registry} {stepType : String} {d : StepDescriptor}
    (h : r.find? stepType = some d) : d.stepType = stepType := by
  simpa using List.find?_some h

end Registry

namespace Step

/-- Returns its input. -/
def echo : Step := fun input _ => .done (.returned (.success (.object input)))

/-- The only step that is always there. -/
def echoDescriptor : StepDescriptor := ⟨"echo", [], echo⟩

def withBuiltins (r : Registry) : Except RegistryError Registry := r.register echoDescriptor

end Step

/-- What a step says when it lacks credentials. -/
def credentialsMissing (provider : String) : String :=
  provider ++ " credentials are not configured. Please add them in Project Integrations."

/-- The credentials of the chosen integration. None chosen, a failed lookup and an empty set
are all alike. -/
def StepContext.requireCredentials (ctx : StepContext) (provider : String) :
    Except String (Fields String) :=
  match ctx.integrationId.bind ctx.credentials with
  | some (first :: rest) => .ok (first :: rest)
  | _ => .error (credentialsMissing provider)

/-- A table of credentials; what is not in it is empty. -/
def Credentials.ofTable (table : List (String × Fields String)) : Credentials :=
  fun integrationId => some ((table.lookup integrationId).getD [])

def Credentials.none : Credentials := ofTable []

end Flowgraph
