import Flowgraph.Step.Registry

/-! Steps for tests: each answers in one fixed way and remembers the inputs it was given. -/

namespace Flowgraph

inductive Mock.Behaviour
  | returns (data : Json)
  | fails (error : String)
  | panics (message : String)
  deriving DecidableEq

structure Mock where
  behaviour : Mock.Behaviour
  calls : List (Fields Json)
  deriving DecidableEq

namespace Mock

def Behaviour.outcome : Behaviour → Outcome
  | returns data => .returned (.success data)
  | fails error => .returned (.failure error)
  | panics message => .faulted (some message)

def new (behaviour : Behaviour) : Mock := ⟨behaviour, []⟩

/-- The input is remembered whatever comes of the call. -/
def invoke (m : Mock) (input : Fields Json) : Outcome × Mock :=
  (m.behaviour.outcome, { m with calls := m.calls ++ [input] })

def callCount (m : Mock) : Nat := m.calls.length

end Mock

namespace Step

def fixed (outcome : Outcome) : Step := fun _ _ => .done outcome

/-- Takes its time, then does as another step. -/
def delayed (d : Duration) (step : Step) : Step := fun input ctx => .sleep d (step input ctx)

/-- Waits for the gate, then does as another step. -/
def gated (step : Step) : Step := fun input ctx => .await (step input ctx)

/-- Stops its own run, whether or not the store lets it, then does as another step. -/
def stopping (step : Step) : Step := fun input ctx =>
  .call (.updateStatus ctx.execution .error true) fun _ => step input ctx

/-- Returns the credentials it asks for. -/
def credentialed (provider : String) : Step := fun _ ctx =>
  match ctx.requireCredentials provider with
  | .ok values =>
    .done (.returned (.success (.object (values.map fun (key, v) => (key, .string v)))))
  | .error message => .done (.returned (.failure message))

end Step

end Flowgraph
