import Flowgraph.Run.Status

/-! The statuses of the nodes of one run. A node goes from pending to running and from running
to success or error; any other move is refused. -/

namespace Flowgraph

inductive TransitionError
  | unknownNode (id : String)
  | invalid (id : String) (current next : RunStatus)
  deriving DecidableEq

def TransitionError.message : TransitionError → String
  | unknownNode id => s!"node '{id}' is not part of this run"
  | invalid id current next => s!"node '{id}' cannot move from {current.text} to {next.text}"

/-- The ids in the order of the program, and one status for each id. -/
structure RunState where
  order : List String
  statuses : List (String × RunStatus)
  deriving DecidableEq

namespace RunState

def new (ids : List String) : RunState := ⟨ids, ids.eraseDups.map (·, .pending)⟩

def status? (run : RunState) (id : String) : Option RunStatus := run.statuses.lookup id

def set (run : RunState) (id : String) (status : RunStatus) : RunState :=
  { run with statuses := run.statuses.map fun (k, s) => (k, if k = id then status else s) }

def move (run : RunState) (id : String) (current next : RunStatus) :
    Except TransitionError RunState :=
  match run.status? id with
  | none => .error (.unknownNode id)
  | some s => if s = current then .ok (run.set id next) else .error (.invalid id s next)

def begin (run : RunState) (id : String) : Except TransitionError RunState :=
  run.move id .pending .running

def finish (run : RunState) (id : String) (succeeded : Bool) : Except TransitionError RunState :=
  run.move id .running (if succeeded then .success else .error)

def overall (run : RunState) : RunStatus := .derive (run.statuses.map (·.2))

/-- The statuses in the order of the program. -/
def snapshot (run : RunState) : List (String × RunStatus) :=
  run.order.filterMap fun id => (run.status? id).map (id, ·)

end RunState

end Flowgraph
