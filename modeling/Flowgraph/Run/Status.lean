/-! The status of a run and of each of its nodes. -/

namespace Flowgraph

inductive RunStatus
  | pending
  | running
  | success
  | error
  deriving DecidableEq, Inhabited

namespace RunStatus

def text : RunStatus → String
  | pending => "pending"
  | running => "running"
  | success => "success"
  | error => "error"

def parse : String → Option RunStatus
  | "pending" => some pending
  | "running" => some running
  | "success" => some success
  | "error" => some error
  | _ => none

/-- What is said of a text that names no status. -/
def unknownMessage (text : String) : String := "unknown run status: " ++ text

/-- A final status never changes again. -/
def isTerminal : RunStatus → Bool
  | success | error => true
  | pending | running => false

def rank : RunStatus → Nat
  | pending => 0
  | running => 1
  | success | error => 2

/-- The second only if it is further on than the first. -/
def mostAdvanced (a b : RunStatus) : RunStatus := if a.rank < b.rank then b else a

/-- The status of the whole. One error makes an error; without nodes all have succeeded. -/
def derive (statuses : List RunStatus) : RunStatus :=
  if statuses.any (· = error) then error
  else if statuses.all (· = success) then success
  else if statuses.all (· = pending) then pending
  else running

theorem parse_text (s : RunStatus) : parse s.text = some s := by cases s <;> rfl

theorem isTerminal_iff {s : RunStatus} : s.isTerminal = true ↔ s = success ∨ s = error := by
  cases s <;> simp [isTerminal]

end RunStatus

end Flowgraph
