import Flowgraph.Action

/-! Runs in the background, taking turns over one store. A turn lasts until the run or step has
to wait, and to sleep for no time is not to wait. The turns are taken in the order in which they
become due; time passes only when no turn is due. -/

namespace Flowgraph

/-- How a turn of a step ends. -/
inductive Work.Pause
  | ended (outcome : Outcome)
  | asleep (d : Duration) (rest : Work)
  /-- The gate is closed. -/
  | waiting (rest : Work)

/-- One turn of a step. -/
def Work.turn (service : Service σ) (gateOpen : Bool) (s : σ) : Work → Work.Pause × σ
  | done outcome => (.ended outcome, s)
  | call c next => let (r, s) := service.answer s c; (next r).turn service gateOpen s
  | sleep d next => if d.nanos = 0 then next.turn service gateOpen s else (.asleep d next, s)
  | await next => if gateOpen then next.turn service gateOpen s else (.waiting (.await next), s)

/-- A step that has been started. -/
inductive StepProgress
  | working (rest : Work)
  | ended (outcome : Outcome)

/-- A run: what it has yet to do, and the steps it has started since it last waited for any. -/
structure Job where
  rest : Action Unit
  steps : List StepProgress

def Job.outcomes? (steps : List StepProgress) : Option (List Outcome) :=
  steps.mapM fun
    | .ended outcome => some outcome
    | .working _ => none

/-- Whether it waits for its steps. -/
def Job.awaitsSteps (job : Job) : Bool :=
  match job.rest with
  | .join _ => true
  | _ => false

/-- Whose turn it is: that of a run, or of one of the steps it has started. -/
inductive Turn
  | run (job : Nat)
  | step (job : Nat) (place : Nat)
  deriving DecidableEq

structure Background (σ : Type) where
  state : σ
  elapsed : Nat
  gateOpen : Bool
  jobs : List Job
  /-- The turns that are due. -/
  due : List Turn
  /-- The sleepers, with the time at which they wake. -/
  asleep : List (Nat × Turn)
  atGate : List Turn
  /-- The steps that have been started, in order. -/
  started : List Invocation

namespace Background

variable {σ : Type}

def new (state : σ) : Background σ := ⟨state, 0, false, [], [], [], [], []⟩

/-- Starts a run. -/
def launch (b : Background σ) (run : Action Unit) : Background σ :=
  { b with jobs := b.jobs ++ [⟨run, []⟩], due := b.due ++ [.run b.jobs.length] }

/-- Opens the gate for good. -/
def release (b : Background σ) : Background σ :=
  { b with gateOpen := true, due := b.due ++ b.atGate, atGate := [] }

def setJob (b : Background σ) (i : Nat) (job : Job) : Background σ :=
  { b with jobs := b.jobs.set i job }

/-- One turn of a run. One that overflows never goes on. -/
def runTurn (service : Service σ) (i : Nat) (steps : List StepProgress) (b : Background σ) :
    Action Unit → Background σ
  | .done _ => b.setJob i ⟨.done (), steps⟩
  | .overflow => b.setJob i ⟨.overflow, steps⟩
  | .call c next =>
    let (r, state) := service.answer b.state c
    runTurn service i steps { b with state } (next r)
  | .now next =>
    let (t, state) := service.now b.state
    runTurn service i steps { b with state } (next t)
  | .sleep d next =>
    if d.nanos = 0 then runTurn service i steps b next
    else { b.setJob i ⟨next, steps⟩ with asleep := b.asleep ++ [(b.elapsed + d.nanos, .run i)] }
  | .warn _ next => runTurn service i steps b next
  | .spawn invocation w next =>
    runTurn service i (steps ++ [.working w])
      { b with due := b.due ++ [.step i steps.length], started := b.started ++ [invocation] }
      next
  | .join next =>
    match Job.outcomes? steps with
    | some outcomes => runTurn service i [] b (next outcomes)
    | none => b.setJob i ⟨.join next, steps⟩

/-- When a step ends, a run that waits for its steps looks whether it can go on. -/
def wake (b : Background σ) (i : Nat) (job : Job) : Background σ :=
  if job.awaitsSteps && !b.due.contains (.run i) then { b with due := b.due ++ [.run i] } else b

/-- One turn of the step at a place. -/
def stepTurn (service : Service σ) (i place : Nat) (job : Job) (b : Background σ) (w : Work) :
    Background σ :=
  let (pause, state) := w.turn service b.gateOpen b.state
  let b := { b with state }
  let update (p : StepProgress) : Job := { job with steps := job.steps.set place p }
  match pause with
  | .ended outcome => (b.setJob i (update (.ended outcome))).wake i job
  | .asleep d rest =>
    { b.setJob i (update (.working rest)) with
      asleep := b.asleep ++ [(b.elapsed + d.nanos, .step i place)] }
  | .waiting rest =>
    { b.setJob i (update (.working rest)) with atGate := b.atGate ++ [.step i place] }

def take (service : Service σ) (b : Background σ) : Turn → Background σ
  | .run i =>
    match b.jobs[i]? with
    | some job => b.runTurn service i job.steps job.rest
    | none => b
  | .step i place =>
    match b.jobs[i]? with
    | some job =>
      match job.steps[place]? with
      | some (.working w) => b.stepTurn service i place job w
      | _ => b
    | none => b

/-- The time at which the first sleeper wakes. -/
def nextWake (b : Background σ) : Option Nat := (b.asleep.map (·.1)).min?

/-- Lets time pass until sleepers wake. Of those that wake together the one that slept first
comes first. -/
def pass (b : Background σ) (t : Nat) : Background σ :=
  { b with
    elapsed := t
    due := b.due ++ (b.asleep.filter (·.1 ≤ t)).map (·.2)
    asleep := b.asleep.filter fun s => !(s.1 ≤ t) }

/-- Takes the next turn; `none` if all have ended or wait for the gate. -/
def turn? (service : Service σ) (b : Background σ) : Option (Background σ) :=
  match b.due with
  | t :: due => some ({ b with due }.take service t)
  | [] => b.nextWake.map b.pass

/-- Takes so many turns, or fewer if none is left. -/
def settle (service : Service σ) : (turns : Nat) → Background σ → Background σ
  | 0, b => b
  | turns + 1, b =>
    match b.turn? service with
    | some b => settle service turns b
    | none => b

end Background

end Flowgraph
