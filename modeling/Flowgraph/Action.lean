import Flowgraph.Duration
import Flowgraph.Run.State
import Flowgraph.Step.Result
import Flowgraph.Store.Fault

/-! What a run does, as a tree: each store call has a branch for every reply. The tree says
nothing about how a store replies or in what order several runs take turns. -/

namespace Flowgraph

/-- What a step does once it has started. -/
inductive Work
  | done (outcome : Outcome)
  | call (c : Call) (next : c.Reply → Work)
  | sleep (d : Duration) (next : Work)
  /-- Waits until the gate is open. -/
  | await (next : Work)

/-- A step that is started for a node. -/
structure Invocation where
  stepType : String
  node : String
  integrationId : Option String
  input : Fields Json
  deriving DecidableEq

inductive Action (α : Type)
  | done (a : α)
  | call (c : Call) (next : c.Reply → Action α)
  /-- Reads the clock. -/
  | now (next : Instant → Action α)
  | sleep (d : Duration) (next : Action α)
  /-- Notes that a node's move was refused. What follows does not depend on it. -/
  | warn (e : TransitionError) (next : Action α)
  /-- Starts a step beside what follows. -/
  | spawn (invocation : Invocation) (work : Work) (next : Action α)
  /-- Waits for all steps started since the last wait; outcomes stand in the order of starting. -/
  | join (next : List Outcome → Action α)
  /-- A counter has run past its width. -/
  | overflow

namespace Action

def bind (a : Action α) (f : α → Action β) : Action β :=
  match a with
  | done a => f a
  | call c next => call c fun r => (next r).bind f
  | now next => now fun t => (next t).bind f
  | sleep d next => sleep d (next.bind f)
  | warn e next => warn e (next.bind f)
  | spawn i w next => spawn i w (next.bind f)
  | join next => join fun os => (next os).bind f
  | overflow => overflow

instance : Monad Action where
  pure := done
  bind := bind

@[simp] theorem pure_eq (a : α) : (pure a : Action α) = done a := rfl

@[simp] theorem done_bind (a : α) (f : α → Action β) : (done a >>= f) = f a := rfl

theorem bind_assoc (a : Action α) (f : α → Action β) (g : β → Action γ) :
    (a.bind f).bind g = a.bind fun x => (f x).bind g := by
  induction a with
  | done | overflow => rfl
  | sleep _ _ ih | warn _ _ ih | spawn _ _ _ ih => simp [bind, ih]
  | call _ _ ih | now _ ih | join _ ih => simp [bind, ih]

/-- One call. -/
def ask (c : Call) : Action c.Reply := call c done

def clock : Action Instant := now done

def rest (d : Duration) : Action Unit := sleep d (done ())

def note (e : TransitionError) : Action Unit := warn e (done ())

def start (i : Invocation) (w : Work) : Action Unit := spawn i w (done ())

def outcomes : Action (List Outcome) := join done

end Action

/-- Something that answers store calls and tells the time. -/
structure Service (σ : Type) where
  answer : σ → (c : Call) → c.Reply × σ
  now : σ → Instant × σ

def World.service : Service World := ⟨World.answer, World.now⟩

/-- The state of one run that is performed by itself: what answers its calls, the time that has
passed, the steps started so far, and those that are not yet waited for with the time of their
start. -/
structure Progress (σ : Type) where
  state : σ
  elapsed : Nat
  started : List Invocation
  waiting : List (Nat × Work)

def Progress.new (state : σ) : Progress σ := ⟨state, 0, [], []⟩

/-- A step's outcome, the time of its end and the state after it. The gate is open. -/
def Work.perform (service : Service σ) (w : Work) (elapsed : Nat) (s : σ) : Outcome × Nat × σ :=
  match w with
  | done outcome => (outcome, elapsed, s)
  | call c next => let (r, s) := service.answer s c; (next r).perform service elapsed s
  | sleep d next => next.perform service (elapsed + d.nanos) s
  | await next => next.perform service elapsed s

/-- Performs steps that run side by side: the whole takes as long as the one that ends last. -/
def Work.performAll (service : Service σ) (elapsed : Nat) (s : σ) :
    List (Nat × Work) → List Outcome × Nat × σ
  | [] => ([], elapsed, s)
  | (began, w) :: rest =>
    let (outcome, ended, s) := w.perform service began s
    let (outcomes, elapsed, s) := performAll service (max elapsed ended) s rest
    (outcome :: outcomes, elapsed, s)

/-- Performs an action by itself. There is no result if a counter overflows. -/
def Action.perform (service : Service σ) (a : Action α) (p : Progress σ) :
    Option α × Progress σ :=
  match a with
  | done a => (some a, p)
  | call c next =>
    let (r, state) := service.answer p.state c
    (next r).perform service { p with state }
  | now next =>
    let (t, state) := service.now p.state
    (next t).perform service { p with state }
  | sleep d next => next.perform service { p with elapsed := p.elapsed + d.nanos }
  | warn _ next => next.perform service p
  | spawn i w next =>
    next.perform service
      { p with started := p.started ++ [i], waiting := p.waiting ++ [(p.elapsed, w)] }
  | join next =>
    let (outcomes, elapsed, state) := Work.performAll service p.elapsed p.state p.waiting
    (next outcomes).perform service { p with state, elapsed, waiting := [] }
  | overflow => (none, p)

end Flowgraph
