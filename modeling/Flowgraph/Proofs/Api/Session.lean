import Flowgraph.Api.Service
import Flowgraph.Proofs.Executor.Crew
import Flowgraph.Proofs.Store.Twins

/-! Requests that are served side by side over one store, each with the run that it starts. A
schedule says whose turn it is, and gives the clock and the identifier that the turn may use: what
comes of it is then fixed. -/

namespace Flowgraph

/-- One turn of a step. -/
def Work.act (supply : Supply) (s : MemoryStore) : Work → StepProgress × MemoryStore
  | done outcome => (.ended outcome, s)
  | call c next => (.working (next (s.answer supply c).1), (s.answer supply c).2.1)
  | sleep _ next => (.working next, s)
  | await next => (.working next, s)

theorem Work.Silent.act {w : Work} (hw : w.Silent) (supply : Supply) (s : MemoryStore) :
    w.act supply s = (w.goOn, s) := by
  cases w with
  | call => exact hw.elim
  | done | sleep | await => rfl

namespace Action

variable {α β : Type} {m n : Nat} {a : Action α}

/-- It comes to its end within so many calls, and does nothing else. -/
inductive Within : Nat → Action α → Prop
  | done {n r} : Within n (.done r)
  | call {n c next} : (∀ r, Within n (next r)) → Within (n + 1) (.call c next)

theorem Within.mono (h : Within m a) (hn : m ≤ n) : Within n a := by
  induction h generalizing n with
  | done => exact .done
  | call _ ih =>
    obtain ⟨n, rfl⟩ := Nat.exists_eq_add_of_le' ((Nat.le_add_left 1 _).trans hn)
    exact .call fun r => ih r (Nat.le_of_succ_le_succ hn)

theorem Within.bind {f : α → Action β} (h : Within m a) (hf : ∀ r, Within n (f r)) :
    Within (n + m) (a.bind f) := by
  induction h with
  | done => exact (hf _).mono (Nat.le_add_right _ _)
  | call _ ih => exact .call ih

end Action

namespace Underway

variable {α : Type}

/-- A turn of the run itself. It waits as long as some of its steps have not ended. -/
def go (supply : Supply) (s : MemoryStore) (j : Underway α) : Underway α × MemoryStore :=
  match j.rest with
  | .done _ | .overflow => (j, s)
  | .call c next => ({ j with rest := next (s.answer supply c).1 }, (s.answer supply c).2.1)
  | .now next => ({ j with rest := next supply.now.1 }, s)
  | .sleep _ next => ({ j with rest := next }, s)
  | .warn _ next => ({ j with rest := next }, s)
  | .spawn _ w next => (⟨next, j.steps ++ [.working w]⟩, s)
  | .join next =>
    match Job.outcomes? j.steps with
    | some outcomes => (⟨next outcomes, []⟩, s)
    | none => (j, s)

/-- A turn of the step at a place, or of the run itself. -/
def turn (place : Option Nat) (supply : Supply) (s : MemoryStore) (j : Underway α) :
    Underway α × MemoryStore :=
  match place with
  | none => j.go supply s
  | some k =>
    match j.steps[k]? with
    | some (.working w) =>
      ({ j with steps := j.steps.set k (w.act supply s).1 }, (w.act supply s).2)
    | _ => (j, s)

end Underway

namespace Api

/-- A response as it is sent: to a request for the head alone it has no body. -/
def sent (r : Request) (response : Response) : Response :=
  if r.method = "HEAD" then ⟨response.status, .empty⟩ else response

/-- The answer that is sent in the end. -/
def final (r : Request) : Except Failure Answer → Answer
  | .ok answer => ⟨sent r answer.response, answer.run⟩
  | .error f => ⟨sent r f.response, none⟩

theorem serve_of {x : Executor} {r : Request} {team : Uuid} {operation : Operation}
    (hop : Operation.ofRequest r = .ok operation) (hteam : r.team = .ok team) :
    serve x r = (perform x team operation).bind fun result => .done (final r result) := by
  unfold serve handle
  simp only [hop, hteam]
  rw [Action.bind_assoc]
  congr 1
  funext result
  cases result <;> dsimp only [Action.bind, final, sent] <;> split <;> rfl

theorem serve_of_error {x : Executor} {r : Request} {response : Response}
    (hop : Operation.ofRequest r = .error response) : ∃ answer, serve x r = .done answer ∧
      answer.run = none := by
  unfold serve handle
  simp only [hop, Action.bind]
  split <;> exact ⟨_, rfl, rfl⟩

section

variable {x : Executor} {team id : Uuid} {α : Type} {n : Nat}

theorem within_ask {c : Call} {next : c.Answer → Handled} (h : ∀ a, (next a).Within n) :
    (ask c next).Within (n + 1) := by
  refine .call fun r => ?_
  cases r with
  | ok a => exact h a
  | error e => exact .done

theorem within_read {a : Action (Except AccessError α)} {next : α → Handled} (ha : a.Within n)
    (h : ∀ r, (next r).Within 0) : (read a next).Within n := by
  refine (ha.bind fun r => ?_).mono (Nat.zero_add n).le
  cases r with
  | ok r => exact h r
  | error e => exact .done

theorem within_ownedWorkflow {next : WorkflowRow → Handled} (h : ∀ row, (next row).Within n) :
    (ownedWorkflow id team next).Within (n + 1) := by
  refine within_ask fun row => ?_
  split
  · exact h row
  · exact .done

theorem within_compiled {next : Workflow → Program → Handled}
    (h : ∀ w program, (next w program).Within n) : (compiled x id team next).Within (n + 1) := by
  refine within_ownedWorkflow fun row => ?_
  cases Workflow.ofRow row with
  | error e => exact .done
  | ok w =>
    dsimp only
    split
    · exact h _ _
    · exact .done

/-- An execution is looked up, then its owner; one more call can follow. -/
theorem within_owned {f : Except AccessError ExecutionRow → Action (Except AccessError α)}
    (h : ∀ r, (f r).Within 1) : ((Tracker.ownedExecution id team).bind f).Within 3 := by
  refine Action.Within.bind (m := 2) ?_ h
  refine .call fun r => ?_
  cases r with
  | error e => exact .done
  | ok row =>
    refine .call fun r => ?_
    cases r <;> exact .done

theorem within_perform (operation : Operation) : (perform x team operation).Within 3 := by
  cases operation with
  | createWorkflow new =>
    change (createWorkflow team new).Within 3
    unfold createWorkflow
    dsimp only
    split
    · exact .done
    · split
      · exact .done
      · exact within_ask fun _ => .done
  | listWorkflows => exact within_ask fun _ => .done
  | getWorkflow id => exact within_ownedWorkflow fun _ => .done
  | deleteWorkflow id => exact within_ownedWorkflow fun _ => within_ask fun _ => .done
  | workflowCode id => exact within_compiled fun _ _ => .done
  | execute id => exact within_compiled fun _ _ => within_ask fun _ => .done
  | stop id | executionLogs id | nodeStatuses id =>
    refine within_read (within_owned fun r => ?_) fun _ => .done
    cases r with
    | error e => exact .done
    | ok row =>
      refine .call fun r => ?_
      cases r <;> exact .done

/-- No request makes more than three calls. -/
theorem within_serve (r : Request) : (serve x r).Within 3 := by
  cases hop : Operation.ofRequest r with
  | error response =>
    obtain ⟨answer, hserve, -⟩ := serve_of_error (x := x) hop
    exact hserve ▸ .done
  | ok operation =>
    cases hteam : r.team with
    | error f =>
      unfold serve handle
      simp only [hop, hteam, Action.bind]
      exact .done
    | ok team =>
      rw [serve_of hop hteam]
      exact (within_perform operation).bind (n := 0) fun _ => .done

end

/-- A request that is being served, or its answer with the run that it has started. -/
inductive Exchange
  | serving (j : Underway Answer)
  | answered (response : Response) (run : Option (Underway ExecutionReport))

namespace Exchange

def response? : Exchange → Option Response
  | serving j =>
    match j.rest with
    | .done answer => some answer.response
    | _ => none
  | answered response _ => some response

/-- The run starts when the request has been answered. -/
def turn (place : Option Nat) (supply : Supply) (s : MemoryStore) :
    Exchange → Exchange × MemoryStore
  | serving j =>
    match j.rest with
    | .done answer => (answered answer.response (answer.run.map (⟨·, []⟩)), s)
    | _ => (serving (j.turn place supply s).1, (j.turn place supply s).2)
  | answered response none => (answered response none, s)
  | answered response (some j) =>
    (answered response (some (j.turn place supply s).1), (j.turn place supply s).2)

/-- The response comes within so many calls. -/
def Due (n : Nat) : Exchange → Prop
  | serving j => j.steps = [] ∧ j.rest.Within n
  | answered _ _ => True

variable {n : Nat} {e : Exchange}

theorem Due.responds (h : e.Due 0) : ∃ response, e.response? = some response := by
  cases e with
  | answered response run => exact ⟨response, rfl⟩
  | serving j =>
    obtain ⟨rest, steps⟩ := j
    obtain ⟨rfl, hrest⟩ := h
    cases hrest with
    | done => exact ⟨_, rfl⟩

theorem Due.turn (h : e.Due n) (place : Option Nat) (supply : Supply) (s : MemoryStore) :
    (e.turn place supply s).1.Due (if place = none then n - 1 else n) := by
  cases e with
  | answered response run => cases run <;> trivial
  | serving j =>
    obtain ⟨rest, steps⟩ := j
    obtain ⟨rfl, hrest⟩ := h
    cases hrest with
    | done => trivial
    | call hnext =>
      cases place with
      | none => exact ⟨rfl, hnext _⟩
      | some k => exact ⟨rfl, .call hnext⟩

end Exchange

end Api

/-- Whose turn it is: that of a request or of the run that it has started, or that of a step. -/
structure Slot (ι : Type) where
  who : ι
  place : Option Nat
  supply : Supply

/-- It is the turn of the request. -/
def Slot.serves {ι : Type} [DecidableEq ι] (i : ι) (slot : Slot ι) : Bool :=
  slot.who = i ∧ slot.place = none

/-- Requests and the store that they share. -/
structure Session (ι : Type) where
  store : MemoryStore
  exchange : ι → Api.Exchange

namespace Session

variable {ι : Type}

def start (x : Executor) (request : ι → Api.Request) (store : MemoryStore) : Session ι :=
  ⟨store, fun i => .serving ⟨Api.serve x (request i), []⟩⟩

/-- The response to a request, once there is one. -/
def response? (m : Session ι) (i : ι) : Option Api.Response := (m.exchange i).response?

variable [DecidableEq ι]

def turn (m : Session ι) (slot : Slot ι) : Session ι where
  store := ((m.exchange slot.who).turn slot.place slot.supply m.store).2
  exchange := Function.update m.exchange slot.who
    ((m.exchange slot.who).turn slot.place slot.supply m.store).1

def after (m : Session ι) (schedule : List (Slot ι)) : Session ι := schedule.foldl turn m

@[simp] theorem after_nil (m : Session ι) : m.after [] = m := rfl

theorem after_snoc (m : Session ι) (schedule : List (Slot ι)) (slot : Slot ι) :
    m.after (schedule ++ [slot]) = (m.after schedule).turn slot := by
  simp [after]

/-- Whatever turns the others take, a request is answered after so many turns of its own. -/
theorem due_after {x : Executor} {request : ι → Api.Request} {i : ι} {n : Nat}
    (h : (Api.serve x (request i)).Within n) (store : MemoryStore) (schedule : List (Slot ι)) :
    (((start x request store).after schedule).exchange i).Due
      (n - schedule.countP (Slot.serves i)) := by
  induction schedule using List.reverseRecOn with
  | nil => exact ⟨rfl, h⟩
  | append_singleton schedule slot ih =>
    rw [after_snoc, List.countP_append, List.countP_singleton, Slot.serves, turn]
    by_cases hi : slot.who = i
    · subst hi
      have hturn := ih.turn slot.place slot.supply ((start x request store).after schedule).store
      by_cases hplace : slot.place = none
      · simpa [hplace, Nat.sub_sub] using hturn
      · simpa [hplace] using hturn
    · simpa [hi, Function.update_of_ne (Ne.symm hi)] using ih

theorem answered_after (x : Executor) (request : ι → Api.Request) (store : MemoryStore)
    (schedule : List (Slot ι)) {i : ι} (h : 3 ≤ schedule.countP (Slot.serves i)) :
    ∃ response, ((start x request store).after schedule).response? i = some response := by
  have hdue := due_after (Api.within_serve (x := x) (request i)) store schedule
  rw [Nat.sub_eq_zero_of_le h] at hdue
  exact hdue.responds

end Session

namespace TwinStores

open Api

variable (V : TwinStores)

/-- A run under way, for an execution outside the part. -/
def Drives (j : Underway ExecutionReport) : Prop :=
  ∃ (errand : Errand) (h : List Event), errand.ids.execution ∉ V.part.executions ∧
    Underway.Tracks errand.drive h j ∧
    ∀ entry row, .called (.insertLog entry) (.ok row) ∈ h → row.id ∉ V.part.logs

/-- A run that is about to start, for an execution outside the part. -/
def Starts (run : Action ExecutionReport) : Prop :=
  ∃ errand : Errand, errand.ids.execution ∉ V.part.executions ∧ run = errand.drive

variable {V}

theorem Starts.drives {run : Action ExecutionReport} (h : V.Starts run) : V.Drives ⟨run, []⟩ := by
  obtain ⟨errand, hid, rfl⟩ := h
  exact ⟨errand, [], hid, Underway.tracks_start _, by simp⟩

section

variable {j j' : Underway ExecutionReport}

/-- It makes no call about rows of the part. -/
theorem Drives.avoids (h : V.Drives j) {c : Call} {next : c.Reply → Action ExecutionReport}
    (hc : j.rest = .call c next) : c.Avoids V.part V.team := by
  obtain ⟨errand, h, hid, htracks, hlogs⟩ := h
  have hpath := htracks.path
  rw [hc] at hpath
  have hallowed := (Executor.orderly_of_path errand.layered
    (hpath.trans (.call (.error .notFound) .refl))).allowed
  cases c with
  | createWorkflow | getWorkflow | listWorkflows | deleteWorkflow | createExecution
  | workflowTeam => exact hallowed.elim
  | getExecution e | listLogs e =>
    obtain rfl : e = errand.ids.execution := hallowed
    exact hid
  | updateStatus e status finished =>
    obtain rfl : e = errand.ids.execution := hallowed.1
    exact hid
  | insertLog entry =>
    obtain ⟨n, -, -, -, t, rfl⟩ := hallowed
    exact hid
  | completeLog target completion =>
    obtain ⟨node, r, t, -, -, htarget⟩ := hallowed
    cases target with
    | row id =>
      obtain ⟨entry, row, hrow, -, rfl⟩ := htarget
      exact hlogs entry row hrow
    | latest e n =>
      obtain rfl : e = errand.ids.execution := htarget.1
      exact hid

theorem Drives.goes (h : V.Drives j) {e : Event} (hg : j.Goes e j')
    (hrow : ∀ entry row, e = .called (.insertLog entry) (.ok row) → row.id ∉ V.part.logs) :
    V.Drives j' := by
  obtain ⟨errand, h, hid, htracks, hlogs⟩ := h
  refine ⟨errand, h ++ [e], hid, htracks.goes hg errand.silent_of_path, fun entry row hmem => ?_⟩
  rcases List.mem_append.1 hmem with hmem | hmem
  · exact hlogs entry row hmem
  · exact hrow entry row (List.mem_singleton.1 hmem).symm

variable {s s' : MemoryStore} {supply : Supply}

theorem Drives.go (h : V.Drives j) (hs : V.Alike s s') (hf : V.part.Lacks supply.fresh.1) :
    (j.go supply s').1 = (j.go supply s).1 ∧ V.Drives (j.go supply s).1 ∧
      V.Alike (j.go supply s).2 (j.go supply s').2 := by
  have hquiet : ∀ {j' e}, j.Goes e j' → (∀ c r, e ≠ .called c r) → V.Drives j' :=
    fun hg he => h.goes hg fun entry row heq => absurd heq (he _ _)
  obtain ⟨rest, steps⟩ := j
  cases rest with
  | done | overflow => exact ⟨rfl, h, hs⟩
  | call c next =>
    have hc := h.avoids rfl
    obtain ⟨hreply, halike⟩ := hs.answer hc hf
    have hfits := MemoryStore.answer_fits hs.left_parted hc hf
    refine ⟨by simp only [Underway.go, hreply], h.goes (.call (s.answer supply c).1) ?_, halike⟩
    intro entry row heq
    obtain ⟨rfl, hr⟩ := Event.called.inj heq
    rw [eq_of_heq hr] at hfits
    exact hfits
  | now next => exact ⟨rfl, hquiet (.now _) (by simp), hs⟩
  | sleep => exact ⟨rfl, hquiet .sleep (by simp), hs⟩
  | warn => exact ⟨rfl, hquiet .warn (by simp), hs⟩
  | spawn => exact ⟨rfl, hquiet .spawn (by simp), hs⟩
  | join next =>
    simp only [Underway.go]
    cases hos : Job.outcomes? steps with
    | none => exact ⟨rfl, h, hs⟩
    | some os => exact ⟨rfl, hquiet (.join hos) (by simp), hs⟩

/-- A turn of a run, or of one of its steps, comes to the same over both stores. -/
theorem Drives.turn (h : V.Drives j) (hs : V.Alike s s') (hf : V.part.Lacks supply.fresh.1)
    (place : Option Nat) :
    (j.turn place supply s').1 = (j.turn place supply s).1 ∧ V.Drives (j.turn place supply s).1 ∧
      V.Alike (j.turn place supply s).2 (j.turn place supply s').2 := by
  cases place with
  | none => exact h.go hs hf
  | some k =>
    simp only [Underway.turn]
    cases hk : j.steps[k]? with
    | none => exact ⟨rfl, h, hs⟩
    | some p =>
      cases p with
      | ended => exact ⟨rfl, h, hs⟩
      | working w =>
        obtain ⟨errand, past, hid, htracks, hlogs⟩ := h
        have hw := htracks.silent hk
        simp only [hw.act]
        exact ⟨trivial, ⟨errand, past, hid, htracks.works (.step hk hw.goes), hlogs⟩, hs⟩

end

variable (V) in
/-- A request and its run, over both stores. -/
inductive Matched (P : Call → Prop) (G : Answer → Prop) : Exchange → Exchange → Prop
  | serving {a a'} : V.Twin P G a a' → Matched P G (.serving ⟨a, []⟩) (.serving ⟨a', []⟩)
  | answered {answer} : G answer → answer.run = none →
    Matched P G (.answered answer.response none) (.answered answer.response none)
  | running {answer run j} : G answer → answer.run = some run → V.Drives j →
    Matched P G (.answered answer.response (some j)) (.answered answer.response (some j))

section

variable {P : Call → Prop} {G : Answer → Prop} {e e' : Exchange}

theorem Matched.response?_eq (h : V.Matched P G e e') : e'.response? = e.response? := by
  cases h with
  | serving hT => cases hT <;> rfl
  | answered | running => rfl

theorem Matched.of_response? (h : V.Matched P G e e') {response : Response}
    (hr : e.response? = some response) : ∃ answer, G answer ∧ answer.response = response := by
  cases h with
  | answered hG | running hG => exact ⟨_, hG, Option.some.inj hr⟩
  | serving hT =>
    cases hT with
    | done hG => exact ⟨_, hG, Option.some.inj hr⟩
    | ours | workflow | execution | owner => cases hr

variable {s s' : MemoryStore} {supply : Supply}

variable (V) in
/-- After a turn of both they match again. The store stays as it is unless such a call can be made or
such a run can have been started. -/
structure Advances (P : Call → Prop) (G : Answer → Prop) (s : MemoryStore)
    (next next' : Exchange × MemoryStore) : Prop where
  matched : V.Matched P G next.1 next'.1
  alike : V.Alike next.2 next'.2
  still : (∃ c, P c) ∨ (∃ answer run, G answer ∧ answer.run = some run) ∨ next.2 = s

theorem Matched.turn (h : V.Matched P G e e') (hs : V.Alike s s')
    (hf : V.part.Lacks supply.fresh.1) (hP : ∀ c, P c → c.Avoids V.part V.team)
    (hG : ∀ answer, G answer → ∀ run, answer.run = some run → V.Starts run)
    (place : Option Nat) :
    V.Advances P G s (e.turn place supply s) (e'.turn place supply s') := by
  cases h with
  | answered hans hrun => exact ⟨.answered hans hrun, hs, Or.inr (Or.inr rfl)⟩
  | running hans hrun hj =>
    obtain ⟨heq, hdrives, halike⟩ := hj.turn hs hf place
    simp only [Exchange.turn, heq]
    exact ⟨.running hans hrun hdrives, halike, Or.inr (Or.inl ⟨_, _, hans, hrun⟩)⟩
  | @serving a a' hT =>
    have hcall : ∀ {c c' : Call} {next : c.Reply → Action Answer}
        {next' : c'.Reply → Action Answer}, a = .call c next → a' = .call c' next' →
        V.Advances P G s ((Exchange.serving ⟨a, []⟩).turn place supply s)
          ((Exchange.serving ⟨a', []⟩).turn place supply s') := by
      rintro c c' next next' rfl rfl
      cases place with
      | some k => exact ⟨.serving hT, hs, Or.inr (Or.inr rfl)⟩
      | none =>
        obtain ⟨hnext, halike, hstill⟩ := hT.call hs hf hP
        exact ⟨.serving hnext, halike, hstill.imp (fun hc => ⟨c, hc⟩) Or.inr⟩
    cases hT with
    | ours | workflow | execution | owner => exact hcall rfl rfl
    | @done answer hans =>
      cases hrun : answer.run with
      | none =>
        simp only [Exchange.turn, hrun]
        exact ⟨.answered hans hrun, hs, Or.inr (Or.inr rfl)⟩
      | some run =>
        simp only [Exchange.turn, hrun]
        exact ⟨.running hans hrun (hG answer hans run hrun).drives, hs, Or.inr (Or.inr rfl)⟩

end

end TwinStores

end Flowgraph
