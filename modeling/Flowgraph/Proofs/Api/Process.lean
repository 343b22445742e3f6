import Flowgraph.Api.Service
import Flowgraph.Proofs.Executor.Crowd

/-! What a request does, and the run that it may start. Only the execution of a workflow writes new
rows of executions and logs. It reads the workflow first, then creates the execution, and the run
logs to this one. -/

namespace Flowgraph

/-- Neither creates an execution nor writes a new attempt at a node. -/
def Call.Plain (c : Call) : Prop := c.method ≠ .createExecution ∧ c.method ≠ .insertLog

/-- All calls so far have been of this kind. -/
def Plain (h : List Event) : Prop := ∀ e ∈ h, e.Asks Call.Plain

theorem plain_nil : Plain [] := by simp [Plain]

theorem Plain.called {h : List Event} {c : Call} {r : c.Reply} (hh : Plain h) (hc : c.Plain) :
    Plain (h ++ [Event.called c r]) := by
  intro e he
  rcases List.mem_append.1 he with he | he
  · exact hh e he
  · obtain rfl := List.mem_singleton.1 he
    exact hc

/-- A workflow that is read off a row is that of the row. -/
theorem Workflow.of_ofRow {row : WorkflowRow} {w : Workflow} (h : Workflow.ofRow row = .ok w) :
    ∃ graph, Graph.ofJson row.definition = .ok graph ∧
      w = ⟨row.id, row.team, row.name, graph, row.createdAt⟩ := by
  unfold Workflow.ofRow at h
  cases hg : Graph.ofJson row.definition with
  | error e => simp [hg, Except.map] at h
  | ok graph =>
    rw [hg] at h
    exact ⟨graph, rfl, (Except.ok.inj h).symm⟩

namespace Action

variable {α : Type} {P : Call → Prop}

/-- Along every path an action makes only calls that it may make. -/
theorem Asks.ensures {a : Action α} {h : List Event} (ha : a.Asks P) (hh : ∀ e ∈ h, e.Asks P) :
    a.Ensures (fun h => ∀ e ∈ h, e.Asks P) (fun _ => True) (fun _ _ => True) h := by
  have hmore : ∀ {h : List Event} {e : Event}, (∀ e ∈ h, e.Asks P) → e.Asks P →
      ∀ e' ∈ h ++ [e], e'.Asks P := by
    intro h e hh he e' he'
    rcases List.mem_append.1 he' with he' | he'
    · exact hh e' he'
    · exact List.mem_singleton.1 he' ▸ he
  induction a generalizing h with
  | done | overflow => exact ⟨hh, trivial⟩
  | call c next ih => exact ⟨hh, fun r => ih r (ha.2 r) (hmore hh ha.1)⟩
  | now next ih => exact ⟨hh, fun t => ih t (ha t) (hmore hh trivial)⟩
  | join next ih => exact ⟨hh, fun os _ => ih os (ha os) (hmore hh trivial)⟩
  | sleep _ _ ih | warn _ _ ih | spawn _ _ _ ih => exact ⟨hh, ih ha (hmore hh trivial)⟩

end Action

namespace Api

/-- What is left to do when a request has been answered. -/
def Answer.afterwards (answer : Answer) : Action Unit :=
  match answer.run with
  | none => .done ()
  | some run => run.bind fun _ => .done ()

variable (x : Executor)

/-- A request and the run that it starts. -/
def process (r : Request) : Action Unit := (serve x r).bind Answer.afterwards

/-- What comes after an operation. -/
def conclude : Except Failure Answer → Action Unit
  | .ok answer => answer.afterwards
  | .error _ => .done ()

variable {x}

/-- A request that names a team and an operation does what the operation does. -/
theorem process_of {r : Request} {team : Uuid} {operation : Operation}
    (hop : Operation.ofRequest r = .ok operation) (hteam : r.team = .ok team) :
    process x r = (perform x team operation).bind conclude := by
  unfold process serve handle
  simp only [hop, hteam]
  rw [Action.bind_assoc, Action.bind_assoc]
  congr 1
  funext result
  cases result <;> dsimp only [Action.bind] <;> split <;> rfl

theorem process_eq (r : Request) :
    process x r = .done () ∨
      ∃ team operation, process x r = (perform x team operation).bind conclude := by
  cases hop : Operation.ofRequest r with
  | error response =>
    unfold process serve handle
    simp only [hop]
    exact Or.inl (by dsimp only [Action.bind]; split <;> rfl)
  | ok operation =>
    cases hteam : r.team with
    | error f =>
      unfold process serve handle
      simp only [hop, hteam]
      exact Or.inl (by dsimp only [Action.bind]; split <;> rfl)
    | ok team => exact Or.inr ⟨team, operation, process_of hop hteam⟩

/-- Makes plain calls only and starts no run. -/
structure Handled.Runless (a : Handled) : Prop where
  ensures : ∀ h, Plain h → a.Ensures Plain (fun _ => True)
    (fun r _ => ∀ answer, r = .ok answer → answer.run = none) h

section

variable {α : Type} {team id : Uuid}

theorem runless_error (f : Failure) : Handled.Runless (.done (.error f)) :=
  ⟨fun _ hh => ⟨hh, nofun⟩⟩

theorem runless_reply (status : Nat) (body : Body) :
    Handled.Runless (.done (.ok (reply status body))) := by
  refine ⟨fun h hh => ⟨hh, ?_⟩⟩
  rintro _ ⟨⟩
  rfl

theorem runless_ask {c : Call} {next : c.Answer → Handled} (hc : c.Plain)
    (hnext : ∀ a, Handled.Runless (next a)) : Handled.Runless (ask c next) := by
  refine ⟨fun h hh => ⟨hh, fun r => ?_⟩⟩
  cases r with
  | ok a => exact (hnext a).ensures _ (hh.called hc)
  | error e => exact (runless_error _).ensures _ (hh.called hc)

theorem runless_read {a : Action (Except AccessError α)} {next : α → Handled}
    (ha : a.Asks Call.Plain) (hnext : ∀ r, Handled.Runless (next r)) :
    Handled.Runless (read a next) := by
  refine ⟨fun h hh => (ha.ensures hh).bind fun r h' _ hh' _ => ?_⟩
  cases r with
  | ok r => exact (hnext r).ensures _ hh'
  | error e => exact (runless_error _).ensures _ hh'

theorem runless_ownedWorkflow {next : WorkflowRow → Handled}
    (hnext : ∀ row, Handled.Runless (next row)) :
    Handled.Runless (ownedWorkflow id team next) := by
  refine runless_ask (by simp [Call.Plain, Call.method]) fun row => ?_
  split
  · exact hnext row
  · exact runless_error _

theorem runless_compiled {next : Workflow → Program → Handled}
    (hnext : ∀ w program, Handled.Runless (next w program)) :
    Handled.Runless (compiled x id team next) := by
  refine runless_ownedWorkflow fun row => ?_
  cases Workflow.ofRow row with
  | error => exact runless_error _
  | ok w =>
    dsimp only
    split
    · exact hnext _ _
    · exact runless_error _

theorem runless_createWorkflow (team : Uuid) (new : NewWorkflow) :
    Handled.Runless (createWorkflow team new) := by
  unfold createWorkflow
  dsimp only
  split
  · exact runless_error _
  · split
    · exact runless_error _
    · exact runless_ask (by simp [Call.Plain, Call.method]) fun _ => runless_reply _ _

theorem plain_of_reads {execution : Uuid} {c : Call} (hc : c.Reads execution) : c.Plain := by
  cases hc <;> simp [Call.Plain, Call.method]

/-- Only the execution of a workflow starts a run. -/
theorem runless_perform {operation : Operation} (hop : ∀ id, operation ≠ .execute id) :
    Handled.Runless (perform x team operation) := by
  cases operation with
  | execute id => exact absurd rfl (hop id)
  | createWorkflow new => exact runless_createWorkflow team new
  | listWorkflows =>
    exact runless_ask (by simp [Call.Plain, Call.method]) fun _ => runless_reply _ _
  | getWorkflow id => exact runless_ownedWorkflow fun _ => runless_reply _ _
  | deleteWorkflow id =>
    exact runless_ownedWorkflow fun _ =>
      runless_ask (by simp [Call.Plain, Call.method]) fun _ => runless_reply _ _
  | workflowCode id => exact runless_compiled fun _ _ => runless_reply _ _
  | stop id =>
    refine runless_read (Tracker.asks_stop.mono ?_) fun _ => runless_reply _ _
    rintro c (hc | rfl)
    · exact plain_of_reads hc
    · simp [Call.Plain, Call.method]
  | executionLogs id =>
    exact runless_read (Tracker.asks_executionLogs.mono fun _ => plain_of_reads)
      fun _ => runless_reply _ _
  | nodeStatuses id =>
    exact runless_read (Tracker.asks_nodeStatuses.mono fun _ => plain_of_reads)
      fun _ => runless_reply _ _

end

variable (x) in
/-- What a request may have done so far: only plain calls, or it has read a workflow and been
refused an execution, or it has created one and drives it. -/
inductive Did : List Event → Prop
  | plain {h} : Plain h → Did h
  | refused {id v e} :
    Did [.called (.getWorkflow id) (.ok v), .called (.createExecution v.id) (.error e)]
  | launched {id v row graph program k rest} : x.compile graph = .ok program →
    Action.Path [] (x.drive ⟨v.id, row.id⟩ program) k rest →
    Did (.called (.getWorkflow id) (.ok v) :: .called (.createExecution v.id) (.ok row) :: k)

theorem plain_read (id : Uuid) (r : (Call.getWorkflow id).Reply) :
    Plain [.called (.getWorkflow id) r] :=
  plain_nil.called (by simp [Call.Plain, Call.method])

/-- When its execution has been created, a request does what driving it does. -/
theorem did_of_launched {id : Uuid} {v : WorkflowRow} {row : ExecutionRow} {graph : Graph}
    {program : Program} {h : List Event} {rest : Action Unit} (hc : x.compile graph = .ok program)
    (p : Action.Path
      [.called (.getWorkflow id) (.ok v), .called (.createExecution v.id) (.ok row)]
      ((x.drive ⟨v.id, row.id⟩ program).bind fun _ => .done ()) h rest) : Did x h := by
  have hbefore : tally [.called (.getWorkflow id) (.ok v),
      .called (.createExecution v.id) (.ok row)] = tally [] := rfl
  obtain ⟨k, rfl, q⟩ := Action.Path.of_append (h := []) hbefore p
  obtain ⟨rest', hdrive⟩ | ⟨report, mid, hdrive, hdone⟩ := Action.Path.of_bind q
  · exact .launched hc hdrive
  · cases hdone with
    | refl => exact .launched hc hdrive

theorem did_of_execute {team id : Uuid} {h : List Event} {rest : Action Unit}
    (p : Action.Path [] ((perform x team (.execute id)).bind conclude) h rest) : Did x h := by
  change Action.Path [] (.call (.getWorkflow id) _) h rest at p
  cases p with
  | refl => exact .plain plain_nil
  | call r p =>
    have hread := plain_read id r
    rcases r with e | v
    · cases p with
      | refl => exact .plain hread
    · dsimp only at p
      split at p
      · cases hw : Workflow.ofRow v with
        | error e =>
          simp only [hw] at p
          cases p with
          | refl => exact .plain hread
        | ok w =>
          simp only [hw] at p
          obtain ⟨graph, -, rfl⟩ := Workflow.of_ofRow hw
          cases hc : x.compile graph with
          | error violations =>
            simp only [hc] at p
            cases p with
            | refl => exact .plain hread
          | ok program =>
            simp only [hc] at p
            cases p with
            | refl => exact .plain hread
            | call r p =>
              rcases r with e | row
              · cases p with
                | refl => exact .refused
              · exact did_of_launched hc p
      · cases p with
        | refl => exact .plain hread

/-- That is all that a request and its run do. -/
theorem did_of_path {r : Request} {h : List Event} {rest : Action Unit}
    (p : Action.Path [] (process x r) h rest) : Did x h := by
  rcases process_eq r with heq | ⟨team, operation, heq⟩
  · rw [heq] at p
    cases p with
    | refl => exact .plain plain_nil
  · rw [heq] at p
    by_cases hop : ∃ id, operation = .execute id
    · obtain ⟨id, rfl⟩ := hop
      exact did_of_execute p
    · have hrunless : Handled.Runless (perform x team operation) :=
        runless_perform (not_exists.1 hop)
      have hplain : ((perform x team operation).bind conclude).Ensures Plain (fun _ => True)
          (fun _ _ => True) [] := by
        refine (hrunless.ensures [] plain_nil).bind fun result h' _ hh' hrun => ?_
        cases result with
        | error f => exact ⟨hh', trivial⟩
        | ok answer =>
          rw [conclude, Answer.afterwards, hrun answer rfl]
          exact ⟨hh', trivial⟩
      exact .plain (p.ensures hplain).here

/-- At every place, what a request has done is a plain call, or the creation of an execution of a
workflow that it has read, or what the run of an execution that it has created may do. -/
theorem Did.at {before after : List Event} {e : Event} (hd : Did x (before ++ e :: after)) :
    e.Asks Call.Plain ∨
      (∃ id v reply, e = .called (.createExecution v.id) reply ∧
        .called (.getWorkflow id) (.ok v) ∈ before) ∨
      ∃ w row program k, .called (.createExecution w) (.ok row) ∈ before ∧
        x.Allowed ⟨w, row.id⟩ program k e := by
  have hfirst : ∀ {id v reply k}, before ++ e :: after =
      .called (.getWorkflow id) (.ok v) :: .called (.createExecution v.id) reply :: k →
      e.Asks Call.Plain ∨
        (∃ id v reply, e = .called (.createExecution v.id) reply ∧
          .called (.getWorkflow id) (.ok v) ∈ before) ∨
        ∃ late, before = .called (.getWorkflow id) (.ok v) ::
          .called (.createExecution v.id) reply :: late ∧ k = late ++ e :: after := by
    intro id v reply k hl
    rcases before with _ | ⟨_, _ | ⟨_, late⟩⟩ <;>
      simp only [List.nil_append, List.cons_append, List.cons.injEq] at hl
    · obtain ⟨rfl, -⟩ := hl
      exact Or.inl (plain_read id _ _ (List.mem_singleton_self _))
    · obtain ⟨rfl, rfl, -⟩ := hl
      exact Or.inr (Or.inl ⟨id, v, reply, rfl, List.mem_singleton_self _⟩)
    · obtain ⟨rfl, rfl, rfl⟩ := hl
      exact Or.inr (Or.inr ⟨late, rfl, rfl⟩)
  generalize hl : before ++ e :: after = l at hd
  cases hd with
  | plain hh => exact Or.inl (hh e (by simp [← hl]))
  | refused =>
    rcases hfirst hl with hplain | hcreate | ⟨late, -, hk⟩
    · exact Or.inl hplain
    · exact Or.inr (Or.inl hcreate)
    · simp at hk
  | @launched id v row graph program k rest hc p =>
    rcases hfirst hl with hplain | hcreate | ⟨late, rfl, rfl⟩
    · exact Or.inl hplain
    · exact Or.inr (Or.inl hcreate)
    · exact Or.inr (Or.inr ⟨v.id, row, program, late, by simp,
        (Executor.orderly_of_path (Graph.compile_layered hc) p).allowed⟩)

/-- Before an execution is created its workflow is read. -/
theorem Did.read {before after : List Event} {w : Uuid} {reply : (Call.createExecution w).Reply}
    (hd : Did x (before ++ .called (.createExecution w) reply :: after)) :
    ∃ id v, .called (.getWorkflow id) (.ok v) ∈ before ∧ v.id = w := by
  rcases hd.at with hplain | ⟨id, v, reply', he, hread⟩ | ⟨_, _, _, _, -, hallowed⟩
  · exact absurd rfl hplain.1
  · cases he
    exact ⟨id, v, hread, rfl⟩
  · exact hallowed.elim

/-- Before an attempt is written its execution is created. -/
theorem Did.created {before after : List Event} {entry : LogEntry}
    {reply : (Call.insertLog entry).Reply}
    (hd : Did x (before ++ .called (.insertLog entry) reply :: after)) :
    ∃ w row, .called (.createExecution w) (.ok row) ∈ before ∧ row.id = entry.execution := by
  rcases hd.at with hplain | ⟨_, _, _, he, -⟩ | ⟨w, row, _, _, hcreated, hallowed⟩
  · exact absurd rfl hplain.2
  · cases he
  · obtain ⟨n, -, -, -, t, rfl⟩ := hallowed
    exact ⟨w, row, hcreated, rfl⟩

/-- A request of the team with the nil identifier, about the first workflow. -/
def about (method action : String) : Request :=
  ⟨method, "/api/v1/workflows/00000000-0000-0000-0000-000000000001" ++ action,
    [(Request.teamHeader, "00000000-0000-0000-0000-000000000000")], ""⟩

theorem ok_of_toOption {ε α : Type} {r : Except ε α} {a : α} (h : r.toOption = some a) :
    r = .ok a := by
  cases r with
  | error e => simp [Except.toOption] at h
  | ok b => exact congrArg Except.ok (Option.some.inj h)

/-- Requests with the same headers are made for the same team. -/
theorem team_congr {r r' : Request} (h : r.headers = r'.headers) : r.team = r'.team := by
  simp only [Request.team, Request.header?, h]

theorem team_about (method action : String) : (about method action).team = .ok .nil := by
  have hsame : (about method action).team = (about "" "").team := team_congr rfl
  rw [hsame]
  exact ok_of_toOption (by decide +kernel)

theorem ofRequest_delete : Operation.ofRequest (about "DELETE" "") = .ok (.deleteWorkflow (.ofNat 1)) :=
  ok_of_toOption (by decide +kernel)

theorem ofRequest_execute :
    Operation.ofRequest (about "POST" "/execute") = .ok (.execute (.ofNat 1)) :=
  ok_of_toOption (by decide +kernel)

theorem process_about {x : Executor} {method action : String} {operation : Operation}
    (hop : Operation.ofRequest (about method action) = .ok operation) :
    process x (about method action) = (perform x .nil operation).bind conclude :=
  process_of hop (team_about method action)

/-- A workflow that can be read and compiled is run. -/
theorem path_execute {x : Executor} {team id : Uuid} {v : WorkflowRow} {row : ExecutionRow}
    {graph : Graph} {program : Program} {h : List Event} {rest : Action Unit}
    (hteam : v.team = team) (hg : Graph.ofJson v.definition = .ok graph)
    (hc : x.compile graph = .ok program)
    (p : Action.Path
      [.called (.getWorkflow id) (.ok v), .called (.createExecution v.id) (.ok row)]
      ((x.drive ⟨v.id, row.id⟩ program).bind fun _ => .done ()) h rest) :
    Action.Path [] ((perform x team (.execute id)).bind conclude) h rest := by
  have hw : Workflow.ofRow v = .ok ⟨v.id, v.team, v.name, graph, v.createdAt⟩ := by
    rw [Workflow.ofRow, hg]
    rfl
  refine .call (.ok v) ?_
  simp only [if_pos hteam, hw, hc]
  exact .call (.ok row) p

end Api

end Flowgraph
