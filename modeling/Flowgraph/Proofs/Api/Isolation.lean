import Flowgraph.Proofs.Api.Process
import Flowgraph.Proofs.Api.Session

/-! Requests of one team, over stores that hold rows of other teams. A request that names such a row
is refused. No other request comes near one, so nothing that a team can see depends on them. -/

namespace Flowgraph

namespace Api

/-- The answer to a request for the list of workflows. -/
def listing (r : Request) (rows : List WorkflowRow) : Answer :=
  ⟨sent r ⟨200, .json (.array (rows.map WorkflowRow.json))⟩, none⟩

theorem serve_list {x : Executor} {r : Request} {team : Uuid}
    (hop : Operation.ofRequest r = .ok .listWorkflows) (hteam : r.team = .ok team) :
    ∃ next, serve x r = .call (.listWorkflows team) next ∧
      ∀ rows, next (.ok rows) = .done (listing r rows) := by
  rw [serve_of hop hteam]
  exact ⟨_, rfl, fun _ => rfl⟩

namespace Operation

/-- It names a workflow or an execution that another team owns. -/
def Foreign (t : Tables) (team : Uuid) : Operation → Prop
  | createWorkflow _ | listWorkflows => False
  | getWorkflow id | deleteWorkflow id | workflowCode id | execute id =>
    ∃ u, t.team? id = some u ∧ u ≠ team
  | stop id | executionLogs id | nodeStatuses id => ∃ u, t.owner? id = some (some u) ∧ u ≠ team

end Operation

end Api

namespace TwinStores

open Api

variable {V : TwinStores}

section

variable {P : Call → Prop} {id : Uuid}

/-- A workflow of the part is not shown. -/
theorem twin_foreign_workflow {G : Except Failure Answer → Prop} {next : WorkflowRow → Handled}
    (hid : id ∈ V.part.workflows)
    (hnone : V.first.tables.team? id = none → G (.error .notFound))
    (hsome : G (.error .forbidden)) :
    V.Twin P G (ownedWorkflow id V.team next) (ownedWorkflow id V.team next) := by
  refine .workflow hid (fun hteam => .done (hnone hteam)) fun v v' _ hsame hother => ?_
  dsimp only
  rw [if_neg hother, if_neg (hsame ▸ hother)]
  exact .done hsome

/-- An execution of the part is not shown. -/
theorem twin_foreign_execution {G : Except AccessError ExecutionRow → Prop}
    (hid : id ∈ V.part.executions)
    (hnone : (∀ u, V.first.tables.owner? id ≠ some (some u)) → G (.error .notFound))
    (hsome : G (.error .forbidden)) :
    V.Twin P G (Tracker.ownedExecution id V.team) (Tracker.ownedExecution id V.team) := by
  refine .execution hid (fun howner => .done (hnone (by simp [howner]))) ?_
  intro row row' howner hsame hw hw'
  refine .owner hw hw' hsame (fun hteam => .done (hnone (by simp [howner, hteam]))) ?_
  intro u _ hother
  simp only [Action.bind, if_neg hother]
  exact .done hsome

end

section

variable (V) in
/-- What a request comes to: a run that it starts is one for an execution outside the part. -/
def Fine (result : Except Failure Answer) : Prop :=
  ∀ answer, result = .ok answer → ∀ run, answer.run = some run → V.Starts run

variable (V) in
/-- The request does the same in both stores. -/
abbrev Even (a : Handled) : Prop := V.Twin (Call.Avoids V.part V.team) V.Fine a a

variable {x : Executor} {id : Uuid}

theorem fine_error (f : Failure) : V.Fine (.error f) := by simp [Fine]

theorem fine_reply (status : Nat) (body : Body) : V.Fine (.ok (reply status body)) := by
  rintro _ ⟨⟩ run hrun
  cases hrun

theorem even_ask {c : Call} {next : c.Answer → Handled} (hc : c.Avoids V.part V.team)
    (hnext : ∀ a, c.Fits V.part (.ok a) → V.Even (next a)) : V.Even (ask c next) := by
  refine .ours hc fun r hr => ?_
  cases r with
  | error e => exact .done (fine_error _)
  | ok a => exact hnext a hr

theorem even_ownedWorkflow {next : WorkflowRow → Handled}
    (hnext : ∀ row, row.id ∉ V.part.workflows → V.Even (next row)) :
    V.Even (ownedWorkflow id V.team next) := by
  by_cases hid : id ∈ V.part.workflows
  · exact twin_foreign_workflow hid (fun _ => fine_error _) (fine_error _)
  · refine even_ask hid fun row hrow => ?_
    have hrow : row.id = id := hrow
    split
    · exact hnext row (hrow.symm ▸ hid)
    · exact .done (fine_error _)

theorem even_compiled {next : Workflow → Program → Handled}
    (hnext : ∀ w program, w.id ∉ V.part.workflows → x.compile w.graph = .ok program →
      V.Even (next w program)) : V.Even (compiled x id V.team next) := by
  refine even_ownedWorkflow fun row hrow => ?_
  cases hw : Workflow.ofRow row with
  | error e => exact .done (fine_error _)
  | ok w =>
    obtain ⟨graph, -, rfl⟩ := Workflow.of_ofRow hw
    dsimp only
    split
    · next program hc => exact hnext _ program hrow hc
    · exact .done (fine_error _)

theorem twin_ownedExecution :
    V.Twin (Call.Avoids V.part V.team) (fun r => ∀ row, r = .ok row → id ∉ V.part.executions)
      (Tracker.ownedExecution id V.team) (Tracker.ownedExecution id V.team) := by
  by_cases hid : id ∈ V.part.executions
  · exact twin_foreign_execution hid (fun _ => by simp) (by simp)
  · refine .ours hid fun r hr => ?_
    rcases r with e | row
    · exact .done (by simp)
    · refine .ours hr fun r _ => ?_
      cases r <;> exact .done fun _ _ => hid

/-- A request about an execution looks for its owner first, and then does something with the
execution. -/
theorem even_owned {α : Type} {f : Except AccessError ExecutionRow → Action (Except AccessError α)}
    {next : α → Handled} (herror : ∀ e, f (.error e) = .done (.error e))
    (hf : id ∉ V.part.executions → ∀ row,
      V.Twin (Call.Avoids V.part V.team) (fun _ => True) (f (.ok row)) (f (.ok row)))
    (hnext : ∀ r, V.Even (next r)) :
    V.Even (read ((Tracker.ownedExecution id V.team).bind f) next) := by
  have hread : V.Twin (Call.Avoids V.part V.team) (fun _ => True)
      ((Tracker.ownedExecution id V.team).bind f) ((Tracker.ownedExecution id V.team).bind f) := by
    refine twin_ownedExecution.bind fun r hr => ?_
    cases r with
    | error e => exact herror e ▸ .done trivial
    | ok row => exact hf (hr row rfl) row
  refine hread.bind fun r _ => ?_
  cases r with
  | ok r => exact hnext r
  | error e => exact .done (fine_error _)

/-- Whatever a request of the team asks for, it does the same in both stores. -/
theorem even_perform (hx : x.registry.Silent) (operation : Operation) :
    V.Even (perform x V.team operation) := by
  have hreply : ∀ status body, V.Even (.done (.ok (reply status body))) :=
    fun status body => .done (fine_reply status body)
  cases operation with
  | createWorkflow new =>
    change V.Even (createWorkflow V.team new)
    unfold createWorkflow
    dsimp only
    split
    · exact .done (fine_error _)
    · split
      · exact .done (fine_error _)
      · exact even_ask rfl fun _ _ => hreply _ _
  | listWorkflows => exact even_ask rfl fun _ _ => hreply _ _
  | getWorkflow id => exact even_ownedWorkflow fun _ _ => hreply _ _
  | deleteWorkflow id =>
    by_cases hid : id ∈ V.part.workflows
    · exact twin_foreign_workflow hid (fun _ => fine_error _) (fine_error _)
    · exact even_ownedWorkflow fun _ _ => even_ask hid fun _ _ => hreply _ _
  | workflowCode id => exact even_compiled fun _ _ _ _ => hreply _ _
  | execute id =>
    refine even_compiled fun w program hw hc => even_ask hw fun row hrow => .done ?_
    rintro _ ⟨⟩ run ⟨⟩
    exact ⟨⟨x, ⟨w.id, row.id⟩, w.graph, program, hc, hx⟩, hrow, rfl⟩
  | stop id | executionLogs id | nodeStatuses id =>
    refine even_owned (fun _ => rfl) (fun hid row => .ours hid fun r _ => ?_) fun _ => hreply _ _
    cases r <;> exact .done trivial

theorem even_serve (hx : x.registry.Silent) {r : Request} (hteam : r.team = .ok V.team) :
    V.Twin (Call.Avoids V.part V.team) (fun answer => ∀ run, answer.run = some run → V.Starts run)
      (serve x r) (serve x r) := by
  cases hop : Operation.ofRequest r with
  | error response =>
    obtain ⟨answer, hserve, hrun⟩ := serve_of_error (x := x) hop
    rw [hserve]
    exact .done (by simp [hrun])
  | ok operation =>
    rw [serve_of hop hteam]
    refine (even_perform hx operation).bind fun result hfine => .done fun run hrun => ?_
    cases result with
    | ok answer => exact hfine answer rfl run hrun
    | error f => cases hrun

end

section

variable (V) in
/-- It reads the row and its owner only, and is refused. -/
abbrev Refused (a : Handled) : Prop :=
  V.Twin (fun _ => False) (fun result => result = .error .forbidden) a a

variable {x : Executor} {id : Uuid}

theorem refused_ownedWorkflow {next : WorkflowRow → Handled}
    (h : ∃ u, V.first.tables.team? id = some u ∧ u ≠ V.team) :
    V.Refused (ownedWorkflow id V.team next) := by
  obtain ⟨u, hteam, hu⟩ := h
  have hid := (V.first_parted.tables.mem_workflows hteam).2 hu
  exact twin_foreign_workflow hid (fun hnone => by simp [hnone] at hteam) rfl

theorem refused_read {α : Type}
    {f : Except AccessError ExecutionRow → Action (Except AccessError α)} {next : α → Handled}
    (hf : f (.error .forbidden) = .done (.error .forbidden))
    (h : ∃ u, V.first.tables.owner? id = some (some u) ∧ u ≠ V.team) :
    V.Refused (read ((Tracker.ownedExecution id V.team).bind f) next) := by
  obtain ⟨u, howner, hu⟩ := h
  have hid := (V.first_parted.tables.mem_executions howner).2 hu
  have howned : V.Twin (fun _ => False) (fun r => r = .error .forbidden)
      (Tracker.ownedExecution id V.team) (Tracker.ownedExecution id V.team) :=
    twin_foreign_execution hid (fun hnone => absurd howner (hnone u)) rfl
  have hread : V.Twin (fun _ => False) (fun r => r = .error .forbidden)
      ((Tracker.ownedExecution id V.team).bind f) ((Tracker.ownedExecution id V.team).bind f) := by
    refine howned.bind ?_
    rintro _ rfl
    rw [hf]
    exact .done rfl
  refine hread.bind ?_
  rintro _ rfl
  exact .done rfl

theorem refused_perform {operation : Operation}
    (h : operation.Foreign V.first.tables V.team) : V.Refused (perform x V.team operation) := by
  cases operation with
  | createWorkflow | listWorkflows => exact h.elim
  | getWorkflow | deleteWorkflow | workflowCode | execute => exact refused_ownedWorkflow h
  | stop | executionLogs | nodeStatuses => exact refused_read rfl h

end

section

variable (V) in
/-- What a request may call: one that names rows of another team only looks for their owner. -/
def May (r : Request) (c : Call) : Prop :=
  (∀ operation, Operation.ofRequest r = .ok operation →
    ¬ operation.Foreign V.first.tables V.team) ∧ c.Avoids V.part V.team

variable (V) in
/-- How a request may be answered. -/
structure Ends (r : Request) (answer : Answer) : Prop where
  starts : ∀ run, answer.run = some run → V.Starts run
  refused : ∀ operation, Operation.ofRequest r = .ok operation →
    operation.Foreign V.first.tables V.team → answer = final r (.error .forbidden)

theorem twin_serve {x : Executor} (hx : x.registry.Silent) {r : Request}
    (hteam : r.team = .ok V.team) : V.Twin (V.May r) (V.Ends r) (serve x r) (serve x r) := by
  by_cases hforeign : ∃ operation, Operation.ofRequest r = .ok operation ∧
      operation.Foreign V.first.tables V.team
  · obtain ⟨operation, hop, hforeign⟩ := hforeign
    rw [serve_of hop hteam]
    refine ((refused_perform hforeign).mono (fun _ => False.elim) fun _ => id).bind ?_
    rintro _ rfl
    exact .done ⟨by simp [final], fun _ _ _ => rfl⟩
  · have hown : ∀ operation, Operation.ofRequest r = .ok operation →
        ¬ operation.Foreign V.first.tables V.team := fun operation hop h =>
      hforeign ⟨operation, hop, h⟩
    exact (even_serve hx hteam).mono (fun _ hc => ⟨hown, hc⟩) fun _ hfine =>
      ⟨hfine, fun operation hop h => absurd h (hown operation hop)⟩

end

variable {ι : Type} [DecidableEq ι]

variable (V) in
/-- The same requests, over the two stores. -/
structure Parallel (request : ι → Request) (m m' : Session ι) : Prop where
  stores : V.Alike m.store m'.store
  exchanges : ∀ i,
    V.Matched (V.May (request i)) (V.Ends (request i)) (m.exchange i) (m'.exchange i)

section

variable {request : ι → Request} {m m' : Session ι} {slot : Slot ι}

theorem Parallel.turn (h : V.Parallel request m m') (hf : V.part.Lacks slot.supply.fresh.1) :
    V.Parallel request (m.turn slot) (m'.turn slot) ∧
      ∀ operation, Operation.ofRequest (request slot.who) = .ok operation →
        operation.Foreign V.first.tables V.team → (m.turn slot).store = m.store := by
  obtain ⟨hmatched, halike, hstill⟩ := (h.exchanges slot.who).turn h.stores hf
    (fun c hc => hc.2) (fun answer hends => hends.starts) slot.place
  refine ⟨⟨halike, fun i => ?_⟩, fun operation hop hforeign => ?_⟩
  · by_cases hi : i = slot.who
    · subst hi
      simpa [Session.turn] using hmatched
    · simpa [Session.turn, hi] using h.exchanges i
  · rcases hstill with ⟨c, hc⟩ | ⟨answer, run, hends, hrun⟩ | hstill
    · exact absurd hforeign (hc.1 operation hop)
    · rw [hends.refused operation hop hforeign] at hrun
      cases hrun
    · exact hstill

theorem parallel_after {x : Executor} (hx : x.registry.Silent)
    (hteam : ∀ i, (request i).team = .ok V.team) (schedule : List (Slot ι))
    (hf : ∀ slot ∈ schedule, V.part.Lacks slot.supply.fresh.1) :
    V.Parallel request ((Session.start x request V.first).after schedule)
      ((Session.start x request V.second).after schedule) := by
  induction schedule using List.reverseRecOn with
  | nil => exact ⟨alike_start, fun i => .serving (twin_serve hx (hteam i))⟩
  | append_singleton schedule slot ih =>
    rw [Session.after_snoc, Session.after_snoc]
    exact ((ih fun slot hslot => hf slot (List.mem_append_left _ hslot)).turn
      (hf slot (by simp))).1

end

end TwinStores

namespace Session

open Api

variable {ι : Type} [DecidableEq ι]

/-- A request for the list of workflows has not been served yet, or it has been answered with the
workflows that the team had at its turn. -/
theorem listed_after {x : Executor} {request : ι → Request} {i : ι} {team : Uuid}
    (hop : Operation.ofRequest (request i) = .ok .listWorkflows)
    (hteam : (request i).team = .ok team) (store : MemoryStore) (schedule : List (Slot ι)) :
    ((start x request store).after schedule).exchange i = .serving ⟨serve x (request i), []⟩ ∨
    ∃ before, ∃ slot : Slot ι, ∃ late, schedule = before ++ slot :: late ∧ slot.who = i ∧
      let answer := listing (request i)
        (((start x request store).after before).store.tables.teamWorkflows team)
      ((start x request store).after schedule).exchange i = .serving ⟨.done answer, []⟩ ∨
        ((start x request store).after schedule).exchange i = .answered answer.response none := by
  obtain ⟨next, hserve, hnext⟩ := serve_list (x := x) hop hteam
  induction schedule using List.reverseRecOn with
  | nil => exact Or.inl rfl
  | append_singleton schedule slot ih =>
    rw [after_snoc]
    by_cases hi : slot.who = i
    · subst hi
      simp only [turn, Function.update_self]
      rcases ih with hwaits | ⟨before, first, late, rfl, hfirst, hdone | hdone⟩
      · rw [hwaits, hserve]
        cases slot.place with
        | some k => exact Or.inl rfl
        | none =>
          refine Or.inr ⟨schedule, slot, [], rfl, rfl, Or.inl ?_⟩
          rw [← hnext]
          rfl
      · refine Or.inr ⟨before, first, late ++ [slot], by simp, hfirst, Or.inr ?_⟩
        rw [hdone]
        rfl
      · refine Or.inr ⟨before, first, late ++ [slot], by simp, hfirst, Or.inr ?_⟩
        rw [hdone]
        rfl
    · simp only [turn, Function.update_of_ne (Ne.symm hi)]
      refine ih.imp id ?_
      rintro ⟨before, first, late, rfl, hfirst, hdone⟩
      exact ⟨before, first, late ++ [slot], by simp, hfirst, hdone⟩

/-- What a team gets to see and to change. -/
structure Isolated (x : Executor) (team : Uuid) (request : ι → Request)
    (first second : MemoryStore) (schedule : List (Slot ι)) : Prop where
  answered : ∀ i, 3 ≤ schedule.countP (Slot.serves i) →
    ∃ response, ((start x request first).after schedule).response? i = some response
  /-- A request that names rows of another team is refused, and none of its turns changes a row. -/
  refused : ∀ i operation, Operation.ofRequest (request i) = .ok operation →
    operation.Foreign first.tables team →
    (∀ response, ((start x request first).after schedule).response? i = some response →
      response = sent (request i) ⟨403, .json Failure.forbidden.body⟩) ∧
    ∀ before slot late, schedule = before ++ slot :: late → slot.who = i →
      ((start x request first).after (before ++ [slot])).store =
        ((start x request first).after before).store
  /-- A list shows all workflows that the team has when the request is served, and no others. -/
  listed : ∀ i, Operation.ofRequest (request i) = .ok .listWorkflows → ∀ response,
    ((start x request first).after schedule).response? i = some response →
    ∃ before slot late, schedule = before ++ slot :: late ∧ slot.who = i ∧
      ∃ rows : List WorkflowRow,
        rows.Perm (((start x request first).after before).store.tables.workflows.filter
          (·.team = team)) ∧
        response = sent (request i) ⟨200, .json (.array (rows.map WorkflowRow.json))⟩
  kept : ∀ other, other ≠ team →
    ((start x request first).after schedule).store.tables.of other = first.tables.of other
  responses : ∀ i, ((start x request second).after schedule).response? i =
    ((start x request first).after schedule).response? i
  rows : ((start x request second).after schedule).store.tables.of team =
    ((start x request first).after schedule).store.tables.of team

/-- A team that sends requests learns nothing of the rows of others but whose they are, and changes
none of them. -/
theorem requests_isolated {x : Executor} (hx : x.registry.Silent) {team : Uuid}
    {request : ι → Request} (hteam : ∀ i, (request i).team = .ok team) {first second : MemoryStore}
    (hfirst : first.logWritesFail = false) (hsecond : second.logWritesFail = false)
    (hkeyed : first.tables.Keyed) (hkeyed' : second.tables.Keyed)
    (ha : first.tables.Agrees team second.tables) (schedule : List (Slot ι))
    (hnew : ∀ slot ∈ schedule, slot.supply.fresh.1 ∉ first.tables.names ∧
      slot.supply.fresh.1 ∉ second.tables.names) :
    Isolated x team request first second schedule := by
  let V : TwinStores := .of team first second hfirst hsecond hkeyed hkeyed' ha
  have hlacks : ∀ slot ∈ schedule, V.part.Lacks slot.supply.fresh.1 := fun slot hslot =>
    Tables.lacks_of_not_mem_names (hnew slot hslot).1 (hnew slot hslot).2
  have hparallel : V.Parallel request ((start x request first).after schedule)
      ((start x request second).after schedule) :=
    TwinStores.parallel_after hx hteam schedule hlacks
  constructor
  · exact fun i hturns => answered_after x request first schedule hturns
  · intro i operation hop hforeign
    constructor
    · intro response hresponse
      obtain ⟨answer, hends, rfl⟩ := (hparallel.exchanges i).of_response? hresponse
      rw [hends.refused operation hop hforeign]
      rfl
    · rintro before slot late rfl rfl
      have hbefore : V.Parallel request ((start x request first).after before)
          ((start x request second).after before) :=
        TwinStores.parallel_after hx hteam before fun slot hslot =>
          hlacks slot (List.mem_append_left _ hslot)
      rw [after_snoc]
      exact (hbefore.turn (hlacks slot (by simp))).2 operation hop hforeign
  · intro i hop response hresponse
    rcases listed_after hop (hteam i) first schedule with hwaits |
      ⟨before, slot, late, hschedule, hwho, hdone⟩
    · obtain ⟨next, hserve, -⟩ := serve_list (x := x) hop (hteam i)
      rw [response?, hwaits, hserve] at hresponse
      cases hresponse
    · refine ⟨before, slot, late, hschedule, hwho,
        ((start x request first).after before).store.tables.teamWorkflows team,
        List.mergeSort_perm _ _, ?_⟩
      rcases hdone with hdone | hdone <;> rw [response?, hdone] at hresponse <;>
        exact (Option.some.inj hresponse).symm
  · intro other hother
    rw [← hparallel.stores.left_parted.tables.of_only hother, hparallel.stores.left_only]
    exact V.first_parted.tables.of_only hother
  · exact fun i => (hparallel.exchanges i).response?_eq
  · have hsame := congrArg MemoryStore.tables hparallel.stores.same
    calc ((start x request second).after schedule).store.tables.of team
      _ = (((start x request second).after schedule).store.tables.without V.part).of team :=
          hparallel.stores.right_parted.tables.of_without.symm
      _ = (((start x request first).after schedule).store.tables.without V.part).of team :=
          congrArg (Tables.of · team) hsame.symm
      _ = ((start x request first).after schedule).store.tables.of team :=
          hparallel.stores.left_parted.tables.of_without

/-- A workflow of another team and one of the team that has the nil identifier. -/
def shared (name : String) : MemoryStore where
  tables := ⟨[⟨.ofNat 1, .ofNat 7, name, .string name, ⟨0, 0⟩⟩,
    ⟨.ofNat 2, .nil, "ours", .null, ⟨0, 0⟩⟩], [], []⟩
  logWritesFail := false
  rejectedLogWrites := 0

theorem keyed_shared (name : String) : (shared name).tables.Keyed := by
  refine ⟨fun row hrow => ?_, by simp [shared]⟩
  simp only [shared, List.mem_cons, List.not_mem_nil, or_false] at hrow
  rcases hrow with rfl | rfl <;> rfl

theorem agrees_shared (name name' : String) :
    (shared name).tables.Agrees .nil (shared name').tables := by
  refine ⟨rfl, fun id => ?_, fun _ => rfl⟩
  simp only [shared, Tables.team?, Tables.workflow?, List.find?_cons]
  cases decide (Uuid.ofNat 1 = id) with
  | true => rfl
  | false => cases decide (Uuid.ofNat 2 = id) <;> rfl

/-- A team asks for its own workflows, and for the workflow of the other team. -/
def asking (own : Bool) : Request :=
  if own then ⟨"GET", "/api/v1/workflows", (about "GET" "").headers, ""⟩ else about "GET" ""

theorem asking_isolated :
    let schedule : List (Slot Bool) :=
      [true, false, false, true, false, true].map (⟨·, none, ⟨0, 0⟩⟩)
    Isolated .failing .nil asking (shared "plan") (shared "secret") schedule ∧
      ((start .failing asking (shared "plan")).after schedule).response? false =
        some ⟨403, .json Failure.forbidden.body⟩ := by
  intro schedule
  have hteam : ∀ own, (asking own).team = .ok .nil := by
    intro own
    have hsame : (asking own).team = (about "GET" "").team := team_congr (by cases own <;> rfl)
    exact hsame.trans (team_about "GET" "")
  have hnew : ∀ slot ∈ schedule, slot.supply.fresh.1 ∉ (shared "plan").tables.names ∧
      slot.supply.fresh.1 ∉ (shared "secret").tables.names := by
    intro slot hslot
    obtain ⟨own, -, rfl⟩ := List.mem_map.1 hslot
    cases own <;> decide
  have hisolated : Isolated .failing .nil asking (shared "plan") (shared "secret") schedule :=
    requests_isolated Executor.failing_silent hteam rfl rfl (keyed_shared _) (keyed_shared _)
      (agrees_shared _ _) schedule hnew
  have hop : Operation.ofRequest (asking false) = .ok (.getWorkflow (.ofNat 1)) :=
    ok_of_toOption (by decide +kernel)
  obtain ⟨response, hresponse⟩ := hisolated.answered false (by decide)
  refine ⟨hisolated, ?_⟩
  rw [hresponse, (hisolated.refused false _ hop ⟨.ofNat 7, rfl, by decide⟩).1 response hresponse]
  rfl

end Session

end Flowgraph
