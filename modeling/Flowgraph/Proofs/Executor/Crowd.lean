import Flowgraph.Proofs.Executor.Closing
import Flowgraph.Proofs.Store.Evolution
import Flowgraph.Proofs.Tracker.Readers
import Mathlib.Logic.Relation

/-! Any number of clients over one store: runs, stops, readers, and others that leave executions
alone or take them away with their workflow. They take turns between any two events, every call may
fail, and identifiers are given out once. What a step asks of the store is asked by a client of its
own. -/

namespace Flowgraph

inductive Client
  | run (x : Executor) (workflow : Workflow)
  | stop (execution team : Uuid)
  | executionLogs (execution team : Uuid)
  | nodeStatuses (execution team : Uuid)
  /-- One call, which neither creates an execution nor writes its status. -/
  | ask (c : Call) (h : c.method ≠ .createExecution ∧ c.method ≠ .updateStatus)

/-- What the client may have done so far. -/
def Client.MayDo (h : List Event) : Client → Prop
  | run x workflow => ∃ rest, Action.Path [] (x.run workflow) h rest
  | stop execution team => ∃ rest, Action.Path [] (Tracker.stop execution team) h rest
  | executionLogs execution team =>
    ∃ rest, Action.Path [] (Tracker.executionLogs execution team) h rest
  | nodeStatuses execution team =>
    ∃ rest, Action.Path [] (Tracker.nodeStatuses execution team) h rest
  | ask c _ => ∃ rest, Action.Path [] (Action.ask c) h rest

theorem Client.MayDo.before {client : Client} {h k : List Event} (hmay : client.MayDo (h ++ k)) :
    client.MayDo h := by
  cases client with
  | run | stop | executionLogs | nodeStatuses | ask =>
    obtain ⟨rest, p⟩ := hmay
    exact p.before List.nil_prefix (List.prefix_append h k)

/-- With this history behind it, the client ends the execution with the status. -/
inductive Client.Ends (execution : Uuid) : Client → List Event → RunStatus → Prop
  /-- A stop that returns `true`. -/
  | stop {team h} : Action.Path [] (Tracker.stop execution team)
      (h ++ [.called (.updateStatus execution .error true) (.ok true)]) (.done (.ok true)) →
    Ends execution (.stop execution team) h .error
  /-- The last refresh of the run that the execution was created for. -/
  | run {x workflow program row h s} : x.compile workflow.graph = .ok program →
    row.id = execution → x.Closes ⟨workflow.id, execution⟩ program h s →
    s = .success ∨ s = .error →
    Ends execution (.run x workflow) (.called (.createExecution workflow.id) (.ok row) :: h) s

/-- Who has done what, in the order of time, and the store. -/
structure Moment (ι : Type) where
  past : List (ι × Event)
  store : MemoryStore

/-- Clients, and the store that they find. -/
structure Crowd (ι : Type) where
  client : ι → Client
  first : MemoryStore
  consistent : first.tables.Consistent

section

variable {ι : Type}

/-- The moment after a call that the store has answered. -/
def Moment.answered (m : Moment ι) (i : ι) (supply : Supply) (c : Call) : Moment ι :=
  ⟨m.past ++ [(i, .called c (m.store.answer supply c).1)], (m.store.answer supply c).2.1⟩

namespace Crowd

variable (crowd : Crowd ι)

def start : Moment ι := ⟨[], crowd.first⟩

/-- The identifier is that of an execution, be it still there or not. -/
def Minted (past : List (ι × Event)) (id : Uuid) : Prop :=
  (∃ row ∈ crowd.first.tables.executions, row.id = id) ∨
    ∃ i w row, (i, .called (.createExecution w) (.ok row)) ∈ past ∧ row.id = id

/-- Calls may fail, and no identifier is given out twice. -/
def setting (past : List (ι × Event)) : Setting :=
  ⟨True, fun _ id => ¬ crowd.Minted past id, fun _ _ => False⟩

variable {crowd} {m : Moment ι} {id : Uuid}

theorem Minted.grows {past : List (ι × Event)} (h : crowd.Minted past id) (p : ι × Event) :
    crowd.Minted (past ++ [p]) id :=
  h.imp_right fun ⟨i, w, row, hmem, hid⟩ => ⟨i, w, row, List.mem_append_left _ hmem, hid⟩

/-- Only a call that creates an execution uses up an identifier of one. -/
theorem Minted.of_answered {i : ι} {supply : Supply} {c : Call} (hc : c.method ≠ .createExecution)
    (h : crowd.Minted (m.answered i supply c).past id) : crowd.Minted m.past id := by
  refine h.imp_right ?_
  rintro ⟨j, w, row, hmem, hid⟩
  rcases List.mem_append.1 hmem with hmem | hmem
  · exact ⟨j, w, row, hmem, hid⟩
  · obtain ⟨rfl, -⟩ := Event.called.inj (Prod.mk.inj (List.mem_singleton.1 hmem)).2
    exact absurd rfl hc

end Crowd

variable [DecidableEq ι]

/-- What one of them has done. -/
def eventsOf (i : ι) (past : List (ι × Event)) : List Event :=
  past.filterMap fun p => if p.1 = i then some p.2 else none

theorem mem_past {i : ι} {past : List (ι × Event)} {e : Event} (he : e ∈ eventsOf i past) :
    (i, e) ∈ past := by
  obtain ⟨⟨j, e'⟩, hmem, heq⟩ := List.mem_filterMap.1 he
  simp only [Option.ite_none_right_eq_some, Option.some.injEq] at heq
  obtain ⟨rfl, rfl⟩ := heq
  exact hmem

theorem mem_eventsOf {i : ι} {past : List (ι × Event)} {e : Event} (he : (i, e) ∈ past) :
    e ∈ eventsOf i past :=
  List.mem_filterMap.2 ⟨(i, e), he, if_pos rfl⟩

theorem eventsOf_append (i : ι) (past more : List (ι × Event)) :
    eventsOf i (past ++ more) = eventsOf i past ++ eventsOf i more :=
  List.filterMap_append

theorem eventsOf_self (i : ι) (past : List (ι × Event)) (e : Event) :
    eventsOf i (past ++ [(i, e)]) = eventsOf i past ++ [e] := by
  simp [eventsOf]

theorem eventsOf_other {i j : ι} (hij : j ≠ i) (past : List (ι × Event)) (e : Event) :
    eventsOf i (past ++ [(j, e)]) = eventsOf i past := by
  simp [eventsOf, hij]

theorem eventsOf_map_self (i : ι) (h : List Event) : eventsOf i (h.map fun e => (i, e)) = h := by
  simp [eventsOf, List.filterMap_map]

theorem eventsOf_map_other {i j : ι} (hij : j ≠ i) (h : List Event) :
    eventsOf i (h.map fun e => (j, e)) = [] := by
  simp [eventsOf, List.filterMap_map, hij]

namespace Crowd

variable (crowd : Crowd ι)

/-- One of them takes a turn. -/
inductive Step : Moment ι → Moment ι → Prop
  | turn {m i e s} : (crowd.client i).MayDo (eventsOf i m.past ++ [e]) →
    (crowd.setting m.past).Step m.store (.own e) s → Step m ⟨m.past ++ [(i, e)], s⟩

/-- It can come from one moment to another. -/
def Reaches : Moment ι → Moment ι → Prop := Relation.ReflTransGen crowd.Step

/-- Somebody has ended the execution with the status on its row. -/
def Ended (past : List (ι × Event)) (row : ExecutionRow) : Prop :=
  ∃ before i after,
    past = before ++ (i, .called (.updateStatus row.id row.status true) (.ok true)) :: after ∧
    (crowd.client i).Ends row.id (eventsOf i before) row.status

variable {crowd} {m : Moment ι}

theorem step_answered {i : ι} {supply : Supply} {c : Call}
    (hmay : (crowd.client i).MayDo
      (eventsOf i m.past ++ [Event.called c (m.store.answer supply c).1]))
    (hnew : ¬ crowd.Minted m.past supply.fresh.1) : crowd.Step m (m.answered i supply c) :=
  .turn hmay (.own (.served hnew rfl))

end Crowd

end

namespace Tracker

open Flowgraph.Action

variable {execution team : Uuid}

/-- A stop writes at most once, and what it returns is the reply to that. -/
theorem stop_of_update {h : List Event} {e : Uuid} {s : RunStatus} {finished b : Bool}
    {rest : Action (Except AccessError Bool)}
    (p : Action.Path [] (stop execution team)
      (h ++ [Event.called (.updateStatus e s finished) (.ok b)]) rest) :
    e = execution ∧ s = .error ∧ finished = true ∧ rest = .done (.ok b) := by
  have hread : ∀ {g : List Event} {r : Action (Except AccessError ExecutionRow)},
      Action.Path [] (ownedExecution execution team) g r →
        g ≠ h ++ [Event.called (.updateStatus e s finished) (.ok b)] := by
    rintro g r p rfl
    cases p.last asks_ownedExecution
  obtain ⟨_, p⟩ | ⟨r, mid, powned, p⟩ := Path.of_bind p
  · exact absurd rfl (hread p)
  generalize hg : h ++ [Event.called (.updateStatus e s finished) (.ok b)] = g at p
  have hne : mid ≠ g := hg ▸ hread powned
  rcases r with _ | row
  · cases p with
    | refl => exact absurd rfl hne
  · change Action.Path mid (.call (.updateStatus execution .error true) _) g rest at p
    cases p with
    | refl => exact absurd rfl hne
    | call reply p =>
      rcases reply with _ | stopped
      · cases p with
        | refl => cases List.singleton_inj.1 (List.append_inj' hg rfl).2
      · cases p with
        | refl =>
          cases List.singleton_inj.1 (List.append_inj' hg rfl).2
          exact ⟨rfl, rfl, rfl, rfl⟩

end Tracker

namespace Executor

variable {x : Executor} {workflow : Workflow} {program : Program} {h : List Event}

variable (x workflow program) in
/-- What a run does when its execution has been created. -/
def proceed : Except StoreError ExecutionRow → Action (Except WorkflowError ExecutionReport)
  | .error e => .done (.error (.store e))
  | .ok row => (x.drive ⟨workflow.id, row.id⟩ program).bind fun report => .done (.ok report)

theorem run_eq (hc : x.compile workflow.graph = .ok program) :
    x.run workflow = .call (.createExecution workflow.id) (x.proceed workflow program) := by
  rw [run]
  simp only [hc]
  refine congrArg (Action.call _) (funext fun reply => ?_)
  cases reply <;> rfl

/-- A run whose execution has been created has done what driving it does. -/
theorem drives_of_proceed {rest : Action (Except WorkflowError ExecutionReport)}
    {row : ExecutionRow}
    (p : Action.Path [.called (.createExecution workflow.id) (.ok row)]
      (x.proceed workflow program (.ok row)) h rest) :
    ∃ k rest', h = .called (.createExecution workflow.id) (.ok row) :: k ∧
      Action.Path [] (x.drive ⟨workflow.id, row.id⟩ program) k rest' := by
  have hcreated : tally [.called (.createExecution workflow.id) (.ok row)] = tally [] := rfl
  have p : Action.Path ([Event.called (.createExecution workflow.id) (.ok row)] ++ [])
      (x.proceed workflow program (.ok row)) h rest := p
  obtain ⟨k, rfl, q⟩ := p.of_append hcreated
  obtain ⟨rest', hdrive⟩ | ⟨report, mid, hdrive, hdone⟩ := Action.Path.of_bind q
  · exact ⟨k, rest', rfl, hdrive⟩
  · cases hdone with
    | refl => exact ⟨k, _, rfl, hdrive⟩

/-- What a run has done so far: nothing, or it has failed to create its execution, or it drives it. -/
theorem cases_of_path {rest : Action (Except WorkflowError ExecutionReport)}
    (p : Action.Path [] (x.run workflow) h rest) :
    h = [] ∨ (∃ e, h = [.called (.createExecution workflow.id) (.error e)]) ∨
      ∃ program row k rest', x.compile workflow.graph = .ok program ∧
        h = .called (.createExecution workflow.id) (.ok row) :: k ∧
        Action.Path [] (x.drive ⟨workflow.id, row.id⟩ program) k rest' := by
  cases hc : x.compile workflow.graph with
  | error violations =>
    rw [run] at p
    simp only [hc] at p
    cases p with
    | refl => exact Or.inl rfl
  | ok program =>
    rw [run_eq hc] at p
    cases p with
    | refl => exact Or.inl rfl
    | call reply p =>
      rcases reply with e | row
      · cases p with
        | refl => exact Or.inr (Or.inl ⟨e, rfl⟩)
      · obtain ⟨k, rest', rfl, hdrive⟩ := drives_of_proceed p
        exact Or.inr (Or.inr ⟨program, row, k, rest', rfl, rfl, hdrive⟩)

theorem drives_of_path {e : Event} {rest : Action (Except WorkflowError ExecutionReport)}
    (he : ∀ w r, e ≠ .called (.createExecution w) r)
    (p : Action.Path [] (x.run workflow) (h ++ [e]) rest) :
    ∃ program row k rest', x.compile workflow.graph = .ok program ∧
      h = .called (.createExecution workflow.id) (.ok row) :: k ∧
      Action.Path [] (x.drive ⟨workflow.id, row.id⟩ program) (k ++ [e]) rest' := by
  have hfirst : ∀ r, h ++ [e] ≠ [] ++ [Event.called (.createExecution workflow.id) r] := fun r heq =>
    he _ r (List.singleton_inj.1 (List.append_inj' heq rfl).2)
  rcases cases_of_path p with hnil | ⟨_, hh⟩ | ⟨program, row, k, rest', hc, hh, hdrive⟩
  · simp at hnil
  · exact absurd hh (hfirst _)
  · rcases List.eq_nil_or_concat k with rfl | ⟨k, last, rfl⟩
    · exact absurd hh (hfirst _)
    · rw [List.concat_eq_append] at hh hdrive
      obtain ⟨rfl, hlast⟩ := List.append_inj' (hh.trans (List.cons_append ..).symm) rfl
      obtain rfl := List.singleton_inj.1 hlast
      exact ⟨program, row, k, rest', hc, rfl, hdrive⟩

/-- A run creates one execution, and before it does anything else. -/
theorem drives_of_created {w : Uuid} {row : ExecutionRow}
    {rest : Action (Except WorkflowError ExecutionReport)}
    (p : Action.Path [] (x.run workflow) h rest)
    (hcreated : .called (.createExecution w) (.ok row) ∈ h) :
    ∃ program k rest', x.compile workflow.graph = .ok program ∧ w = workflow.id ∧
      h = .called (.createExecution workflow.id) (.ok row) :: k ∧
      Action.Path [] (x.drive ⟨workflow.id, row.id⟩ program) k rest' := by
  rcases cases_of_path p with rfl | ⟨e, rfl⟩ | ⟨program, row', k, rest', hc, rfl, hdrive⟩
  · simp at hcreated
  · obtain ⟨hw, he⟩ := Event.called.inj (List.mem_singleton.1 hcreated)
    obtain rfl := Call.createExecution.inj hw
    exact absurd (eq_of_heq he) nofun
  · rcases List.mem_cons.1 hcreated with hcreated | hcreated
    · obtain ⟨hw, hrow⟩ := Event.called.inj hcreated
      obtain rfl := Call.createExecution.inj hw
      obtain rfl := Except.ok.inj (eq_of_heq hrow)
      exact ⟨program, k, rest', hc, rfl, rfl, hdrive⟩
    · obtain ⟨before, after, rfl⟩ := List.append_of_mem hcreated
      exact (orderly_of_path (Graph.compile_layered hc) hdrive).allowed.elim

end Executor

/-- Whoever writes the status of an execution writes `running` or means to end it. Then it is a stop
or the last refresh of its run, unless its run has read a final status before. -/
theorem Client.ends_of_update {client : Client} {h : List Event} {e : Uuid} {s : RunStatus}
    {finished : Bool}
    (hmay : client.MayDo (h ++ [Event.called (.updateStatus e s finished) (.ok true)])) :
    (finished = false ∧ s = .running) ∨ finished = true ∧
      ((client.Ends e h s ∧ s.isTerminal = true) ∨
        ∃ row, Event.called (.getExecution e) (.ok row) ∈ h ∧ row.status.isTerminal = true) := by
  cases client with
  | executionLogs execution team =>
    obtain ⟨rest, p⟩ := hmay
    cases p.last Tracker.asks_executionLogs
  | nodeStatuses execution team =>
    obtain ⟨rest, p⟩ := hmay
    cases p.last Tracker.asks_nodeStatuses
  | ask c hc =>
    obtain ⟨rest, p⟩ := hmay
    exact absurd rfl (p.last (P := (·.method ≠ .updateStatus)) (Action.asks_ask hc.2))
  | stop execution team =>
    obtain ⟨rest, p⟩ := hmay
    obtain ⟨rfl, rfl, rfl, rfl⟩ := Tracker.stop_of_update p
    exact Or.inr ⟨rfl, Or.inl ⟨.stop p, rfl⟩⟩
  | run x workflow =>
    obtain ⟨rest, p⟩ := hmay
    obtain ⟨program, row, k, rest', hc, rfl, q⟩ := Executor.drives_of_path (by simp) p
    have hp := Graph.compile_layered hc
    obtain ⟨rfl, hopen⟩ := (Executor.orderly_of_path hp q).allowed
    cases finished with
    | false => exact Or.inl ⟨rfl, hopen rfl⟩
    | true =>
      obtain ⟨-, ⟨hcloses, hfinal⟩ | ⟨read, hread, hfinal⟩⟩ := Executor.closes_of_path hp q
      · exact Or.inr ⟨rfl, Or.inl ⟨.run hc rfl hcloses (RunStatus.isTerminal_iff.1 hfinal), hfinal⟩⟩
      · exact Or.inr ⟨rfl, Or.inr ⟨read, List.mem_cons_of_mem _ hread, hfinal⟩⟩

end Flowgraph
