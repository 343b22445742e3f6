import Flowgraph.Proofs.Action.Asks
import Flowgraph.Proofs.Executor.Dataflow

/-! How a run ends its own execution. It writes nothing final before its stages have come to an end,
and if it has not seen a stop by then the status that it derives is final, whatever the logs tell. -/

namespace Flowgraph

/-- Means to end an execution. -/
def Call.Ends : Call → Prop
  | .updateStatus _ _ finished => finished = true
  | _ => False

namespace Tracker

open Flowgraph.Action

variable {config : TrackerConfig} {execution team : Uuid}

theorem asks_logStart (n : CompiledNode) (input : Json) :
    (logStart config execution n input).Asks fun c => ¬ c.Ends := by
  refine Asks.bind (fun _ => trivial) fun t => ?_
  refine Asks.bind (asks_withRetry (asks_ask id)) fun r => ?_
  cases r <;> trivial

theorem asks_logComplete (id : String) (handle : LogHandle) (r : StepResult) :
    (logComplete config execution id handle r).Asks fun c => ¬ c.Ends := by
  have hcomplete : ∀ target c, (complete config target c).Asks fun c => ¬ c.Ends :=
    fun _ _ => asks_withRetry (asks_ask (fun h => h))
  rw [logComplete_eq]
  refine Asks.bind (fun _ => trivial) fun t => ?_
  refine Asks.bind ?_ fun byRow => Asks.bind ?_ fun w => trivial
  · rw [completeRow]
    split
    · exact hcomplete _ _
    · trivial
  · rcases byRow with (_ | _ | _) | _
    · exact hcomplete _ _
    · trivial
    · trivial
    · trivial

theorem asks_refreshStatus (run : RunState) (finished : Bool) :
    (refreshStatus config execution run finished).Asks fun c =>
      c = .listLogs execution ∨ ∃ listed, c = .updateStatus execution
        (writtenStatus finished (derivedStatus run listed)) finished := by
  rw [refreshStatus_eq]
  refine Asks.bind (asks_ask (Or.inl rfl)) fun listed => ?_
  exact Asks.bind (asks_withRetry (asks_ask (Or.inr ⟨listed, rfl⟩))) fun _ => trivial

theorem asks_refreshStatus_open (run : RunState) :
    (refreshStatus config execution run false).Asks fun c => ¬ c.Ends := by
  refine (asks_refreshStatus run false).mono ?_
  rintro c (rfl | ⟨_, rfl⟩)
  · exact id
  · exact Bool.false_ne_true

theorem asks_persistedStatus : (persistedStatus execution).Asks (· = .getExecution execution) := by
  refine Asks.bind (asks_ask rfl) fun r => ?_
  cases r <;> trivial

theorem asks_isStopped : (isStopped execution).Asks (· = .getExecution execution) :=
  asks_persistedStatus.bind fun _ => trivial

end Tracker

namespace Executor

open Flowgraph.Action

variable {x : Executor} {ids : RunIds} {program : Program} {graph : Graph} {h : List Event}

theorem asks_dispatch (outputs : Outputs) (nodes : List CompiledNode) (run : RunState) :
    (x.dispatch ids outputs nodes run).Asks fun c => ¬ c.Ends := by
  induction nodes generalizing run with
  | nil => trivial
  | cons n rest ih =>
    rw [dispatch]
    split
    · split
      · exact ih run
      · refine Asks.bind ?_ fun a => Asks.bind (ih _) fun _ => trivial
        exact Asks.bind (Tracker.asks_logStart n _) fun _ => trivial
    · exact ih run

theorem asks_collect (l : List (Attempt × Outcome)) (c : Course) :
    (x.collect ids l c).Asks fun c => ¬ c.Ends := by
  induction l generalizing c with
  | nil => trivial
  | cons p rest ih =>
    obtain ⟨a, outcome⟩ := p
    rw [collect]
    refine Asks.bind ?_ fun c => Asks.bind (Tracker.asks_logComplete _ _ _) fun _ => ih c
    simp only [Course.record]
    split <;> trivial

theorem asks_runStages (stages : List Stage) (c : Course) :
    (x.runStages ids program stages c).Asks fun c => ¬ c.Ends := by
  induction stages generalizing c with
  | nil => trivial
  | cons stage rest ih =>
    rw [runStages]
    refine Asks.bind (Tracker.asks_isStopped.mono (by rintro _ rfl; exact id)) fun stopped => ?_
    cases stopped with
    | true => trivial
    | false =>
      refine Asks.bind ?_ fun c => ih c
      refine Asks.bind (asks_dispatch _ _ _) fun d => Asks.bind (fun _ => trivial) fun os => ?_
      refine Asks.bind (asks_collect _ _) fun c => ?_
      exact Asks.bind (Tracker.asks_refreshStatus_open _) fun _ => trivial

theorem asks_traverse : (x.traverse ids program).Asks fun c => ¬ c.Ends :=
  (Tracker.asks_refreshStatus_open _).bind fun _ => asks_runStages _ _

/-- What a run derives from the results of all its nodes is final. -/
theorem Complete.isTerminal_derivedStatus {R : Results} {run : RunState}
    (hc : x.Complete ids program R) (hp : program.Layered graph)
    (hs : run.Shows program.nodeIds R []) (listed : Except StoreError (List LogRow)) :
    (Tracker.derivedStatus run listed).isTerminal = true := by
  rw [hc.derivedStatus_eq hp hs, hc.derive_eq hp]
  split <;> rfl

theorem Halted.complete {c : Course} (hh : x.Halted ids program (c, false) h)
    (ho : x.Orderly ids program h) (hp : program.Layered graph) :
    x.Complete ids program (tally h).results ∧
      c.run.Shows program.nodeIds (tally h).results [] := by
  obtain ⟨done, todo, hdone, htodo, hb⟩ := hh.boundary
  obtain rfl := htodo rfl
  rw [List.append_nil] at hdone
  rw [hdone, hp.flatMap_stageNodes] at hb
  have hids := ho.ids_eq
  rw [hb.started, hb.idle, List.map_nil, List.append_nil] at hids
  exact ⟨⟨ho.sound hp, hids.symm⟩, hb.shows⟩

variable (x ids program) in
/-- With this history behind it, a run that has come to the end of its stages without seeing a stop
writes a status in the refresh that follows. -/
def Closes (h : List Event) (s : RunStatus) : Prop :=
  ∃ c mid rest, Action.Path [] (x.traverse ids program) mid (.done (c, false)) ∧ mid <+: h ∧
    Action.Path mid (Tracker.refreshStatus x.config ids.execution c.run true)
      (h ++ [.called (.updateStatus ids.execution s true) (.ok true)]) rest

/-- A run that writes a success has come to an end at all its nodes, and none has failed. -/
theorem Closes.succeeded (hc : x.Closes ids program h .success) (hp : program.Layered graph) :
    ∀ id ∈ program.nodeIds, (tally h).results.Succeeded id := by
  obtain ⟨c, mid, rest, ptraverse, hmid, prefresh⟩ := hc
  have hend := ptraverse.ensures (ensures_traverse hp)
  obtain ⟨hcomplete, hshows⟩ := hend.2.complete hend.1 hp
  rcases (prefresh.adds (Tracker.asks_refreshStatus _ _)).1.grows_or_last with rfl | ⟨-, hasks⟩
  · exact absurd hmid.length_le (by simp)
  obtain ⟨listed, he⟩ := hasks.resolve_left Call.noConfusion
  obtain ⟨-, hderived, -⟩ := Call.updateStatus.inj he
  have hsuccess : RunStatus.success = Tracker.derivedStatus c.run listed := hderived
  rw [hcomplete.derivedStatus_eq hp hshows, eq_comm, RunStatus.derive_eq_success_iff] at hsuccess
  intro id hid
  have hsucceeded : (tally mid).results.Succeeded id := hsuccess _ (List.mem_map_of_mem hid)
  exact hsucceeded.grows (results_grow hmid)

/-- A final write of a run is that of its last refresh. The status is final, or the run had read a
final status on its row before. -/
theorem closes_of_path (hp : program.Layered graph) {e : Uuid} {s : RunStatus}
    {rest : Action ExecutionReport}
    (p : Action.Path [] (x.drive ids program)
      (h ++ [Event.called (.updateStatus e s true) (.ok true)]) rest) :
    e = ids.execution ∧ ((x.Closes ids program h s ∧ s.isTerminal = true) ∨
      ∃ row, Event.called (.getExecution ids.execution) (.ok row) ∈ h ∧
        row.status.isTerminal = true) := by
  rw [drive_eq] at p
  have hopen : ∀ rest', ¬ Action.Path [] (x.traverse ids program)
      (h ++ [Event.called (.updateStatus e s true) (.ok true)]) rest' := by
    intro rest' p
    rcases (p.adds asks_traverse).1.grows_or_last with hnil | ⟨-, hasks⟩
    · simp at hnil
    · exact hasks rfl
  obtain ⟨_, p⟩ | ⟨⟨c, stopped⟩, mid, ptraverse, p⟩ := p.of_bind
  · exact absurd p (hopen _)
  have hrefresh : ∃ rest', Action.Path mid (Tracker.refreshStatus x.config ids.execution c.run true)
      (h ++ [Event.called (.updateStatus e s true) (.ok true)]) rest' := by
    obtain h | ⟨derived, mid', prefresh, p⟩ := p.of_bind
    · exact h
    have hread := p.adds (Tracker.asks_persistedStatus.bind fun _ => trivial)
    rcases hread.1.grows_or_last with rfl | ⟨-, hasks⟩
    · exact ⟨_, prefresh⟩
    · cases hasks
  obtain ⟨rest', prefresh⟩ := hrefresh
  rcases (prefresh.adds (Tracker.asks_refreshStatus _ _)).1.grows_or_last with rfl | ⟨hmid, hasks⟩
  · exact absurd ptraverse (hopen _)
  obtain ⟨listed, he⟩ : ∃ listed, Call.updateStatus e s true =
      .updateStatus ids.execution (Tracker.derivedStatus c.run listed) true :=
    hasks.resolve_left Call.noConfusion
  obtain ⟨rfl, rfl, -⟩ := Call.updateStatus.inj he
  have hend := ptraverse.ensures (ensures_traverse hp)
  refine ⟨rfl, ?_⟩
  cases stopped with
  | false =>
    obtain ⟨hcomplete, hshows⟩ := hend.2.complete hend.1 hp
    exact Or.inl ⟨⟨c, mid, rest', ptraverse, hmid, prefresh⟩,
      hcomplete.isTerminal_derivedStatus hp hshows listed⟩
  | true =>
    have hstopped : ¬ Unstopped ids.execution mid := fun hu => absurd (hend.2.stopped.2 hu) (by simp)
    rw [Unstopped] at hstopped
    push Not at hstopped
    obtain ⟨row, hrow, hfinal⟩ := hstopped
    exact Or.inr ⟨row, hmid.subset hrow, by simpa using hfinal⟩

end Executor

end Flowgraph
