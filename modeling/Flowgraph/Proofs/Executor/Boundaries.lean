import Flowgraph.Proofs.Action.Asks
import Flowgraph.Proofs.Executor.Drive

/-! Where a run looks for a stop. Before the steps of a stage are started the row is read, after all
that was started for the stages before, and nothing is started if it shows a final status. -/

namespace Flowgraph

namespace Tracker

open Flowgraph.Action

variable {config : TrackerConfig} {execution : Uuid} {P : Invocation → Prop}

theorem starts_logStart (n : CompiledNode) (input : Json) :
    (logStart config execution n input).Starts P := by
  refine starts_clock.bind fun t => (starts_withRetry config (starts_ask _)).bind fun r => ?_
  cases r <;> exact starts_done _

theorem starts_logComplete (id : String) (handle : LogHandle) (r : StepResult) :
    (logComplete config execution id handle r).Starts P := by
  have hcomplete : ∀ target c, (complete config target c).Starts P :=
    fun _ _ => starts_withRetry config (starts_ask _)
  rw [logComplete_eq]
  refine starts_clock.bind fun t => Starts.bind ?_ fun byRow => Starts.bind ?_ fun w => starts_done _
  · rw [completeRow]
    split
    · exact hcomplete _ _
    · exact starts_done _
  · rcases byRow with (_ | _ | _) | _
    · exact hcomplete _ _
    · exact starts_done _
    · exact starts_done _
    · exact starts_done _

theorem starts_refreshStatus (run : RunState) (finished : Bool) :
    (refreshStatus config execution run finished).Starts P := by
  rw [refreshStatus_eq]
  exact (starts_ask _).bind fun _ => (starts_withRetry config (starts_ask _)).bind fun _ =>
    starts_done _

theorem starts_persistedStatus : (persistedStatus execution).Starts P := by
  refine (starts_ask _).bind fun r => ?_
  cases r <;> exact starts_done _

end Tracker

namespace Executor

open Flowgraph.Action

variable {x : Executor} {ids : RunIds} {program : Program} {graph : Graph} {h : List Event}
  {P : Invocation → Prop}

theorem starts_dispatch (outputs : Outputs) {nodes : List CompiledNode} (run : RunState)
    (hP : ∀ n ∈ nodes, P (n.invocation outputs)) :
    (x.dispatch ids outputs nodes run).Starts P := by
  induction nodes generalizing run with
  | nil => exact starts_done _
  | cons n rest ih =>
    have ih := fun run => ih run fun n hn => hP n (List.mem_cons_of_mem _ hn)
    rw [dispatch]
    split
    · split
      · exact (starts_note _).bind fun _ => ih run
      · have hattempt : (x.attempt ids n outputs).Starts P :=
          (Tracker.starts_logStart _ _).bind fun _ =>
            (starts_start (hP n List.mem_cons_self) _).bind fun _ => starts_done _
        exact hattempt.bind fun _ => (ih _).bind fun _ => starts_done _
    · exact ih run

theorem starts_collect (l : List (Attempt × Outcome)) (c : Course) :
    (x.collect ids l c).Starts P := by
  induction l generalizing c with
  | nil => exact starts_done _
  | cons p rest ih =>
    obtain ⟨a, outcome⟩ := p
    rw [collect]
    refine Starts.bind ?_ fun c => (Tracker.starts_logComplete _ _ _).bind fun _ => ih c
    simp only [Course.record]
    split
    · exact starts_done _
    · exact (starts_note _).bind fun _ => starts_done _

/-- A stage starts nothing but its own nodes. -/
theorem starts_runStage (stage : Stage) (c : Course) :
    (x.runStage ids (program.stageNodes stage) c).Starts (·.node ∈ stage.nodeIds) := by
  refine (starts_dispatch _ _ fun n hn => ?_).bind fun _ => starts_outcomes.bind fun _ =>
    (starts_collect _ _).bind fun _ => (Tracker.starts_refreshStatus _ _).bind fun _ => starts_done _
  obtain ⟨id, hid, hnode⟩ := List.mem_filterMap.1 hn
  obtain rfl : n.id = id := by simpa using List.find?_some hnode
  exact hid

variable (program) in
/-- Behind this history a step of one stage may be started: the row has been read, without a final
status, after the steps of the stages before and before those of this one. -/
def Checked (execution : Uuid) (before : List Event) (i : Invocation) : Prop :=
  ∃ past stage rest, program.stages = past ++ stage :: rest ∧ i.node ∈ stage.nodeIds ∧
    ∃ earlier reading within,
      before = earlier ++ .called (.getExecution execution) reading :: within ∧
        (∀ row, reading = .ok row → row.status.isTerminal = false) ∧
        (∀ j ∈ starts earlier, j.node ∈ past.flatMap Stage.nodeIds) ∧
        ∀ j ∈ starts within, j.node ∈ stage.nodeIds

theorem reading_of_path {stopped : Bool} {h' : List Event}
    (p : Action.Path h (Tracker.isStopped ids.execution) h' (.done stopped)) :
    ∃ reading, h' = h ++ [Event.called (.getExecution ids.execution) reading] := by
  have hread : (Tracker.isStopped ids.execution).Ensures (fun _ => True) (fun _ => True)
      (fun _ h' => ∃ r, h' = h ++ [Event.called (.getExecution ids.execution) r]) h :=
    Ensures.bind (Tracker.ensures_persistedStatus trivial fun _ => trivial)
      fun _ _ _ _ ⟨r, _, hr⟩ => ⟨trivial, r, hr⟩
  exact (p.ensures hread).2

variable {before : List Event} {i : Invocation} {w : Work}

/-- A step that is started in a stage has the reading for that stage behind it. -/
theorem checked_of_runStage {past later : List Stage} {stage : Stage} {c : Course}
    {rest : Action Course} {reading : Except StoreError ExecutionRow}
    (hsplit : program.stages = past ++ stage :: later)
    (hpast : ∀ j ∈ starts h, j.node ∈ past.flatMap Stage.nodeIds)
    (hu : Unstopped ids.execution before)
    (p : Action.Path (h ++ [Event.called (.getExecution ids.execution) reading])
      (x.runStage ids (program.stageNodes stage) c) (before ++ [Event.started i w]) rest) :
    Checked program ids.execution before i := by
  have hne : h ++ [Event.called (.getExecution ids.execution) reading] ≠
      before ++ [Event.started i w] := fun he => by simpa using (List.append_inj' he rfl).2
  obtain ⟨⟨within, rfl, hwithin⟩, hi⟩ :=
    (p.adds_starts (starts_runStage stage c)).of_concat.resolve_left hne
  refine ⟨past, stage, later, hsplit, hi, h, reading, within, by simp, ?_, hpast, fun j hj => ?_⟩
  · rintro row rfl
    exact hu row (by simp)
  · obtain ⟨w', hw'⟩ := mem_starts.1 hj
    exact hwithin _ hw'

/-- A start along the stages is the last event before them, or it is in one of them. -/
theorem checked_of_runStages {stages past : List Stage} {c : Course}
    {rest : Action (Course × Bool)} (hsplit : program.stages = past ++ stages)
    (hpast : ∀ j ∈ starts h, j.node ∈ past.flatMap Stage.nodeIds)
    (hu : Unstopped ids.execution before)
    (p : Action.Path h (x.runStages ids program stages c) (before ++ [Event.started i w]) rest) :
    h = before ++ [Event.started i w] ∨ Checked program ids.execution before i := by
  induction stages generalizing past c h with
  | nil =>
    cases p
    exact Or.inl rfl
  | cons stage later ih =>
    rw [runStages] at p
    have hstop : (Tracker.isStopped ids.execution).Starts fun _ => False :=
      Tracker.starts_persistedStatus.bind fun _ => starts_done _
    obtain ⟨_, p⟩ | ⟨stopped, mid, pread, p⟩ := p.of_bind
    · exact (p.adds_starts hstop).of_concat.imp_right fun hfalse => hfalse.2.elim
    obtain ⟨reading, rfl⟩ := reading_of_path pread
    cases stopped with
    | true =>
      generalize hk : before ++ [Event.started i w] = k at p
      cases p
      simpa using (List.append_inj' hk rfl).2
    | false =>
      obtain ⟨_, p⟩ | ⟨c', mid, pstage, p⟩ := p.of_bind
      · exact Or.inr (checked_of_runStage hsplit hpast hu p)
      have hadds := pstage.adds_starts (starts_runStage stage c)
      have hsplit' : program.stages = (past ++ [stage]) ++ later := by simp [hsplit]
      refine Or.inr ((ih hsplit' ?_ p).elim ?_ id)
      · intro j hj
        rw [List.flatMap_append, List.mem_append]
        rcases hadds.of_mem_starts hj with hj | hj
        · exact Or.inl (hpast j (by simpa using hj))
        · exact Or.inr (by simpa using hj)
      · rintro rfl
        exact checked_of_runStage hsplit hpast hu pstage

theorem starts_conclude (out : Course × Bool) : (x.conclude ids out).Starts P :=
  (Tracker.starts_refreshStatus _ _).bind fun _ =>
    Tracker.starts_persistedStatus.bind fun _ => starts_done _

/-- Every step that a run has started was started after its row had been read for the stage. -/
theorem checked_of_path (hp : program.Layered graph) {rest : Action ExecutionReport}
    (p : Action.Path [] (x.drive ids program) h rest) {after : List Event}
    (hsplit : h = before ++ .started i w :: after) :
    Checked program ids.execution before i := by
  have ho := orderly_of_path hp p
  rw [hsplit] at ho
  obtain ⟨-, -, -, hu⟩ := ho.allowed
  rw [hsplit, List.append_cons] at p
  obtain ⟨_, p⟩ := p.before List.nil_prefix (List.prefix_append _ _)
  have hnil : [] ≠ before ++ [Event.started i w] := by simp
  have htraverse : ∀ {rest'}, Action.Path [] (x.traverse ids program)
      (before ++ [Event.started i w]) rest' → Checked program ids.execution before i := by
    intro rest' p
    have hrefresh : ∀ {rest'}, ¬ Action.Path [] (Tracker.refreshStatus x.config ids.execution
        (Course.start program).run false) (before ++ [Event.started i w]) rest' := fun p =>
      ((p.adds_starts (P := fun _ => False)
        (Tracker.starts_refreshStatus _ _)).of_concat.resolve_left hnil).2
    obtain ⟨_, p⟩ | ⟨_, mid, prefresh, p⟩ := p.of_bind
    · exact (hrefresh p).elim
    have hquiet := prefresh.adds_starts (P := fun _ => False) (Tracker.starts_refreshStatus _ _)
    have hpast : ∀ j ∈ starts mid, j.node ∈ [].flatMap Stage.nodeIds := fun j hj =>
      absurd ((hquiet.of_mem_starts hj).resolve_right id) List.not_mem_nil
    have hall : program.stages = [] ++ program.stages := rfl
    refine (checked_of_runStages hall hpast hu p).resolve_left ?_
    rintro rfl
    exact hrefresh prefresh
  rw [drive_eq] at p
  obtain ⟨_, p⟩ | ⟨out, mid, ptraverse, p⟩ := p.of_bind
  · exact htraverse p
  · obtain rfl | ⟨-, hfalse⟩ := (p.adds_starts (P := fun _ => False) (starts_conclude out)).of_concat
    · exact htraverse ptraverse
    · exact hfalse.elim

end Executor

end Flowgraph
