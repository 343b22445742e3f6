import Flowgraph.Proofs.Executor.Stage

/-! A whole run. Every history of it is orderly, and when it ends its report tells of the results
in the history and of the last reading of its row. -/

namespace Flowgraph

/-- What a stage depends on lies in the stages before it. -/
theorem Program.Layered.follows {program : Program} {graph : Graph} (hp : program.Layered graph)
    {before after : List Stage} {stage : Stage}
    (hsplit : program.stages = before ++ stage :: after) :
    Executor.Follows program (before.flatMap program.stageNodes) (program.stageNodes stage) := by
  have hnodes : program.nodes = before.flatMap program.stageNodes ++ (program.stageNodes stage ++
      after.flatMap program.stageNodes) := by
    rw [← hp.flatMap_stageNodes, hsplit, List.flatMap_append, List.flatMap_cons]
  have hnodup := hp.nodup
  rw [Program.nodeIds, hnodes, List.map_append, List.map_append, List.nodup_append,
    List.nodup_append] at hnodup
  obtain ⟨-, ⟨hstage, -, -⟩, hapart⟩ := hnodup
  have hnew : ∀ n ∈ program.stageNodes stage,
      n.id ∉ (before.flatMap program.stageNodes).map (·.id) := fun n hn hid =>
    hapart n.id hid n.id (List.mem_append_left _ (List.mem_map_of_mem hn)) rfl
  have hmem : ∀ n ∈ program.stageNodes stage, n ∈ program.nodes := fun n hn => by
    simp [hnodes, hn]
  have hindex : ∀ m ∈ program.stageNodes stage, m.stage = stage.index :=
    hp.stage_eq stage (by simp [hsplit])
  refine ⟨hmem, hstage, hnew, fun n hn d hd => ?_⟩
  rcases List.mem_append.1 hn with hn | hn
  · obtain ⟨p, q, hpq⟩ := List.append_of_mem hn
    rw [hpq, List.append_assoc] at hnodes
    obtain ⟨m, hm, rfl, -⟩ := hp.earlier hnodes d hd
    refine ⟨List.mem_map_of_mem (by simp [hnodes, hm]), fun hid => ?_⟩
    refine hapart m.id ?_ m.id (List.mem_append_left _ hid) rfl
    exact List.mem_map_of_mem (by simp [hpq, hm])
  · obtain ⟨p, q, hpq⟩ := List.append_of_mem hn
    rw [hpq, List.append_assoc, ← List.append_assoc] at hnodes
    obtain ⟨m, hm, rfl, hlt⟩ := hp.earlier hnodes d hd
    have hmnodes : m ∈ program.nodes := hnodes ▸ List.mem_append_left _ hm
    refine ⟨List.mem_map_of_mem hmnodes, fun hid => ?_⟩
    obtain ⟨k, hk, hid⟩ := List.mem_map.1 hid
    obtain rfl := Program.eq_of_id hp.nodup (hmem k hk) hmnodes hid
    have hkindex := hindex k hk
    have hnindex := hindex n hn
    omega

namespace Executor

open Flowgraph.Action

variable {x : Executor} {ids : RunIds} {program : Program} {graph : Graph} {h : List Event}

theorem Boundary.read {done : List CompiledNode} {c : Course} (hb : x.Boundary ids program done c h)
    (r : Except StoreError ExecutionRow) :
    x.Boundary ids program done c (h ++ [Event.called (.getExecution ids.execution) r]) := by
  refine hb.of_eq (List.prefix_append _ _) (by simp) (by simp) fun e he => ?_
  rw [starts_append, starts_called, List.append_nil]
  rcases List.mem_append.1 he with he | he
  · exact hb.fits e he
  · obtain rfl := List.mem_singleton.1 he
    trivial

theorem boundary_start (x : Executor) (ids : RunIds) (program : Program) :
    x.Boundary ids program [] (Course.start program) [] :=
  ⟨RunState.shows_new _, rfl, rfl, rfl, by simp [FitsAll], by simp [Logged]⟩

theorem ensures_isStopped (ho : x.Orderly ids program h) :
    (Tracker.isStopped ids.execution).Ensures (x.Orderly ids program) (Exhausted x.config)
      (fun stopped h' => ∃ r : Except StoreError ExecutionRow,
        h' = h ++ [Event.called (.getExecution ids.execution) r] ∧
        (stopped = true ↔ ∃ row, r = .ok row ∧ row.status.isTerminal = true)) h := by
  refine Ensures.bind (Tracker.ensures_persistedStatus ho fun r => ho.snoc rfl) ?_
  rintro s h' - ho' ⟨r, rfl, rfl⟩
  refine ⟨ho', r, rfl, ?_⟩
  rcases r with e | row
  · simp [Except.toOption]
  · simp [Except.toOption]

variable (x ids program) in
/-- How a run stands when no stage is left or it has been seen to be stopped. -/
structure Halted (out : Course × Bool) (h : List Event) : Prop where
  boundary : ∃ done todo, done ++ todo = program.stages ∧ (out.2 = false → todo = []) ∧
    x.Boundary ids program (done.flatMap program.stageNodes) out.1 h
  stopped : out.2 = false ↔ Unstopped ids.execution h

theorem ensures_runStages (hp : program.Layered graph) {stages before : List Stage} {c : Course}
    (hsplit : program.stages = before ++ stages) (ho : x.Orderly ids program h)
    (hb : x.Boundary ids program (before.flatMap program.stageNodes) c h)
    (hu : Unstopped ids.execution h) :
    (x.runStages ids program stages c).Ensures (x.Orderly ids program) (Exhausted x.config)
      (x.Halted ids program) h := by
  induction stages generalizing before c h with
  | nil => exact ⟨ho, ⟨before, [], hsplit.symm, fun _ => rfl, hb⟩, by simpa using hu⟩
  | cons stage rest ih =>
    rw [runStages]
    refine Ensures.bind (ensures_isStopped ho) ?_
    rintro stopped h₁ hp₁ ho₁ ⟨r, rfl, hstopped⟩
    have hb₁ := hb.read r
    have hsplit' : program.stages = (before ++ [stage]) ++ rest := by simp [hsplit]
    cases stopped with
    | true =>
      obtain ⟨row, rfl, hrow⟩ := hstopped.1 rfl
      refine ⟨ho₁, ⟨before, stage :: rest, hsplit.symm, by simp, hb₁⟩, ?_⟩
      simp only [Bool.true_eq_false, false_iff]
      intro hun
      have hopen := hun row (by simp)
      simp [hrow] at hopen
    | false =>
      have hu₁ : Unstopped ids.execution (h ++ [Event.called (.getExecution ids.execution) r]) := by
        intro row hrow
        rcases List.mem_append.1 hrow with hrow | hrow
        · exact hu row hrow
        · have hr : r = .ok row := by simpa using (List.mem_singleton.1 hrow).symm
          by_contra hterm
          exact Bool.false_ne_true (hstopped.2 ⟨row, hr, by simpa using hterm⟩)
      refine Ensures.bind (ensures_runStage ho₁ hb₁ hu₁ (hp.follows hsplit)) ?_
      rintro c' h₂ - ho₂ ⟨hb₂, hu₂⟩
      exact ih hsplit' ho₂ (by simpa using hb₂) hu₂

variable (x ids program) in
/-- A run up to the end of its stages. -/
def traverse : Action (Course × Bool) :=
  (Tracker.refreshStatus x.config ids.execution (Course.start program).run false).bind fun _ =>
    x.runStages ids program program.stages (Course.start program)

variable (x ids) in
/-- What a run does when its stages have come to an end. -/
def conclude (out : Course × Bool) : Action ExecutionReport :=
  (Tracker.refreshStatus x.config ids.execution out.1.run true).bind fun derived =>
    (Tracker.persistedStatus ids.execution).bind fun persisted =>
      .done ⟨ids.execution, finalStatus persisted out.2 derived, out.1.run.snapshot,
        out.1.outputs⟩

theorem drive_eq : x.drive ids program = (x.traverse ids program).bind (x.conclude ids) :=
  (bind_assoc _ _ _).symm

theorem ensures_traverse (hp : program.Layered graph) :
    (x.traverse ids program).Ensures (x.Orderly ids program) (Exhausted x.config)
      (x.Halted ids program) [] := by
  refine Ensures.bind (ensures_refresh .nil _) ?_
  rintro _ h₁ - ho₁ ha₁
  have hu₁ : Unstopped ids.execution h₁ := ha₁.inner_quiet.unstopped (by simp [Unstopped])
  have hall : program.stages = [] ++ program.stages := rfl
  exact ensures_runStages hp hall ho₁ ((boundary_start x ids program).adds ha₁) hu₁

variable (x ids program) in
/-- How a run ends: the final status is derived and written, and the row is read once more. -/
def Ended (report : ExecutionReport) (h : List Event) : Prop :=
  ∃ c stopped h₁ listed reading mid,
    x.Halted ids program (c, stopped) h₁ ∧
    (∀ e ∈ mid, IsTry (.updateStatus ids.execution (Tracker.derivedStatus c.run listed) true) e) ∧
    h = h₁ ++ .called (.listLogs ids.execution) listed :: mid ++
      [.called (.getExecution ids.execution) reading] ∧
    report = ⟨ids.execution,
      finalStatus (reading.toOption.map (·.status)) stopped (Tracker.derivedStatus c.run listed),
      c.run.snapshot, c.outputs⟩

/-- A run keeps to the rules, and ends unless its budget of retries is the greatest and spent. -/
theorem ensures_drive (hp : program.Layered graph) :
    (x.drive ids program).Ensures (x.Orderly ids program) (Exhausted x.config)
      (x.Ended ids program) [] := by
  rw [drive_eq]
  refine Ensures.bind (ensures_traverse hp) ?_
  rintro ⟨c, stopped⟩ h₂ - ho₂ hhalt
  refine Ensures.bind (Tracker.ensures_refreshStatus true ho₂
    fun _ h' => ho₂.adds_refresh (by simp)) ?_
  rintro _ h₃ - ho₃ ⟨listed, rfl, mid, rfl, hmid⟩
  refine Ensures.bind (Tracker.ensures_persistedStatus ho₃ fun r => ho₃.snoc rfl) ?_
  rintro _ h₄ - ho₄ ⟨reading, rfl, rfl⟩
  exact ⟨ho₄, c, stopped, h₂, listed, reading, mid, hhalt, hmid, by simp, rfl⟩

theorem closing_eq {s : RunStatus} {h₁ mid : List Event} {listed : Except StoreError (List LogRow)}
    {reading : Except StoreError ExecutionRow}
    (hmid : ∀ e ∈ mid, IsTry (.updateStatus ids.execution s true) e)
    (hh : h = h₁ ++ Event.called (.listLogs ids.execution) listed :: mid ++
      [.called (.getExecution ids.execution) reading]) :
    tally h = tally h₁ ∧ starts h = starts h₁ := by
  have hquiet : Adds Event.IsQuiet h₁
      (h₁ ++ Event.called (.listLogs ids.execution) listed :: mid) := by
    refine ⟨_, rfl, fun e he => ?_⟩
    rcases List.mem_cons.1 he with rfl | he
    · simp [Event.IsQuiet, Call.method]
    · exact isQuiet_of_isTry (hmid e he)
  subst hh
  rw [tally_called, starts_append, starts_called, List.append_nil]
  exact ⟨hquiet.tally_eq, hquiet.starts_eq⟩

variable (x ids program) in
/-- The report tells of the results in the history, and no step is waited for. -/
structure Reported (report : ExecutionReport) (h : List Event) : Prop where
  execution : report.execution = ids.execution
  nodes : report.nodes = program.nodeIds.map fun id => (id, (tally h).results.status id)
  outputs : report.outputs = (tally h).results.outputs
  idle : (tally h).running = []
  logged : Logged x.config ids.execution h (tally h).results

theorem Ended.reported {report : ExecutionReport} (he : x.Ended ids program report h) :
    x.Reported ids program report h := by
  obtain ⟨c, stopped, h₁, listed, reading, mid, hhalt, hmid, hh, rfl⟩ := he
  obtain ⟨done, todo, -, -, hb⟩ := hhalt.boundary
  have hgrow : h₁ <+: h := by
    rw [hh, List.append_assoc]
    exact List.prefix_append _ _
  obtain ⟨ht, -⟩ := closing_eq hmid hh
  refine ⟨rfl, ?_, ?_, ?_, ?_⟩
  · rw [ht]
    exact hb.shows.snapshot
  · rw [ht]
    exact hb.outputs
  · rw [ht]
    exact hb.idle
  · rw [ht]
    exact hb.logged.grows hgrow

/-- When no step is waited for, the results are those of all that were started. -/
theorem Reported.ids_eq {report : ExecutionReport} (hr : x.Reported ids program report h)
    (ho : x.Orderly ids program h) : (starts h).map (·.node) = (tally h).results.ids := by
  rw [ho.ids_eq, hr.idle]
  simp

section

variable {rest : Action ExecutionReport}

theorem orderly_of_path (hp : program.Layered graph)
    (p : Action.Path [] (x.drive ids program) h rest) : x.Orderly ids program h :=
  (p.ensures (ensures_drive hp)).here

theorem ended_of_path (hp : program.Layered graph) {report : ExecutionReport}
    (p : Action.Path [] (x.drive ids program) h (.done report)) : x.Ended ids program report h :=
  (p.ensures (ensures_drive hp)).2

theorem exhausted_of_path (hp : program.Layered graph)
    (p : Action.Path [] (x.drive ids program) h .overflow) : Exhausted x.config h :=
  (p.ensures (ensures_drive hp)).2

end

end Executor

end Flowgraph
