import Flowgraph.Proofs.Executor.Alone

/-! What a run reports when its store does not fail and nobody stops it: the report is the one that
recursion over the dependencies of the graph gives. The conditions on the report determine it, so
there is no other. -/

namespace Flowgraph

namespace Executor

variable (x : Executor) (ids : RunIds) (graph : Graph) (program : Program)

/-- What recursion over the dependencies says of a report. -/
structure Dataflow (report : ExecutionReport) : Prop where
  execution : report.execution = ids.execution
  /-- Every node is listed once, in the order of the program. -/
  listed : report.nodes.map (·.1) = program.nodeIds
  nodup : program.nodeIds.Nodup
  perm : program.nodeIds.Perm graph.ids
  settled : ∀ s ∈ report.nodes, s.2 ≠ .running
  /-- A node is left out if one of its ancestors has failed, and only then. -/
  blocked : ∀ n ∈ program.nodes, report.nodes.lookup n.id = some .pending ↔
    ∃ a, graph.Upstream a n.id ∧ report.nodes.lookup a = some .error
  /-- Every other node ends with what its step comes to on the outputs of its ancestors. -/
  evaluated : ∀ n ∈ program.nodes, report.nodes.lookup n.id ≠ some .pending →
    ∃ d, x.registry.find? n.stepType = some d ∧ ∀ outputs : Outputs,
      (∀ a, graph.Upstream a n.id → outputs.lookup a = report.outputs.lookup a) →
      ∃ o, (d.step (n.resolveInput outputs) (x.context ids n)).ComesTo o ∧
        report.nodes.lookup n.id = some o.result.status ∧
        report.outputs.lookup n.id = o.result.data?
  outputs : ∀ id, (report.outputs.lookup id).isSome ↔ report.nodes.lookup id = some .success
  status : report.status = if .error ∈ report.nodes.map (·.2) then .error else .success

variable {x ids graph program}

section

variable {R : Results}

theorem lookup_reportOf (ids : RunIds) {id : String} {s : RunStatus} :
    (reportOf ids program R).nodes.lookup id = some s ↔ id ∈ program.nodeIds ∧ R.status id = s := by
  rw [reportOf, RunState.lookup_map_pair]
  split
  · next hid => simp [hid]
  · next hid => simp [hid]

theorem Complete.evaluated (hc : x.Complete ids program R) (hp : program.Layered graph)
    {n : CompiledNode} (hn : n ∈ program.nodes) (hid : n.id ∈ R.ids) {outputs : Outputs}
    (ho : ∀ a, graph.Upstream a n.id → outputs.lookup a = R.outputs.lookup a) :
    ∃ o, (x.work ids n (n.resolveInput outputs)).ComesTo o ∧ R.status n.id = o.result.status ∧
      R.outputs.lookup n.id = o.result.data? := by
  obtain ⟨r, hr⟩ := Results.mem_ids_iff.1 hid
  obtain ⟨o, hcomes, rfl⟩ := hc.comes n hn r hr
  have hinput : n.resolveInput outputs = n.resolveInput R.outputs :=
    CompiledNode.resolveInput_congr fun ref href => ho _ (hp.upstream n hn ref href)
  refine ⟨o, hinput ▸ hcomes, Results.status_of_lookup hr, ?_⟩
  rw [Results.lookup_outputs hc.nodup, hr]
  rfl

theorem Complete.dataflow (hc : x.Complete ids program R) (hp : program.Layered graph)
    (ht : ∀ n ∈ program.nodes, ∃ d, x.registry.find? n.stepType = some d) :
    x.Dataflow ids graph program (reportOf ids program R) := by
  have hlisted : ∀ {id s}, R.status id = s → s ≠ .pending → id ∈ program.nodeIds := by
    rintro id s rfl hs
    rw [Ne, Results.status_eq_pending_iff, not_not] at hs
    obtain ⟨n, hn, rfl⟩ := hc.known id hs
    exact List.mem_map_of_mem hn
  refine ⟨rfl, ?_, hp.nodup, hp.nodeIds_perm, ?_, ?_, ?_, ?_, ?_⟩
  · simp [reportOf, Function.comp_def]
  · intro s hs
    obtain ⟨id, -, rfl⟩ := List.mem_map.1 hs
    exact Results.status_ne_running
  · intro n hn
    have hmem : n.id ∈ program.nodeIds := List.mem_map_of_mem hn
    simp only [lookup_reportOf]
    rw [and_iff_right hmem, hc.pending_iff hp hn]
    refine exists_congr fun a => and_congr_right fun _ => ?_
    exact (and_iff_right_of_imp fun ha => hlisted ha (by decide)).symm
  · intro n hn hpending
    have hmem : n.id ∈ program.nodeIds := List.mem_map_of_mem hn
    rw [Ne, lookup_reportOf, not_and, Results.status_eq_pending_iff, not_not] at hpending
    obtain ⟨d, hd⟩ := ht n hn
    refine ⟨d, hd, fun outputs ho => ?_⟩
    obtain ⟨o, hcomes, hstatus, hdata⟩ := hc.evaluated hp hn (hpending hmem) ho
    rw [work, Registry.resolve, hd] at hcomes
    exact ⟨o, hcomes, (lookup_reportOf ids).2 ⟨hmem, hstatus⟩, hdata⟩
  · intro id
    rw [lookup_reportOf, and_iff_right_of_imp fun hs => hlisted hs (by decide)]
    have hsome : (R.outputs.lookup id).isSome ↔ R.Succeeded id := by
      rw [Results.lookup_outputs hc.nodup, Results.succeeded_iff]
      cases R.lookup id with
      | none => simp
      | some r => cases r <;> simp [StepResult.data?]
    exact hsome
  · simp only [reportOf, List.map_map, Function.comp_def]
    exact hc.derive_eq hp

end

section

variable {r r' : ExecutionReport}

theorem Dataflow.lookup_outputs_eq_none (hr : x.Dataflow ids graph program r) (id : String)
    (hs : r.nodes.lookup id ≠ some .success) : r.outputs.lookup id = none := by
  rw [← Option.not_isSome_iff_eq_none, hr.outputs id]
  exact hs

theorem Dataflow.lookup_eq_none (hr : x.Dataflow ids graph program r) {id : String}
    (hid : id ∉ program.nodeIds) : r.nodes.lookup id = none := by
  rw [List.lookup_eq_none_iff]
  intro p hp
  exact bne_iff_ne.2 fun he => hid (hr.listed ▸ List.mem_map.2 ⟨p, hp, he.symm⟩)

/-- The data of a node follows from the data of its ancestors. -/
theorem Dataflow.step (hx : x.registry.Silent) (hr : x.Dataflow ids graph program r)
    (hr' : x.Dataflow ids graph program r') {n : CompiledNode} (hn : n ∈ program.nodes)
    (hnodes : ∀ a, graph.Upstream a n.id → r.nodes.lookup a = r'.nodes.lookup a)
    (houtputs : ∀ a, graph.Upstream a n.id → r.outputs.lookup a = r'.outputs.lookup a) :
    r.nodes.lookup n.id = r'.nodes.lookup n.id ∧
      r.outputs.lookup n.id = r'.outputs.lookup n.id := by
  have hblocked : r.nodes.lookup n.id = some .pending ↔ r'.nodes.lookup n.id = some .pending := by
    rw [hr.blocked n hn, hr'.blocked n hn]
    exact exists_congr fun a => and_congr_right fun ha => by rw [hnodes a ha]
  by_cases hpending : r.nodes.lookup n.id = some .pending
  · have hpending' := hblocked.1 hpending
    have hnone := hr.lookup_outputs_eq_none n.id (by simp [hpending])
    have hnone' := hr'.lookup_outputs_eq_none n.id (by simp [hpending'])
    exact ⟨hpending.trans hpending'.symm, hnone.trans hnone'.symm⟩
  · obtain ⟨d, hd, hstep⟩ := hr.evaluated n hn hpending
    obtain ⟨d', hd', hstep'⟩ := hr'.evaluated n hn fun hs => hpending (hblocked.2 hs)
    obtain rfl : d = d' := Option.some.inj (hd.symm.trans hd')
    obtain ⟨o, hcomes, hstatus, hdata⟩ := hstep r.outputs fun _ _ => rfl
    obtain ⟨o', hcomes', hstatus', hdata'⟩ := hstep' r.outputs houtputs
    have hsilent := hx d (List.mem_of_find?_eq_some hd) (n.resolveInput r.outputs) (x.context ids n)
    obtain rfl := hsilent.comesTo_unique hcomes hcomes'
    exact ⟨hstatus.trans hstatus'.symm, hdata.trans hdata'.symm⟩

/-- Two reports that recursion over the dependencies allows are the same. -/
theorem Dataflow.unique (hx : x.registry.Silent) (hp : program.Layered graph)
    (hr : x.Dataflow ids graph program r) (hr' : x.Dataflow ids graph program r') :
    r.execution = r'.execution ∧ r.status = r'.status ∧ r.nodes = r'.nodes ∧
      ∀ id, r.outputs.lookup id = r'.outputs.lookup id := by
  have hall : ∀ n ∈ program.nodes, r.nodes.lookup n.id = r'.nodes.lookup n.id ∧
      r.outputs.lookup n.id = r'.outputs.lookup n.id := by
    refine hp.induction fun n hn ih => hr.step hx hr' hn ?_ ?_
    · intro a ha
      obtain ⟨m, hm, rfl, -⟩ := hp.exists_of_upstream hn ha
      exact (ih m hm ha).1
    · intro a ha
      obtain ⟨m, hm, rfl, -⟩ := hp.exists_of_upstream hn ha
      exact (ih m hm ha).2
  have hlookup : ∀ id, r.nodes.lookup id = r'.nodes.lookup id ∧
      r.outputs.lookup id = r'.outputs.lookup id := by
    intro id
    by_cases hid : id ∈ program.nodeIds
    · obtain ⟨n, hn, rfl⟩ := List.mem_map.1 hid
      exact hall n hn
    · have hnone := hr.lookup_eq_none hid
      have hnone' := hr'.lookup_eq_none hid
      refine ⟨hnone.trans hnone'.symm, ?_⟩
      rw [hr.lookup_outputs_eq_none id (by simp [hnone]),
        hr'.lookup_outputs_eq_none id (by simp [hnone'])]
  have hnodes : r.nodes = r'.nodes := by
    refine eq_of_lookup (hr.listed.trans hr'.listed.symm) ?_ fun id => (hlookup id).1
    rw [hr.listed]
    exact hr.nodup
  refine ⟨hr.execution.trans hr'.execution.symm, ?_, hnodes, fun id => (hlookup id).2⟩
  rw [hr.status, hr'.status, hnodes]

end

end Executor

/-- No call to the store fails. -/
structure World.Faultless (w : World) : Prop where
  no_faults : w.faults = []
  writable : w.store.logWritesFail = false

/-- No row of the store is about the execution. -/
structure MemoryStore.Unknown (s : MemoryStore) (execution : Uuid) : Prop where
  executions : ∀ row ∈ s.tables.executions, row.id ≠ execution
  logs : ∀ row ∈ s.tables.logs, row.execution ≠ execution

theorem MemoryStore.unknown_empty (execution : Uuid) : MemoryStore.empty.Unknown execution :=
  ⟨by simp [MemoryStore.empty, Tables.empty], by simp [MemoryStore.empty, Tables.empty]⟩

namespace Executor

variable {x : Executor} {program : Program}

theorem not_exhausted_of_writable {first s : MemoryStore} {h : List Event}
    (hr : (Setting.alone False).Runs first (h.map .own) s) (hw : first.logWritesFail = false)
    (config : TrackerConfig) : ¬ Exhausted config h := by
  rintro ⟨-, c, l, e, -, he, hspent⟩
  have hmem : .called c (.error e) ∈ h := hspent.subset (by simp)
  exact he ((hr.writable id hw).2 c e (by rwa [own_map]))

/-- The execution that a run creates. -/
theorem perform_run {workflow : Workflow} {w : World} (hc : x.compile workflow.graph = .ok program)
    (hw : w.Faultless) (hnew : w.store.Unknown w.supply.fresh.1) :
    ∃ w' : World, w'.Faultless ∧ Fresh w.supply.fresh.1 w'.store ∧
      (x.run workflow).perform World.service (.new w) =
        ((x.drive ⟨workflow.id, w.supply.fresh.1⟩ program).bind fun report =>
          .done (.ok report)).perform World.service (.new w') := by
  obtain ⟨store, faults, supply⟩ := w
  obtain rfl : faults = [] := hw.no_faults
  let row : ExecutionRow := ⟨supply.fresh.1, workflow.id, .pending, supply.fresh.2.now.1, none⟩
  let tables := { store.tables with executions := store.tables.executions ++ [row] }
  refine ⟨⟨store.withTables tables, [], supply.fresh.2.now.2⟩, ⟨rfl, hw.writable⟩,
    ⟨fun r hr hid => ?_, hnew.logs⟩, ?_⟩
  · rcases List.mem_append.1 hr with hr | hr
    · exact absurd hid (hnew.executions r hr)
    · obtain rfl := List.mem_singleton.1 hr
      rfl
  · rw [run, hc]
    rfl

/-- A run that meets no faults and no stop reports what recursion over the dependencies gives,
and nothing else is allowed. -/
theorem run_dataflow {workflow : Workflow} {w : World}
    (hc : x.compile workflow.graph = .ok program) (hx : x.registry.Silent) (hw : w.Faultless)
    (hnew : w.store.Unknown w.supply.fresh.1) :
    ∃ report p, (x.run workflow).perform World.service (.new w) = (some (.ok report), p) ∧
      x.Dataflow ⟨workflow.id, w.supply.fresh.1⟩ workflow.graph program report ∧
      ∀ other, x.Dataflow ⟨workflow.id, w.supply.fresh.1⟩ workflow.graph program other →
        other.status = report.status ∧ other.nodes = report.nodes ∧
          ∀ id, other.outputs.lookup id = report.outputs.lookup id := by
  have hp := Graph.compile_layered hc
  obtain ⟨w', hw', hfresh, hrun⟩ := perform_run hc hw hnew
  obtain ⟨R, hcomplete, hreport, -⟩ := perform_drive_alone
    ⟨workflow.id, w.supply.fresh.1⟩ World.backed_of_no_faults hw'.no_faults hx hp hfresh
    fun h _ hr => not_exhausted_of_writable hr hw'.writable x.config
  have hflow := hcomplete.dataflow hp (Graph.compile_typed hc)
  refine ⟨_, _, hrun.trans (Action.perform_bind (Prod.ext hreport rfl)), hflow, fun other ho => ?_⟩
  exact (ho.unique hx hp hflow).2

/-- Two nodes in an empty store. -/
theorem relay_dataflow : ∃ program report p,
    echoing.compile .relay = .ok program ∧
    (echoing.run ⟨.ofNat 1, .nil, "relay", .relay, ⟨0, 0⟩⟩).perform World.service
      (.new ⟨.empty, [], ⟨0, 0⟩⟩) = (some (.ok report), p) ∧
    echoing.Dataflow ⟨.ofNat 1, (Supply.fresh ⟨0, 0⟩).1⟩ .relay program report := by
  obtain ⟨program, hc⟩ := relay_compiles
  let workflow : Workflow := ⟨.ofNat 1, .nil, "relay", .relay, ⟨0, 0⟩⟩
  have hc' : echoing.compile workflow.graph = .ok program := hc
  obtain ⟨report, p, hrun, hflow, -⟩ := run_dataflow hc' (w := ⟨.empty, [], ⟨0, 0⟩⟩)
    echoing_silent ⟨rfl, rfl⟩ (MemoryStore.unknown_empty _)
  exact ⟨program, report, p, hc, hrun, hflow⟩

end Executor

end Flowgraph
