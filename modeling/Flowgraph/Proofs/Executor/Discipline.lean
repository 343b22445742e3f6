import Flowgraph.Proofs.Executor.Alone

/-! When a run starts its steps. Replies of the store are arbitrary here, so this holds whatever
calls fail and whenever somebody stops the run. -/

namespace Flowgraph

/-- What has to be so when a node is started: all its ancestors have succeeded, each in an earlier
stage, and the outputs hold the data of all producers that its inputs refer to. -/
structure Justified (graph : Graph) (program : Program) (R : Results) (n : CompiledNode)
    (i : Invocation) : Prop where
  mem : n ∈ program.nodes
  invocation_eq : i = n.invocation R.outputs
  dependencies : ∀ d ∈ n.dependencies, R.Succeeded d
  ancestors : ∀ a, graph.Upstream a n.id →
    R.Succeeded a ∧ ∃ m ∈ program.nodes, m.id = a ∧ m.stage < n.stage
  producers : ∀ r ∈ n.references,
    ∃ data, (r.node, .success data) ∈ R ∧ R.outputs.lookup r.node = some data

/-- No node is started twice or too early, and no move of a node is refused. -/
structure Disciplined (graph : Graph) (program : Program) (h : List Event) : Prop where
  once : ((starts h).map (·.node)).Nodup
  justified : ∀ before i w after, h = before ++ .started i w :: after →
    ∃ n, Justified graph program (tally before).results n i
  accepted : ∀ e, .warned e ∉ h

namespace Executor

variable {x : Executor} {ids : RunIds} {program : Program} {graph : Graph} {h : List Event}

theorem Dispatch.justified {R : Results} {n : CompiledNode} {i : Invocation} {w : Work}
    (hd : x.Dispatch ids program R n i w) (hs : x.Sound ids program R)
    (hp : program.Layered graph) : Justified graph program R n i := by
  have hancestors : ∀ a, graph.Upstream a n.id →
      R.Succeeded a ∧ ∃ m ∈ program.nodes, m.id = a ∧ m.stage < n.stage := by
    intro a ha
    exact ⟨hs.upstream hp hd.mem hd.ready ha, hp.exists_of_upstream hd.mem ha⟩
  refine ⟨hd.mem, hd.invocation_eq, hd.ready, hancestors, fun r hr => ?_⟩
  obtain ⟨data, hdata⟩ :=
    Results.succeeded_iff.1 (hancestors _ (hp.upstream n hd.mem r hr)).1
  refine ⟨data, Results.mem_of_lookup hdata, ?_⟩
  rw [Results.lookup_outputs hs.nodup, hdata]
  rfl

theorem Orderly.disciplined (ho : x.Orderly ids program h) (hp : program.Layered graph) :
    Disciplined graph program h := by
  refine ⟨ho.nodup_starts, ?_, ho.not_warned⟩
  rintro before i w after rfl
  obtain ⟨n, hd, -⟩ := ho.allowed
  exact ⟨n, hd.justified (ho.of_append.sound hp) hp⟩

/-- Wherever a run stands, it has kept the discipline, and when it returns no node is running. -/
theorem drive_disciplined (hc : x.compile graph = .ok program) (ids : RunIds)
    {rest : Action ExecutionReport} (p : Action.Path [] (x.drive ids program) h rest) :
    Disciplined graph program h ∧
      ∀ report, rest = .done report → ∀ s ∈ report.nodes, s.2 ≠ .running := by
  have hp := Graph.compile_layered hc
  refine ⟨(orderly_of_path hp p).disciplined hp, ?_⟩
  rintro report rfl s hs
  rw [(ended_of_path hp p).reported.nodes] at hs
  obtain ⟨id, -, rfl⟩ := List.mem_map.1 hs
  exact Results.status_ne_running

/-- Two nodes, with a store that twice refuses to take a log. -/
theorem relay_disciplined : ∃ program h report,
    let ids : RunIds := ⟨.ofNat 1, .ofNat 2⟩
    echoing.compile .relay = .ok program ∧
    Action.Path [] (echoing.drive ids program) h (.done report) ∧
    Disciplined .relay program h ∧ ∀ s ∈ report.nodes, s.2 ≠ .running := by
  obtain ⟨program, hc⟩ := relay_compiles
  let ids : RunIds := ⟨.ofNat 1, .ofNat 2⟩
  let world : World := ⟨.opened ids, [⟨.insertLog, 1, 2, false⟩], ⟨0, 0⟩⟩
  obtain ⟨report, h, -, -, hpath, -, -⟩ := perform_drive_done ids World.backed
    (s := world) trivial echoing_silent (Graph.compile_layered hc)
    fun h _ _ => not_exhausted (by decide) h
  obtain ⟨hdisciplined, hnone⟩ := drive_disciplined hc ids hpath
  exact ⟨program, h, report, hc, hpath, hdisciplined, hnone report rfl⟩

end Executor

end Flowgraph
