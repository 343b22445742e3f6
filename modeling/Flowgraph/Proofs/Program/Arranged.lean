import Flowgraph.Proofs.Program.Layered
import Mathlib

/-! The program of a graph in full: every node once, in the order of stages and declarations, each
in the first stage that comes after all that it depends on. -/

namespace Flowgraph

namespace Graph

/-- The first node is declared before the second. -/
def Precedence (graph : Graph) (a b : String) : Prop := graph.ids.idxOf a < graph.ids.idxOf b

/-- What edges lead from to this node, in the order of declaration. -/
def sources (graph : Graph) (id : String) : List String :=
  graph.ids.filter fun source => (⟨source, id⟩ : Edge) ∈ graph.edges

end Graph

namespace Program

/-- A program arranges the nodes of a graph. -/
structure Arranges (program : Program) (graph : Graph) : Prop where
  /-- Every node once, under its own id, name and type. -/
  complete : (program.nodes.map fun n => (n.id, n.name, n.stepType)).Perm
    (graph.nodes.map fun node => (node.id, node.referenceName, node.stepType))
  nodup : program.nodeIds.Nodup
  sorted : program.nodes.Pairwise fun m n =>
    m.stage < n.stage ∨ m.stage = n.stage ∧ graph.Precedence m.id n.id
  found : ∀ n ∈ program.nodes, program.node? n.id = some n
  /-- Stages are numbered from 0, and each holds some node. -/
  numbered : program.stages.map Stage.index = List.range program.stages.length
  inhabited : ∀ s ∈ program.stages, program.stageNodes s ≠ []
  nodeIds_eq : ∀ s ∈ program.stages, s.nodeIds = (program.stageNodes s).map CompiledNode.id
  partition : program.stages.flatMap program.stageNodes = program.nodes
  stageNodes_eq : ∀ s ∈ program.stages,
    program.stageNodes s = program.nodes.filter (·.stage = s.index)
  dependencies_eq : ∀ n ∈ program.nodes, n.dependencies = graph.sources n.id
  descends : ∀ n ∈ program.nodes, ∀ d ∈ n.dependencies,
    ∃ m ∈ program.nodes, m.id = d ∧ m.stage < n.stage
  free : ∀ n ∈ program.nodes, n.stage = 0 ↔ n.dependencies = []
  /-- No stage is skipped: some dependency stands in the stage before. -/
  held : ∀ n ∈ program.nodes, n.dependencies ≠ [] →
    ∃ m ∈ program.nodes, m.id ∈ n.dependencies ∧ n.stage = m.stage + 1
  refers : ∀ n ∈ program.nodes, ∀ r ∈ n.references,
    ∃ m ∈ program.nodes, m.id = r.node ∧ m.stage < n.stage

variable {program : Program} {graph : Graph}

theorem filter_stage {stages : List Stage} (hn : (stages.map Stage.index).Nodup)
    (h : ∀ s ∈ stages, ∀ n ∈ program.stageNodes s, n.stage = s.index) {s : Stage}
    (hs : s ∈ stages) :
    (stages.flatMap program.stageNodes).filter (·.stage = s.index) = program.stageNodes s := by
  induction stages with
  | nil => simp at hs
  | cons first rest ih =>
    obtain ⟨hfirst, hrest⟩ := List.nodup_cons.1 hn
    rw [List.flatMap_cons, List.filter_append]
    rcases List.mem_cons.1 hs with rfl | hs
    · have hself : (program.stageNodes s).filter (·.stage = s.index) = program.stageNodes s :=
        List.filter_eq_self.2 fun n hn => by simpa using h s List.mem_cons_self n hn
      have hother : (rest.flatMap program.stageNodes).filter (·.stage = s.index) = [] := by
        refine List.filter_eq_nil_iff.2 fun n hn => ?_
        obtain ⟨t, ht, hn⟩ := List.mem_flatMap.1 hn
        rw [h t (List.mem_cons_of_mem _ ht) n hn, decide_eq_true_iff]
        exact fun he => hfirst (he ▸ List.mem_map_of_mem ht)
      rw [hself, hother, List.append_nil]
    · have hnone : (program.stageNodes first).filter (·.stage = s.index) = [] := by
        refine List.filter_eq_nil_iff.2 fun n hn => ?_
        rw [h first List.mem_cons_self n hn, decide_eq_true_iff]
        exact fun he => hfirst (he ▸ List.mem_map_of_mem hs)
      rw [hnone, List.nil_append]
      exact ih hrest (fun t ht => h t (List.mem_cons_of_mem _ ht)) hs

end Program

namespace Graph

variable {graph : Graph} {registry : Registry}

theorem idxOf_ids (h : graph.ids.Nodup) (i : Fin graph.nodes.length) :
    graph.ids.idxOf (graph.node i).id = i := by
  have hi : i.val < graph.ids.length := by simp [ids]
  have hget : graph.ids[i.val] = (graph.node i).id := by simp [ids, node]
  rw [← hget]
  exact h.idxOf_getElem i.val hi

theorem mem_nodes_arranged {n : CompiledNode} :
    n ∈ graph.arranged.nodes ↔
      ∃ (k : Nat) (hk : k < graph.dependencies.order.stages.length),
        ∃ i ∈ graph.dependencies.order.stages[k], n = graph.compiledNode i k := by
  simp only [arranged, List.mem_flatMap, layerNodes, List.mem_map, layers,
    List.mem_zipIdx_iff_getElem?, Prod.exists, List.getElem?_eq_some_iff]
  constructor
  · rintro ⟨_, k, ⟨hk, hmembers⟩, i, hi, rfl⟩
    exact ⟨k, hk, i, hmembers ▸ hi, rfl⟩
  · rintro ⟨k, hk, i, hi, rfl⟩
    exact ⟨_, k, ⟨hk, rfl⟩, i, hi, rfl⟩

theorem sorted_arranged (h : graph.ids.Nodup) :
    graph.arranged.nodes.Pairwise fun m n =>
      m.stage < n.stage ∨ m.stage = n.stage ∧ graph.Precedence m.id n.id := by
  refine List.pairwise_flatMap.2 ⟨fun layer hl => ?_, ?_⟩
  · have hmem : layer.1 ∈ graph.dependencies.order.stages :=
      map_fst_layers ▸ List.mem_map_of_mem hl
    refine List.pairwise_map.2 ((graph.dependencies.stage_of_order hmem).2.imp fun hij => ?_)
    refine Or.inr ⟨rfl, ?_⟩
    simpa only [Precedence, compiledNode_id, idxOf_ids h] using Fin.lt_def.1 hij
  · refine List.pairwise_iff_getElem.2 fun a b ha hb hab m hm n hn => Or.inl ?_
    obtain ⟨i, -, rfl⟩ := List.mem_map.1 hm
    obtain ⟨j, -, rfl⟩ := List.mem_map.1 hn
    simpa only [compiledNode_stage, layers_getElem] using hab

theorem Accepted.complete_arranged (h : graph.Accepted registry) :
    (graph.arranged.nodes.map fun n => (n.id, n.name, n.stepType)).Perm
      (graph.nodes.map fun node => (node.id, node.referenceName, node.stepType)) := by
  have hplaces : graph.dependencies.order.stages.flatten.Perm
      (List.finRange graph.nodes.length) := by
    simpa only [h.resolved, List.append_nil] using graph.dependencies.order_perm
  have hnodes : graph.arranged.nodes.map (fun n => (n.id, n.name, n.stepType)) =
      graph.dependencies.order.stages.flatten.map fun i =>
        ((graph.node i).id, (graph.node i).referenceName, (graph.node i).stepType) := by
    rw [← map_fst_layers, List.flatten_eq_flatMap, List.flatMap_map, List.map_flatMap]
    simp only [arranged, List.map_flatMap]
    refine List.flatMap_congr fun layer _ => ?_
    rw [layerNodes, List.map_map]
    rfl
  rw [hnodes]
  refine (hplaces.map _).trans (List.Perm.of_eq ?_)
  apply List.ext_getElem <;> simp [node]

theorem Accepted.dependencies_eq_sources (h : graph.Accepted registry)
    (i : Fin graph.nodes.length) (stage : Nat) :
    (graph.compiledNode i stage).dependencies = graph.sources (graph.node i).id := by
  have hids : graph.ids = (List.finRange graph.nodes.length).map fun j => (graph.node j).id := by
    apply List.ext_getElem <;> simp [ids, node]
  have hget : graph.dependencies.dependencies.get i = _ := Vector.getElem_ofFn i.isLt
  simp only [compiledNode, ValidNode.compile, validNode, h.slot_eq]
  rw [sources, hids, List.filter_map, hget]
  congr 1
  refine List.filter_congr fun j _ => ?_
  rw [Bool.eq_iff_iff, decide_eq_true_iff, Function.comp_apply, decide_eq_true_iff]
  change _ ↔ graph.Leads (graph.node j).id (graph.node i).id
  rw [h.leads_iff, feeds_iff]
  simp

/-- A node that is not in the first stage depends on one in the stage before. -/
theorem Accepted.exists_held (h : graph.Accepted registry) {n : CompiledNode}
    (hn : n ∈ graph.arranged.nodes) (h0 : n.stage ≠ 0) :
    ∃ m ∈ graph.arranged.nodes, m.id ∈ n.dependencies ∧ n.stage = m.stage + 1 := by
  obtain ⟨k, hk, i, hi, rfl⟩ := mem_nodes_arranged.1 hn
  obtain ⟨k, rfl⟩ := Nat.exists_eq_succ_of_ne_zero h0
  have hk' : k < graph.dependencies.order.stages.length := by omega
  have hsplit : graph.dependencies.order.stages =
      graph.dependencies.order.stages.take k ++ graph.dependencies.order.stages[k] ::
        graph.dependencies.order.stages[k + 1] :: graph.dependencies.order.stages.drop (k + 2) := by
    rw [List.getElem_cons_drop, List.getElem_cons_drop, List.take_append_drop]
  obtain ⟨j, hj, hfeeds⟩ :=
    DependencyGraph.feeds_of_order_next graph.dependencies_simple hsplit hi
  refine ⟨graph.compiledNode j k, mem_nodes_arranged.2 ⟨k, hk', j, hj, rfl⟩, ?_, rfl⟩
  exact h.mem_dependencies.2 (h.leads_iff.2 hfeeds)

theorem Accepted.inhabited_arranged (h : graph.Accepted registry) {s : Stage}
    (hs : s ∈ graph.arranged.stages) :
    graph.arranged.stageNodes s ≠ [] ∧
      s.nodeIds = (graph.arranged.stageNodes s).map CompiledNode.id := by
  obtain ⟨layer, hl, rfl⟩ := List.mem_map.1 hs
  have hmem : layer.1 ∈ graph.dependencies.order.stages := map_fst_layers ▸ List.mem_map_of_mem hl
  rw [h.stageNodes_eq hl]
  refine ⟨?_, by simp [layerNodes]⟩
  simpa [layerNodes] using (graph.dependencies.stage_of_order hmem).1

/-- Compiling loses no node, repeats none and arranges them by their dependencies. -/
theorem compile_arranges {program : Program} (h : graph.compile registry = .ok program) :
    program.Arranges graph := by
  have hp := compile_layered h
  obtain ⟨ha, rfl⟩ := compile_eq_ok h
  have hnumbered : graph.arranged.stages.map Stage.index =
      List.range graph.arranged.stages.length := by
    apply List.ext_getElem <;> simp [arranged, layers]
  have hindices : (graph.arranged.stages.map Stage.index).Nodup := hnumbered ▸ List.nodup_range
  have hdescends : ∀ n ∈ graph.arranged.nodes, ∀ d ∈ n.dependencies,
      ∃ m ∈ graph.arranged.nodes, m.id = d ∧ m.stage < n.stage := fun n hn d hd =>
    hp.exists_of_upstream hn (.single ((hp.mem_dependencies n hn d).1 hd))
  have hfree : ∀ n ∈ graph.arranged.nodes, n.stage = 0 ↔ n.dependencies = [] := by
    intro n hn
    constructor
    · intro h0
      refine List.eq_nil_iff_forall_not_mem.2 fun d hd => ?_
      obtain ⟨m, -, -, hlt⟩ := hdescends n hn d hd
      omega
    · intro hnil
      by_contra h0
      obtain ⟨m, -, hm, -⟩ := ha.exists_held hn h0
      simp [hnil] at hm
  exact {
    complete := ha.complete_arranged
    nodup := hp.nodup
    sorted := sorted_arranged ha.nodup
    found := fun n hn => Program.node?_of_mem hp.nodup hn
    numbered := hnumbered
    inhabited := fun s hs => (ha.inhabited_arranged hs).1
    nodeIds_eq := fun s hs => (ha.inhabited_arranged hs).2
    partition := hp.flatMap_stageNodes
    stageNodes_eq := fun s hs => by
      rw [← hp.flatMap_stageNodes, Program.filter_stage hindices hp.stage_eq hs]
    dependencies_eq := fun n hn => by
      obtain ⟨k, -, i, -, rfl⟩ := mem_nodes_arranged.1 hn
      exact ha.dependencies_eq_sources i k
    descends := hdescends
    free := hfree
    held := fun n hn hne => ha.exists_held hn (mt (hfree n hn).1 hne)
    refers := fun n hn r hr => hp.exists_of_upstream hn (hp.upstream n hn r hr) }

/-- Two ways lead from one node to another, which is declared before it. -/
def diamond : Graph where
  nodes := [
    ⟨"join", "echo", none,
      [("text", .string "\x7b\x7bleft.text\x7d\x7d \x7b\x7bstart.text\x7d\x7d")]⟩,
    ⟨"right", "echo", none, []⟩,
    ⟨"left", "echo", none, [("text", .string "\x7b\x7bstart.text\x7d\x7d")]⟩,
    ⟨"start", "echo", none, [("text", .string "hello")]⟩]
  edges := [⟨"start", "left"⟩, ⟨"start", "right"⟩, ⟨"left", "join"⟩, ⟨"right", "join"⟩,
    ⟨"left", "join"⟩]

theorem diamond_isOk : (diamond.compile ⟨[Step.echoDescriptor]⟩).isOk = true := by
  cbv

theorem diamond_arranged : ∃ program,
    diamond.compile ⟨[Step.echoDescriptor]⟩ = .ok program ∧ program.Arranges diamond := by
  obtain ⟨program, hc⟩ := compiles_of_isOk diamond_isOk
  exact ⟨program, hc, compile_arranges hc⟩

end Graph

end Flowgraph
