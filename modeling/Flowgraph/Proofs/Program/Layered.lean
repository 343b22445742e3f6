import Flowgraph.Proofs.Binding.Agree
import Flowgraph.Proofs.Graph.Accepted

/-! What the program of a graph is like: it holds every node once, stage by stage, and each node
comes after all that it depends on, which covers all that its inputs refer to. -/

namespace Flowgraph

theorem List.exists_split_of_flatMap {α β : Type} {f : α → List β} {l : List α} {b : β}
    {before after : List β} (h : l.flatMap f = before ++ b :: after) :
    ∃ (l₁ : List α) (a : α), ∃ l₂ p q,
      l = l₁ ++ a :: l₂ ∧ f a = p ++ b :: q ∧ before = l₁.flatMap f ++ p := by
  induction l generalizing before with
  | nil => simp at h
  | cons a rest ih =>
    rw [List.flatMap_cons, List.append_eq_append_iff] at h
    rcases h with ⟨mid, rfl, hrest⟩ | ⟨mid, hf, hmid⟩
    · obtain ⟨l₁, c, l₂, p, q, rfl, hc, rfl⟩ := ih hrest
      exact ⟨a :: l₁, c, l₂, p, q, rfl, hc, by simp⟩
    · cases mid with
      | nil =>
        have hrest : rest.flatMap f = [] ++ b :: after := by simpa using hmid.symm
        obtain ⟨l₁, c, l₂, p, q, rfl, hc, hp⟩ := ih hrest
        obtain ⟨h1, h2⟩ := List.append_eq_nil_iff.1 hp.symm
        exact ⟨a :: l₁, c, l₂, p, q, rfl, hc, by simp [h1, h2, hf]⟩
      | cons c mid =>
        obtain ⟨rfl, -⟩ := List.cons_eq_cons.1 hmid
        exact ⟨[], a, rest, before, mid, rfl, hf, by simp⟩

/-- A program holds the nodes of a graph in the order of their dependencies. -/
structure Program.Layered (program : Program) (graph : Graph) : Prop where
  nodeIds_perm : program.nodeIds.Perm graph.ids
  nodup : program.nodeIds.Nodup
  flatMap_stageNodes : program.stages.flatMap program.stageNodes = program.nodes
  stage_eq : ∀ s ∈ program.stages, ∀ n ∈ program.stageNodes s, n.stage = s.index
  mem_dependencies : ∀ n ∈ program.nodes, ∀ d, d ∈ n.dependencies ↔ graph.Leads d n.id
  earlier : ∀ {before n after}, program.nodes = before ++ n :: after →
    ∀ d ∈ n.dependencies, ∃ m ∈ before, m.id = d ∧ m.stage < n.stage
  upstream : ∀ n ∈ program.nodes, ∀ r ∈ n.references, graph.Upstream r.node n.id

namespace Graph

variable (graph : Graph)

def compiledNode (i : Fin graph.nodes.length) (stage : Nat) : CompiledNode :=
  (graph.validNode graph.dependencies (graph.configs graph.dependencies) i).compile stage

/-- The places of the nodes by stage, each stage with its number. -/
def layers : List (List (Fin graph.nodes.length) × Nat) := graph.dependencies.order.stages.zipIdx

def layerNodes (layer : List (Fin graph.nodes.length) × Nat) : List CompiledNode :=
  layer.1.map fun i => graph.compiledNode i layer.2

/-- The program that the graph compiles to if nothing is wrong with it. -/
def arranged : Program where
  nodes := graph.layers.flatMap graph.layerNodes
  stages := graph.layers.map fun layer => ⟨layer.2, layer.1.map fun i => (graph.node i).id⟩

@[simp] theorem compiledNode_id (i : Fin graph.nodes.length) (stage : Nat) :
    (graph.compiledNode i stage).id = (graph.node i).id := rfl

@[simp] theorem compiledNode_stage (i : Fin graph.nodes.length) (stage : Nat) :
    (graph.compiledNode i stage).stage = stage := rfl

variable {graph}

theorem compile_eq_ok {registry : Registry} {program : Program}
    (h : graph.compile registry = .ok program) :
    graph.Accepted registry ∧ program = graph.arranged := by
  rw [compile, validate] at h
  split at h
  · next hv =>
    refine ⟨accepted_of_violations hv, ?_⟩
    cases h
    simp only [ValidGraph.compile, arranged, layers]
    congr 1
    · refine List.flatMap_congr fun layer _ => ?_
      simp [layerNodes, compiledNode]
    · simp [validNode]
  · simp [Except.map] at h

theorem configs_get (g : DependencyGraph graph.nodes.length) (i : Fin graph.nodes.length) :
    (graph.configs g).get i = (graph.scope g i).compileConfig (graph.node i).config := by
  simp only [configs, Vector.get, Vector.toArray_ofFn, Array.getElem_ofFn]
  rfl

theorem layers_getElem {i : Nat} (h : i < graph.layers.length) : (graph.layers[i]).2 = i := by
  simp [layers]

theorem map_fst_layers : graph.layers.map (·.1) = graph.dependencies.order.stages := by
  simp [layers, List.zipIdx_map_fst]

theorem nodeIds_arranged :
    graph.arranged.nodeIds =
      graph.dependencies.order.stages.flatten.map fun i => (graph.node i).id := by
  rw [← map_fst_layers, List.flatten_eq_flatMap, List.flatMap_map, List.map_flatMap]
  simp only [Program.nodeIds, arranged, List.map_flatMap]
  exact List.flatMap_congr fun layer _ => by simp [layerNodes]

theorem Accepted.nodeIds_perm {registry : Registry} (h : graph.Accepted registry) :
    graph.arranged.nodeIds.Perm graph.ids := by
  have hperm := graph.dependencies.order_perm
  rw [h.resolved, List.append_nil] at hperm
  rw [nodeIds_arranged]
  refine (hperm.map _).trans (List.Perm.of_eq ?_)
  apply List.ext_getElem <;> simp [ids, node]

theorem Accepted.nodup_nodeIds {registry : Registry} (h : graph.Accepted registry) :
    graph.arranged.nodeIds.Nodup :=
  h.nodeIds_perm.nodup_iff.2 h.nodup

end Graph

namespace Program

variable {program : Program}

theorem node?_of_mem (h : program.nodeIds.Nodup) {n : CompiledNode} (hn : n ∈ program.nodes) :
    program.node? n.id = some n := by
  cases hf : program.node? n.id with
  | none =>
    rw [node?, List.find?_eq_none] at hf
    exact absurd (hf n hn) (by simp)
  | some m =>
    have hid : m.id = n.id := by simpa using List.find?_some hf
    rw [List.inj_on_of_nodup_map h (List.mem_of_find?_eq_some hf) hn hid]

theorem eq_of_id (h : program.nodeIds.Nodup) {m n : CompiledNode} (hm : m ∈ program.nodes)
    (hn : n ∈ program.nodes) (he : m.id = n.id) : m = n :=
  List.inj_on_of_nodup_map h hm hn he

/-- Whatever a node depends on, directly or not, stands before it in an earlier stage. -/
theorem Layered.before_of_upstream {graph : Graph} (hp : program.Layered graph)
    {before after : List CompiledNode} {n : CompiledNode}
    (hsplit : program.nodes = before ++ n :: after) {a : String} (ha : graph.Upstream a n.id) :
    ∃ m ∈ before, m.id = a ∧ m.stage < n.stage := by
  have hmem : ∀ {before after : List CompiledNode} {n : CompiledNode},
      program.nodes = before ++ n :: after → n ∈ program.nodes := fun h => by simp [h]
  generalize hid : n.id = id at ha
  induction ha generalizing before n after with
  | single ha =>
    subst hid
    exact hp.earlier hsplit _ ((hp.mem_dependencies n (hmem hsplit) _).2 ha)
  | tail _ hb ih =>
    subst hid
    obtain ⟨m, hm, rfl, hlt⟩ :=
      hp.earlier hsplit _ ((hp.mem_dependencies n (hmem hsplit) _).2 hb)
    obtain ⟨p, q, rfl⟩ := List.append_of_mem hm
    rw [List.append_assoc, List.cons_append] at hsplit
    obtain ⟨k, hk, hid, hlt'⟩ := ih hsplit rfl
    exact ⟨k, List.mem_append_left _ hk, hid, Nat.lt_trans hlt' hlt⟩

/-- Whatever is upstream of a node is a node. -/
theorem Layered.exists_of_upstream {graph : Graph} (hp : program.Layered graph)
    {n : CompiledNode} (hn : n ∈ program.nodes) {a : String} (ha : graph.Upstream a n.id) :
    ∃ m ∈ program.nodes, m.id = a ∧ m.stage < n.stage := by
  obtain ⟨before, after, hsplit⟩ := List.append_of_mem hn
  obtain ⟨m, hm, hid, hlt⟩ := hp.before_of_upstream hsplit ha
  exact ⟨m, hsplit ▸ List.mem_append_left _ hm, hid, hlt⟩

/-- Whatever holds of a node if it holds of all nodes upstream holds of every node. -/
theorem Layered.induction {graph : Graph} (hp : program.Layered graph) {P : CompiledNode → Prop}
    (h : ∀ n ∈ program.nodes, (∀ m ∈ program.nodes, graph.Upstream m.id n.id → P m) → P n) :
    ∀ n ∈ program.nodes, P n := by
  intro n
  generalize hk : n.stage = k
  induction k using Nat.strongRecOn generalizing n with
  | _ k ih =>
    intro hn
    refine h n hn fun m hm hup => ?_
    obtain ⟨m', hm', hid, hlt⟩ := hp.exists_of_upstream hn hup
    obtain rfl := eq_of_id hp.nodup hm' hm hid
    exact ih m'.stage (hk ▸ hlt) m' rfl hm

end Program

namespace Graph

variable {graph : Graph} {registry : Registry}

theorem Accepted.stageNodes_eq (h : graph.Accepted registry)
    {layer : List (Fin graph.nodes.length) × Nat} (hl : layer ∈ graph.layers) :
    graph.arranged.stageNodes ⟨layer.2, layer.1.map fun i => (graph.node i).id⟩ =
      graph.layerNodes layer := by
  have hnode : ∀ i ∈ layer.1,
      graph.arranged.node? (graph.node i).id = some (graph.compiledNode i layer.2) :=
    fun i hi => Program.node?_of_mem h.nodup_nodeIds
      (List.mem_flatMap.2 ⟨layer, hl, List.mem_map_of_mem hi⟩)
  rw [Program.stageNodes, List.filterMap_map, layerNodes, ← List.filterMap_eq_map]
  exact List.filterMap_congr fun i hi => by simpa using hnode i hi

theorem Accepted.mem_dependencies (h : graph.Accepted registry) {i : Fin graph.nodes.length}
    {stage : Nat} {d : String} :
    d ∈ (graph.compiledNode i stage).dependencies ↔ graph.Leads d (graph.node i).id := by
  have hdeps : (graph.compiledNode i stage).dependencies =
      (graph.dependencies.dependencies[i]).map fun j => (graph.node j).id := by
    simp only [compiledNode, ValidNode.compile, validNode, h.slot_eq]
    rfl
  rw [hdeps, List.mem_map]
  constructor
  · rintro ⟨j, hj, rfl⟩
    exact h.leads_iff.2 hj
  · intro hd
    obtain ⟨s, t, rfl, ht⟩ := h.exists_node hd
    obtain rfl := graph.node_injective h.nodup ht
    exact ⟨s, h.leads_iff.1 hd, rfl⟩

theorem Accepted.upstream_of_mem_references (h : graph.Accepted registry)
    {i : Fin graph.nodes.length} {stage : Nat} {r : OutputRef}
    (hr : r ∈ (graph.compiledNode i stage).references) :
    graph.Upstream r.node (graph.node i).id := by
  obtain ⟨kb, hkb, hr⟩ := List.mem_flatMap.1 hr
  rw [compiledNode, ValidNode.compile, validNode, configs_get] at hkb
  obtain ⟨j, hj, hnode⟩ := Scope.reaches_of_compileConfig _ _ hkb hr
  simp only [scope, h.slot_eq] at hj
  rw [hnode]
  exact h.upstream_of_precedes (graph.dependencies.isAncestor_iff.1 hj)

theorem Accepted.earlier (h : graph.Accepted registry) {before after : List CompiledNode}
    {n : CompiledNode} (hsplit : graph.arranged.nodes = before ++ n :: after) :
    ∀ d ∈ n.dependencies, ∃ m ∈ before, m.id = d ∧ m.stage < n.stage := by
  intro d hd
  obtain ⟨l₁, layer, l₂, p, q, hlayers, hlayer, rfl⟩ := List.exists_split_of_flatMap hsplit
  have hn : n ∈ graph.layerNodes layer := by rw [hlayer]; simp
  obtain ⟨i, hi, rfl⟩ := List.mem_map.1 hn
  have hnumber : layer.2 = l₁.length := by
    have hlen : l₁.length < graph.layers.length := by rw [hlayers]; simp
    have hget : graph.layers[l₁.length] = layer := by simp [hlayers]
    rw [← hget]
    exact graph.layers_getElem hlen
  have hstages : graph.dependencies.order.stages = l₁.map (·.1) ++ layer.1 :: l₂.map (·.1) := by
    rw [← map_fst_layers, hlayers]
    simp
  obtain ⟨s, t, rfl, ht⟩ := h.exists_node (h.mem_dependencies.1 hd)
  obtain rfl := graph.node_injective h.nodup ht
  have hs : s ∈ (l₁.map (·.1)).flatten :=
    DependencyGraph.mem_stage_of_order graph.dependencies_simple hstages hi
      (h.leads_iff.1 (h.mem_dependencies.1 hd))
  obtain ⟨_, hmem, hs⟩ := List.mem_flatten.1 hs
  obtain ⟨first, hfirst, rfl⟩ := List.mem_map.1 hmem
  refine ⟨graph.compiledNode s first.2, ?_, rfl, ?_⟩
  · exact List.mem_append_left _ (List.mem_flatMap.2 ⟨first, hfirst, List.mem_map_of_mem hs⟩)
  · obtain ⟨k, hk, rfl⟩ := List.getElem_of_mem hfirst
    have hlen : k < graph.layers.length := by rw [hlayers]; simp; omega
    have hget : graph.layers[k] = l₁[k] := by simp [hlayers, List.getElem_append_left hk]
    have hfirst := graph.layers_getElem hlen
    rw [hget] at hfirst
    simp only [compiledNode_stage, hfirst, hnumber]
    exact hk

/-- A graph that is accepted compiles to a layered program. -/
theorem compile_layered {program : Program} (h : graph.compile registry = .ok program) :
    program.Layered graph := by
  obtain ⟨ha, rfl⟩ := compile_eq_ok h
  have hmem : ∀ {n}, n ∈ graph.arranged.nodes → ∃ i stage, n = graph.compiledNode i stage := by
    intro n hn
    obtain ⟨layer, -, hn⟩ := List.mem_flatMap.1 hn
    obtain ⟨i, -, rfl⟩ := List.mem_map.1 hn
    exact ⟨i, layer.2, rfl⟩
  refine ⟨ha.nodeIds_perm, ha.nodup_nodeIds, ?_, ?_, ?_, ha.earlier, ?_⟩
  · simp only [arranged, List.flatMap_map]
    exact List.flatMap_congr fun layer hl => ha.stageNodes_eq hl
  · intro s hs n hn
    obtain ⟨layer, hl, rfl⟩ := List.mem_map.1 hs
    rw [ha.stageNodes_eq hl] at hn
    obtain ⟨i, -, rfl⟩ := List.mem_map.1 hn
    rfl
  · intro n hn d
    obtain ⟨i, stage, rfl⟩ := hmem hn
    exact ha.mem_dependencies
  · intro n hn r hr
    obtain ⟨i, stage, rfl⟩ := hmem hn
    exact ha.upstream_of_mem_references hr

/-- Every node of a graph that is accepted has a step. -/
theorem compile_typed {program : Program} (h : graph.compile registry = .ok program) :
    ∀ n ∈ program.nodes, ∃ d, registry.find? n.stepType = some d := by
  obtain ⟨ha, rfl⟩ := compile_eq_ok h
  intro n hn
  obtain ⟨layer, -, hn⟩ := List.mem_flatMap.1 hn
  obtain ⟨i, -, rfl⟩ := List.mem_map.1 hn
  exact ha.typed i

theorem compiles_of_isOk (h : (graph.compile registry).isOk = true) :
    ∃ program, graph.compile registry = .ok program := by
  cases hc : graph.compile registry with
  | error violations => simp [hc, Except.isOk, Except.toBool] at h
  | ok program => exact ⟨program, rfl⟩

theorem compiles_of_map {α : Type} {f : Program → α} {a : α}
    (h : (graph.compile registry).toOption.map f = some a) :
    ∃ program, graph.compile registry = .ok program ∧ f program = a := by
  cases hc : graph.compile registry with
  | error violations => simp [hc, Except.toOption] at h
  | ok program => exact ⟨program, rfl, by simpa [hc, Except.toOption] using h⟩

end Graph

end Flowgraph
