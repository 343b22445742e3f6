import Flowgraph.Proofs.Dependency.Counters
import Flowgraph.Proofs.Dependency.Depth
import Flowgraph.Proofs.Graph.Verdict

/-! The stages of a graph and its cycles, said of its edges. Ids may be repeated and edges may dangle,
repeat or lead back to where they start: an edge joins the first nodes that carry its ids, and edges
whose ends are not declared join nothing. -/

namespace Flowgraph

open DependencyGraph (StageOrder)

namespace Graph

/-- An edge leads from the first node to the second. Edges attach to the first node that carries an
id. -/
def Connects (graph : Graph) (s t : Fin graph.nodes.length) : Prop :=
  ∃ e ∈ graph.edges, graph.place? e.source = some s ∧ graph.place? e.target = some t

/-- Edges lead from the node back to it. -/
def OnCycle (graph : Graph) (i : Fin graph.nodes.length) : Prop :=
  Relation.TransGen graph.Connects i i

/-- Edges lead to the node from one on a cycle, be it the node itself. -/
def BehindCycle (graph : Graph) (i : Fin graph.nodes.length) : Prop :=
  ∃ j, graph.OnCycle j ∧ Relation.ReflTransGen graph.Connects j i

variable {graph : Graph}

theorem feeds_eq : graph.dependencies.Feeds = graph.Connects := by
  funext s t
  exact propext feeds_iff_edge

theorem precedes_self_iff {i : Fin graph.nodes.length} :
    graph.dependencies.Precedes i i ↔ graph.OnCycle i := by
  rw [DependencyGraph.Precedes, feeds_eq, OnCycle]

/-- An order of the nodes of a graph in stages. -/
structure Staged (graph : Graph) (order : StageOrder graph.nodes.length) : Prop where
  /-- Every node once, in a stage or left over. -/
  partition : (order.stages.flatten ++ order.unresolved).Perm (List.finRange graph.nodes.length)
  inhabited : ∀ stage ∈ order.stages, stage ≠ []
  ascending : ∀ stage ∈ order.stages, stage.Pairwise (· < ·)
  unresolved_ascending : order.unresolved.Pairwise (· < ·)
  mem_unresolved_iff : ∀ i, i ∈ order.unresolved ↔ graph.BehindCycle i
  mem_stage_iff : ∀ i k,
    (∃ stage, order.stages[k]? = some stage ∧ i ∈ stage) ↔ Deep graph.Connects k i

/-- Counters that never go below zero find the stages of every graph. A node is in the stage whose
number is the length of the longest chain of edges to it, and left over if it is behind a cycle. -/
theorem stages_by_depth (graph : Graph) :
    graph.dependencies.counted? = some graph.dependencies.order ∧
      graph.Staged graph.dependencies.order := by
  have hg := graph.dependencies_simple
  refine ⟨DependencyGraph.counted?_eq hg, ?_⟩
  constructor
  · exact DependencyGraph.order_perm
  · exact fun stage hstage => (graph.dependencies.stage_of_order hstage).1
  · exact fun stage hstage => (graph.dependencies.stage_of_order hstage).2
  · exact graph.dependencies.unresolved_pairwise
  · intro i
    rw [DependencyGraph.mem_unresolved_iff hg, feeds_eq]
    simp only [precedes_self_iff, BehindCycle]
  · intro i k
    rw [← feeds_eq]
    exact DependencyGraph.inStage_iff hg

section

open Classical

/-- The nodes on a cycle, in the order of declaration. -/
noncomputable def cyclic (graph : Graph) : List (Fin graph.nodes.length) :=
  (List.finRange graph.nodes.length).filter graph.OnCycle

theorem mem_cyclic {i : Fin graph.nodes.length} : i ∈ graph.cyclic ↔ graph.OnCycle i := by
  simp [cyclic]

/-- The members of a cycle are left over, so none of them is missed there. -/
theorem cycleMembers_eq (graph : Graph) :
    graph.dependencies.cycleMembers graph.dependencies.order = graph.cyclic := by
  have hmem : ∀ i, i ∈ graph.dependencies.cycleMembers graph.dependencies.order ↔
      i ∈ graph.cyclic := by
    intro i
    rw [DependencyGraph.cycleMembers, List.mem_filter, DependencyGraph.isAncestor_iff,
      precedes_self_iff, mem_cyclic, DependencyGraph.mem_unresolved_iff graph.dependencies_simple]
    constructor
    · exact And.right
    · intro hi
      exact ⟨⟨i, precedes_self_iff.2 hi, .refl⟩, hi⟩
  have hnodup : graph.dependencies.order.unresolved.Nodup :=
    graph.dependencies.unresolved_pairwise.imp fun hlt => Fin.ne_of_lt hlt
  have hperm := (List.perm_ext_iff_of_nodup (hnodup.filter _)
    ((List.nodup_finRange _).filter _)).2 hmem
  exact hperm.eq_of_pairwise (fun a b _ _ hab hba => absurd hba (Fin.lt_asymm hab))
    (graph.dependencies.unresolved_pairwise.filter _)
    ((List.pairwise_lt_finRange _).filter _)

/-- What is left over comes from a cycle. -/
theorem unresolved_eq_nil_iff_cyclic :
    graph.dependencies.order.unresolved = [] ↔ graph.cyclic = [] := by
  rw [DependencyGraph.unresolved_eq_nil_iff graph.dependencies_simple]
  simp only [precedes_self_iff, List.eq_nil_iff_forall_not_mem, mem_cyclic]

theorem cycleViolations_eq (graph : Graph) :
    graph.cycleViolations graph.dependencies =
      if graph.cyclic = [] then []
      else [.cycleDetected (graph.cyclic.map fun i => (graph.node i).id)] := by
  rw [cycleViolations]
  simp only [cycleMembers_eq, List.isEmpty_iff, unresolved_eq_nil_iff_cyclic]
  split <;> rfl

/-- What validation has to say of cycles. -/
def cycleReports (graph : Graph) (registry : Registry) : List Violation :=
  match graph.validate registry with
  | .ok _ => []
  | .error violations => violations.filter Violation.isCycle

theorem cycleReports_eq (graph : Graph) (registry : Registry) :
    graph.cycleReports registry = graph.cycleViolations graph.dependencies := by
  have hfilter : (graph.violations graph.dependencies (graph.configs graph.dependencies)
      registry).filter Violation.isCycle = graph.cycleViolations graph.dependencies := by
    have hothers : (graph.structuralViolations ++ (List.finRange graph.nodes.length).flatMap fun i =>
        schemaViolations registry (graph.node i) ++
          ((graph.configs graph.dependencies).get i).violations).filter Violation.isCycle = [] := by
      refine List.filter_eq_nil_iff.2 fun v hv => ?_
      simp [isCycle_of_mem_defects (violations_perm.mem_iff.1 hv)]
    rw [List.filter_append, List.append_eq_nil_iff] at hothers
    rw [violations, List.filter_append, List.filter_append, hothers.1, hothers.2, List.nil_append,
      List.append_nil]
    exact List.filter_eq_self.2 fun v hv => isCycle_of_mem_cycleViolations hv
  rw [cycleReports, validate]
  generalize graph.violations _ _ registry = violations at hfilter
  cases violations with
  | nil => exact hfilter
  | cons v rest => exact hfilter

/-- What is said of the cycles of a graph. -/
structure CyclesNamed (graph : Graph) (registry : Registry) : Prop where
  reported_iff : (∃ ids, .cycleDetected ids ∈ graph.cycleReports registry) ↔ ∃ i, graph.OnCycle i
  /-- One report names the nodes on cycles, in the order of declaration, and no others. -/
  named : (∃ i, graph.OnCycle i) → ∃ members : List (Fin graph.nodes.length),
    members.Pairwise (· < ·) ∧ (∀ i, i ∈ members ↔ graph.OnCycle i) ∧
      graph.cycleReports registry = [.cycleDetected (members.map fun i => (graph.node i).id)]
  /-- There always are members to name when nodes are left over. -/
  members : graph.dependencies.order.unresolved ≠ [] →
    graph.dependencies.cycleMembers graph.dependencies.order ≠ []

/-- A cycle is reported once, by its members; where there is none, none is reported. -/
theorem cycles_named (graph : Graph) (registry : Registry) : graph.CyclesNamed registry := by
  have hreports := (graph.cycleReports_eq registry).trans graph.cycleViolations_eq
  have hcyclic : graph.cyclic ≠ [] ↔ ∃ i, graph.OnCycle i := by
    simp only [← mem_cyclic, ne_eq, List.eq_nil_iff_forall_not_mem, not_forall, not_not]
  constructor
  · rw [hreports, ← hcyclic]
    by_cases hnil : graph.cyclic = [] <;> simp [hnil]
  · intro hcycle
    rw [hreports, if_neg (hcyclic.2 hcycle)]
    exact ⟨graph.cyclic, (List.pairwise_lt_finRange _).filter _, fun i => mem_cyclic, rfl⟩
  · rw [cycleMembers_eq]
    exact mt unresolved_eq_nil_iff_cyclic.2

end

end Graph

end Flowgraph
