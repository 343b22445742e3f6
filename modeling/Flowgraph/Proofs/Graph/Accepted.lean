import Flowgraph.Proofs.Dependency.Reach
import Flowgraph.Proofs.Dependency.Stages
import Flowgraph.Validation
import Mathlib.Data.List.Nodup

/-! What a graph without violations is like: its ids are distinct, its edges join declared nodes,
and no node is left over when the stages are peeled off. Whatever a config compiles to refers
to nodes upstream only, with or without violations. -/

namespace Flowgraph

namespace Graph

variable (graph : Graph)

/-- An edge leads from the first node to the second. -/
def Leads (source target : String) : Prop := (⟨source, target⟩ : Edge) ∈ graph.edges

/-- The second node depends on the first, directly or not. -/
def Upstream : String → String → Prop := Relation.TransGen graph.Leads

theorem nodup_of_repeatedIds (h : graph.repeatedIds = []) : graph.ids.Nodup := by
  have hcount : ∀ i (hi : i < graph.ids.length), (graph.ids.take i).count graph.ids[i] ≠ 1 := by
    intro i hi hc
    have hmem : (graph.ids[i], i) ∈ graph.ids.zipIdx :=
      List.mem_zipIdx_iff_getElem?.2 (List.getElem?_eq_getElem hi)
    have hnone := List.filterMap_eq_nil_iff.1 h _ hmem
    simp [hc] at hnone
  have htake : ∀ n, (graph.ids.take n).Nodup := by
    intro n
    induction n with
    | zero => simp
    | succ n ih =>
      by_cases hn : n < graph.ids.length
      · rw [List.take_succ_eq_append_getElem hn, List.nodup_append]
        refine ⟨ih, List.nodup_singleton _, ?_⟩
        rintro a ha b hb rfl
        rw [List.mem_singleton] at hb
        subst hb
        exact hcount n hn (List.count_eq_one_of_mem ih ha)
      · rwa [List.take_of_length_le (by omega),
          ← List.take_of_length_le (l := graph.ids) (i := n) (by omega)]
  simpa using htake graph.ids.length

theorem place?_eq_some {id : String} {i : Fin graph.nodes.length}
    (h : graph.place? id = some i) : (graph.node i).id = id := by
  simpa [place?, node] using (List.findFinIdx?_eq_some_iff.1 h).1

theorem node_injective (h : graph.ids.Nodup) {i j : Fin graph.nodes.length}
    (he : (graph.node i).id = (graph.node j).id) : i = j := by
  have hi : graph.ids.get ⟨i.val, by simp [ids]⟩ = graph.ids.get ⟨j.val, by simp [ids]⟩ := by
    simpa [ids, node] using he
  exact Fin.ext (Fin.mk.inj ((List.Nodup.get_inj_iff h).1 hi))

theorem place?_node (h : graph.ids.Nodup) (i : Fin graph.nodes.length) :
    graph.place? (graph.node i).id = some i := by
  cases hp : graph.place? (graph.node i).id with
  | none =>
    rw [place?, List.findFinIdx?_eq_none_iff] at hp
    exact absurd (hp _ (List.getElem_mem i.isLt)) (by simp [node])
  | some j => rw [graph.node_injective h (graph.place?_eq_some hp)]

theorem mem_links {s t : Fin graph.nodes.length} :
    (s, t) ∈ graph.links ↔
      ∃ e ∈ graph.edges, graph.place? e.source = some s ∧ graph.place? e.target = some t := by
  simp [links, List.mem_filterMap, Option.bind_eq_some_iff]

theorem feeds_iff {s t : Fin graph.nodes.length} :
    graph.dependencies.Feeds s t ↔ (s, t) ∈ graph.links := by
  have hget : graph.dependencies.dependencies.get t = _ := Vector.getElem_ofFn t.isLt
  rw [DependencyGraph.Feeds, hget]
  simp

theorem dependencies_simple : graph.dependencies.Simple := by
  intro t
  have hget : graph.dependencies.dependencies.get t = _ := Vector.getElem_ofFn t.isLt
  rw [hget]
  exact (List.nodup_finRange graph.nodes.length).filter _

/-- Nothing is wrong with the graph. -/
structure Accepted (registry : Registry) : Prop where
  nodup : graph.ids.Nodup
  declared : ∀ e ∈ graph.edges,
    (graph.place? e.source).isSome ∧ (graph.place? e.target).isSome
  resolved : graph.dependencies.order.unresolved = []
  typed : ∀ i : Fin graph.nodes.length, ∃ d, registry.find? (graph.node i).stepType = some d

variable {graph}

theorem accepted_of_violations {registry : Registry}
    (h : graph.violations graph.dependencies (graph.configs graph.dependencies) registry = []) :
    graph.Accepted registry := by
  simp only [violations, structuralViolations, List.append_eq_nil_iff, List.map_eq_nil_iff,
    List.flatMap_eq_nil_iff] at h
  obtain ⟨⟨⟨hids, hedges⟩, hcycle⟩, hnodes⟩ := h
  refine ⟨graph.nodup_of_repeatedIds hids, fun e he => ?_, ?_, fun i => ?_⟩
  · have hends := hedges e he
    rw [danglingEnds, List.append_eq_nil_iff] at hends
    constructor
    · by_contra hs
      simp_all
    · by_contra ht
      simp_all
  · by_contra hu
    rw [cycleViolations, if_neg (by simpa using hu)] at hcycle
    simp at hcycle
  · have hschema := (hnodes i (List.mem_finRange i)).1
    unfold schemaViolations at hschema
    split at hschema
    · simp at hschema
    · next d hd => exact ⟨d, hd⟩

theorem Accepted.leads_iff {registry : Registry} (h : graph.Accepted registry)
    {s t : Fin graph.nodes.length} :
    graph.Leads (graph.node s).id (graph.node t).id ↔ graph.dependencies.Feeds s t := by
  rw [feeds_iff, mem_links]
  constructor
  · intro he
    exact ⟨_, he, graph.place?_node h.nodup s, graph.place?_node h.nodup t⟩
  · rintro ⟨⟨source, target⟩, he, hs, ht⟩
    rw [graph.place?_eq_some hs, graph.place?_eq_some ht]
    exact he

/-- Both ends of an edge are nodes. -/
theorem Accepted.exists_node {registry : Registry} (h : graph.Accepted registry)
    {source target : String} (he : graph.Leads source target) :
    ∃ s t, (graph.node s).id = source ∧ (graph.node t).id = target := by
  obtain ⟨hs, ht⟩ := h.declared _ he
  obtain ⟨s, hs⟩ := Option.isSome_iff_exists.1 hs
  obtain ⟨t, ht⟩ := Option.isSome_iff_exists.1 ht
  exact ⟨s, t, graph.place?_eq_some hs, graph.place?_eq_some ht⟩

theorem Accepted.upstream_of_precedes {registry : Registry} (h : graph.Accepted registry)
    {i j : Fin graph.nodes.length} (hij : graph.dependencies.Precedes i j) :
    graph.Upstream (graph.node i).id (graph.node j).id := by
  induction hij with
  | single hij => exact .single (h.leads_iff.2 hij)
  | tail _ hjk ih => exact ih.tail (h.leads_iff.2 hjk)

theorem Accepted.slot_eq {registry : Registry} (h : graph.Accepted registry)
    (i : Fin graph.nodes.length) : graph.slot i = i := by
  rw [slot, graph.place?_node h.nodup i]
  rfl

end Graph

namespace Scope

variable (scope : Scope)

/-- The reference leads to a node that is marked as an ancestor. -/
def Reaches (r : OutputRef) : Prop :=
  ∃ i, scope.ancestors.get i = true ∧ r.node = (scope.graph.node i).id

theorem reaches_of_resolve {r : Reference} {output : OutputRef}
    (h : scope.resolve r = .ok output) : scope.Reaches output := by
  unfold resolve at h
  split at h
  · simp at h
  · next i _ =>
    split at h
    · next ha => exact ⟨i, ha, by cases h; rfl⟩
    · simp at h
  · simp at h

theorem reaches_of_compileSegment {segment : Segment} {output : OutputRef}
    (h : (scope.compileSegment segment).1 = .output output) : scope.Reaches output := by
  cases segment with
  | text s => simp [compileSegment] at h
  | reference r =>
    simp only [compileSegment] at h
    cases hr : scope.resolve r with
    | error v => simp [hr] at h
    | ok o =>
      simp only [hr, Part.output.injEq] at h
      exact scope.reaches_of_resolve (h ▸ hr)

theorem mem_references_assemble {text : String} {parts : List Part} {output : OutputRef}
    (h : output ∈ (assemble text parts).references) : .output output ∈ parts := by
  unfold assemble at h
  split at h
  · simpa [Binding.references] using h
  · split at h
    · simp [Binding.references] at h
    · obtain ⟨part, hpart, ho⟩ := List.mem_filterMap.1 h
      cases part with
      | text s => simp [Part.reference?] at ho
      | output r =>
        obtain rfl : r = output := by simpa [Part.reference?] using ho
        exact hpart

theorem reaches_of_compileText {text : String} {output : OutputRef}
    (h : output ∈ (scope.compileText text).1.references) : scope.Reaches output := by
  unfold compileText at h
  split at h
  · simp [Binding.references] at h
  · next segments _ =>
    have hmem := mem_references_assemble h
    simp only [List.map_map, List.mem_map, Function.comp] at hmem
    obtain ⟨segment, -, hs⟩ := hmem
    exact scope.reaches_of_compileSegment hs

mutual

theorem reaches_of_compileValue (v : Json) {output : OutputRef}
    (h : output ∈ (scope.compileValue v).1.references) : scope.Reaches output := by
  cases v with
  | null | bool | number => simp [compileValue, Binding.references] at h
  | string s =>
    rw [compileValue] at h
    exact scope.reaches_of_compileText h
  | array items =>
    simp only [compileValue] at h
    split at h
    · simp [Binding.references] at h
    · simp only [Binding.references, Binding.itemReferences_eq_flatMap, List.mem_flatMap,
        List.mem_map] at h
      obtain ⟨_, ⟨c, hc, rfl⟩, ho⟩ := h
      exact reaches_of_compileItems items hc ho
  | object fields =>
    simp only [compileValue] at h
    split at h
    · simp [Binding.references] at h
    · simp only [Binding.references, Binding.fieldReferences_eq_flatMap, List.mem_flatMap,
        List.mem_map] at h
      obtain ⟨_, ⟨c, hc, rfl⟩, ho⟩ := h
      exact reaches_of_compileFields fields hc ho

theorem reaches_of_compileItems (items : List Json) {output : OutputRef}
    {c : Binding × List Violation} (hc : c ∈ scope.compileItems items)
    (h : output ∈ c.1.references) : scope.Reaches output := by
  cases items with
  | nil => simp [compileItems] at hc
  | cons v rest =>
    rcases List.mem_cons.1 (by simpa only [compileItems] using hc) with rfl | hc
    · exact reaches_of_compileValue v h
    · exact reaches_of_compileItems rest hc h

theorem reaches_of_compileFields (fields : List (String × Json)) {output : OutputRef}
    {c : String × Binding × List Violation} (hc : c ∈ scope.compileFields fields)
    (h : output ∈ c.2.1.references) : scope.Reaches output := by
  cases fields with
  | nil => simp [compileFields] at hc
  | cons kv rest =>
    rcases List.mem_cons.1 (by simpa only [compileFields] using hc) with rfl | hc
    · exact reaches_of_compileValue kv.2 h
    · exact reaches_of_compileFields rest hc h

end

theorem reaches_of_compileConfig (config : Fields Json) {kb : String × Binding}
    (hkb : kb ∈ (scope.compileConfig config).inputs) {output : OutputRef}
    (h : output ∈ kb.2.references) : scope.Reaches output := by
  simp only [compileConfig, List.mem_map] at hkb
  obtain ⟨c, hc, rfl⟩ := hkb
  exact scope.reaches_of_compileFields _ hc h

end Scope

end Flowgraph
