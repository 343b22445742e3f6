import Flowgraph.Proofs.Binding.Reports
import Flowgraph.Proofs.Graph.Defects
import Flowgraph.Proofs.Program.Layered

/-! Validation against the defects it is to report. Every scan reports what it is meant to, on broken
graphs as well: edges that dangle lead nowhere, and a repeated id stands for its first node. -/

namespace Flowgraph

namespace Graph

variable {graph : Graph}

section Structure

theorem isSome_place? {id : String} : (graph.place? id).isSome ↔ id ∈ graph.ids := by
  simp [place?, ids]

theorem danglingEnds_eq : graph.danglingEnds = graph.edgeDefects := by
  have isNone : ∀ id, (graph.place? id).isNone = true ↔ id ∉ graph.ids := fun id => by
    simp [← isSome_place?]
  funext e
  simp only [danglingEnds, edgeDefects, isNone, ite_not]

/-- What occurs more than once, where it occurs the second time. -/
def repeats (l : List String) : List String :=
  l.zipIdx.filterMap fun (id, i) => if (l.take i).count id = 1 then some id else none

theorem repeats_concat (l : List String) (x : String) :
    repeats (l ++ [x]) = repeats l ++ if l.count x = 1 then [x] else [] := by
  have before : (l.zipIdx.filterMap fun (id, i) =>
      if ((l ++ [x]).take i).count id = 1 then some id else none) = repeats l := by
    refine List.filterMap_congr fun (id, i) hid => ?_
    have hi : i ≤ l.length := by
      have := (List.mem_zipIdx hid).2.1
      omega
    simp only [List.take_append_of_le_length hi]
  rw [repeats, List.zipIdx_append, List.filterMap_append, before]
  by_cases hx : l.count x = 1 <;> simp [hx]

theorem count_repeats (l : List String) (id : String) :
    (repeats l).count id = if 1 < l.count id then 1 else 0 := by
  induction l using List.reverseRecOn with
  | nil => simp [repeats]
  | append_singleton l x ih =>
    rw [repeats_concat, List.count_append, ih, List.count_append]
    by_cases hx : x = id
    · subst hx
      have hcount : (if l.count x = 1 then [x] else []).count x = if l.count x = 1 then 1 else 0 := by
        split <;> simp
      rw [hcount, List.count_singleton_self]
      split_ifs <;> omega
    · have hcount : (if l.count x = 1 then [x] else []).count id = 0 := by
        split <;> simp [hx]
      simp [hcount, hx]

theorem repeatedIds_perm :
    graph.repeatedIds.Perm (graph.ids.dedup.filter (1 < graph.ids.count ·)) := by
  rw [List.perm_iff_count]
  intro id
  refine (count_repeats graph.ids id).trans ?_
  split
  · next h =>
    rw [List.count_filter (by simpa using h)]
    have hmem : id ∈ graph.ids.dedup := List.mem_dedup.2 (List.count_pos_iff.1 (by omega))
    exact (List.count_eq_one_of_mem (List.nodup_dedup _) hmem).symm
  · next h =>
    exact (List.count_eq_zero.2 fun hmem => h (by simpa using (List.mem_filter.1 hmem).2)).symm

end Structure

section Reach

theorem feeds_iff_edge {s t : Fin graph.nodes.length} :
    graph.dependencies.Feeds s t ↔ ∃ e ∈ graph.edges, graph.place? e.source = some s ∧
      graph.place? e.target = some t := by
  rw [feeds_iff, mem_links]

theorem joined_of_feeds {s t : Fin graph.nodes.length} (h : graph.dependencies.Feeds s t) :
    graph.place? (graph.node s).id = some s ∧
      graph.Joined (graph.node s).id (graph.node t).id := by
  obtain ⟨⟨source, target⟩, he, hs, ht⟩ := feeds_iff_edge.1 h
  rw [graph.place?_eq_some hs, graph.place?_eq_some ht]
  exact ⟨hs, he, isSome_place?.1 (by simp [hs]), isSome_place?.1 (by simp [ht])⟩

theorem provides_of_precedes {s t : Fin graph.nodes.length} (h : graph.dependencies.Precedes s t) :
    graph.Provides s t := by
  induction h with
  | single h => exact ⟨(joined_of_feeds h).1, .single (joined_of_feeds h).2⟩
  | tail _ h ih => exact ⟨ih.1, ih.2.tail (joined_of_feeds h).2⟩

theorem precedes_of_joined {source target : String} (h : Relation.TransGen graph.Joined source target)
    {s t : Fin graph.nodes.length} (hs : graph.place? source = some s)
    (ht : graph.place? target = some t) : graph.dependencies.Precedes s t := by
  induction h generalizing t with
  | single h => exact .single (feeds_iff_edge.2 ⟨_, h.1, hs, ht⟩)
  | @tail middle _ _ h ih =>
    obtain ⟨m, hm⟩ := Option.isSome_iff_exists.1 (isSome_place?.2 h.2.1)
    exact (ih hm).tail (feeds_iff_edge.2 ⟨_, h.1, hm, ht⟩)

theorem place?_slot (i : Fin graph.nodes.length) :
    graph.place? (graph.node i).id = some (graph.slot i) := by
  have hi : (graph.node i).id ∈ graph.ids := List.mem_map_of_mem (List.getElem_mem i.isLt)
  obtain ⟨s, hs⟩ := Option.isSome_iff_exists.1 (isSome_place?.2 hi)
  rw [slot, hs]
  rfl

theorem precedes_slot_iff {s i : Fin graph.nodes.length} :
    graph.dependencies.Precedes s (graph.slot i) ↔ graph.Provides s i := by
  constructor
  · intro h
    have := provides_of_precedes h
    rwa [Provides, graph.place?_eq_some (place?_slot i)] at this
  · exact fun h => precedes_of_joined h.2 h.1 (place?_slot i)

end Reach

section Texts

theorem pieceViolations_eq (i : Fin graph.nodes.length) (body : List Char) :
    (graph.scope graph.dependencies i).pieceViolations (.placeholder body) =
      graph.callDefects i body := by
  have hancestor : ∀ t : Fin graph.nodes.length,
      (graph.dependencies.ancestors (graph.slot i)).get t = true ↔ graph.Provides t i := fun t => by
    rw [← precedes_slot_iff, ← DependencyGraph.isAncestor_iff]
    rfl
  rw [Scope.pieceViolations, Template.segment, callDefects, Template.called]
  cases h : Template.reference? body with
  | none => rfl
  | some r =>
    simp only [Option.map_some, ← Template.raw_of_reference? h]
    cases hbearers : graph.bearers r.node with
    | nil => exact Scope.compileSegment_of_nil hbearers
    | cons t rest =>
      cases rest with
      | nil =>
        refine (Scope.compileSegment_of_singleton hbearers).trans ?_
        by_cases ht : graph.Provides t i
        · exact (if_pos ((hancestor t).2 ht)).trans (if_pos ht).symm
        · exact (if_neg (mt (hancestor t).1 ht)).trans (if_neg ht).symm
      | cons => exact Scope.compileSegment_of_cons_cons hbearers

theorem compileText_eq (i : Fin graph.nodes.length) (text : String) :
    ((graph.scope graph.dependencies i).compileText text).2 = graph.textDefects i text := by
  rw [Scope.compileText_snd, textDefects]
  simp only [pieceViolations_eq]
  rfl

theorem nodeDefects_eq (registry : Registry) (i : Fin graph.nodes.length) :
    schemaViolations registry (graph.node i) ++
        ((graph.configs graph.dependencies).get i).violations =
      graph.nodeDefects registry i := by
  have htexts : ((graph.configs graph.dependencies).get i).violations =
      (graph.node i).texts.flatMap (graph.textDefects i) := by
    rw [configs_get, Scope.compileConfig_violations]
    exact List.flatMap_congr fun text _ => compileText_eq i text
  rw [nodeDefects, htexts, schemaViolations]
  congr 1
  cases registry.find? (graph.node i).stepType with
  | none => rfl
  | some d =>
    refine congrArg _ (List.filter_congr fun input _ => ?_)
    rw [Bool.eq_iff_iff, lacks_iff, decide_eq_true_iff]

end Texts

section Verdict

variable {registry : Registry}

/-- The violations but for the cycle. -/
theorem violations_perm :
    (graph.structuralViolations ++ (List.finRange graph.nodes.length).flatMap fun i =>
      schemaViolations registry (graph.node i) ++
        ((graph.configs graph.dependencies).get i).violations).Perm (graph.defects registry) := by
  rw [structuralViolations, defects]
  simp only [nodeDefects_eq, danglingEnds_eq]
  exact ((repeatedIds_perm.map _).append_right _).append_right _

theorem isCycle_of_mem_callDefects {i : Fin graph.nodes.length} {body : List Char} {v : Violation}
    (hv : v ∈ graph.callDefects i body) : v.isCycle = false := by
  unfold callDefects at hv
  split at hv
  · cases hv
  · split at hv
    · obtain rfl := List.mem_singleton.1 hv
      rfl
    · split at hv
      · cases hv
      · obtain rfl := List.mem_singleton.1 hv
        rfl
    · obtain rfl := List.mem_singleton.1 hv
      rfl

theorem isCycle_of_mem_textDefects {i : Fin graph.nodes.length} {text : String} {v : Violation}
    (hv : v ∈ graph.textDefects i text) : v.isCycle = false := by
  simp only [textDefects] at hv
  split at hv
  · obtain ⟨body, -, hbody⟩ := List.mem_flatMap.1 hv
    exact isCycle_of_mem_callDefects hbody
  · obtain ⟨body, -, rfl⟩ := List.mem_map.1 hv
    rfl

theorem isCycle_of_mem_nodeDefects {i : Fin graph.nodes.length} {v : Violation}
    (hv : v ∈ graph.nodeDefects registry i) : v.isCycle = false := by
  rcases List.mem_append.1 hv with hv | hv
  · split at hv
    · obtain rfl := List.mem_singleton.1 hv
      rfl
    · obtain ⟨input, -, rfl⟩ := List.mem_map.1 hv
      rfl
  · obtain ⟨text, -, htext⟩ := List.mem_flatMap.1 hv
    exact isCycle_of_mem_textDefects htext

theorem isCycle_of_mem_defects {v : Violation} (hv : v ∈ graph.defects registry) :
    v.isCycle = false := by
  simp only [defects, List.mem_append, List.mem_map, List.mem_flatMap] at hv
  rcases hv with (⟨id, -, rfl⟩ | ⟨e, -, hv⟩) | ⟨i, -, hv⟩
  · rfl
  · unfold edgeDefects at hv
    grind [Violation.isCycle]
  · exact isCycle_of_mem_nodeDefects hv

theorem isCycle_of_mem_cycleViolations {v : Violation}
    (hv : v ∈ graph.cycleViolations graph.dependencies) : v.isCycle = true := by
  simp only [cycleViolations] at hv
  split at hv
  · cases hv
  · obtain rfl := List.mem_singleton.1 hv
    rfl

theorem filter_violations (registry : Registry) :
    ((graph.violations graph.dependencies (graph.configs graph.dependencies) registry).filter
      (!·.isCycle)).Perm (graph.defects registry) := by
  have hcycle : (graph.cycleViolations graph.dependencies).filter (!·.isCycle) = [] :=
    List.filter_eq_nil_iff.2 fun v hv => by simp [isCycle_of_mem_cycleViolations hv]
  rw [violations, List.filter_append, List.filter_append, hcycle, List.append_nil,
    ← List.filter_append]
  refine (violations_perm.filter _).trans ?_
  rw [List.filter_eq_self.2 fun v hv => by simp [isCycle_of_mem_defects hv]]

theorem edgeDefects_eq_nil {e : Edge} :
    graph.edgeDefects e = [] ↔ e.source ∈ graph.ids ∧ e.target ∈ graph.ids := by
  simp [edgeDefects]

theorem bears_iff {name : String} {i : Fin graph.nodes.length} :
    graph.Bears name i ↔ graph.bearers name = [i] := by
  constructor
  · intro h
    have hfilter : graph.bearers name = (List.finRange graph.nodes.length).filter (· = i) :=
      List.filter_congr fun j _ => by rw [decide_eq_decide, h j]
    rw [hfilter, List.filter_eq, List.count_eq_one_of_mem (List.nodup_finRange _)
      (List.mem_finRange i)]
    rfl
  · intro h j
    have hmem : j ∈ graph.bearers name ↔ (graph.node j).referenceName = name := by simp [bearers]
    rw [← hmem, h, List.mem_singleton]

theorem callDefects_eq_nil {i : Fin graph.nodes.length} {body : List Char} {name : String}
    (h : Template.Calls body name) :
    graph.callDefects i body = [] ↔ ∃ source, graph.Bears name source ∧ graph.Provides source i := by
  simp only [bears_iff, callDefects, Template.called_eq_some.2 h]
  cases graph.bearers name with
  | nil => simp
  | cons s rest =>
    cases rest with
    | nil => simp
    | cons t rest => simp

theorem textDefects_eq_nil {i : Fin graph.nodes.length} {text : String} :
    graph.textDefects i text = [] ↔ ∀ body ∈ Template.bodies text.toList, ∃ name source,
      Template.Calls body name ∧ graph.Bears name source ∧ graph.Provides source i := by
  simp only [textDefects]
  constructor
  · intro h body hbody
    split at h
    · next hcalled =>
      have hsome := List.filter_eq_nil_iff.1 hcalled body hbody
      obtain ⟨name, hname⟩ := Option.ne_none_iff_exists'.1 (by simpa using hsome)
      have hcalls := Template.called_eq_some.1 hname
      obtain ⟨source, hsource⟩ := (callDefects_eq_nil hcalls).1 (List.flatMap_eq_nil_iff.1 h body hbody)
      exact ⟨name, source, hcalls, hsource⟩
    · next hne => exact absurd (List.map_eq_nil_iff.1 h) hne
  · intro h
    have hcalled : (Template.bodies text.toList).filter
        (fun body => (Template.called body).isNone) = [] := by
      refine List.filter_eq_nil_iff.2 fun body hbody => ?_
      obtain ⟨name, _, hcalls, -⟩ := h body hbody
      simp [Template.called_eq_some.2 hcalls]
    rw [hcalled]
    refine List.flatMap_eq_nil_iff.2 fun body hbody => ?_
    obtain ⟨name, source, hcalls, hsource⟩ := h body hbody
    exact (callDefects_eq_nil hcalls).2 ⟨source, hsource⟩

theorem nodeDefects_eq_nil {registry : Registry} {i : Fin graph.nodes.length} :
    graph.nodeDefects registry i = [] ↔
      (∃ d, registry.find? (graph.node i).stepType = some d ∧
        ∀ input ∈ d.requiredInputs, (graph.node i).Gives input) ∧
      ∀ text ∈ (graph.node i).texts, graph.textDefects i text = [] := by
  rw [nodeDefects, List.append_eq_nil_iff, List.flatMap_eq_nil_iff]
  refine and_congr_left fun _ => ?_
  cases registry.find? (graph.node i).stepType <;> simp

theorem distinct_iff : graph.ids.dedup.filter (1 < graph.ids.count ·) = [] ↔ graph.ids.Nodup := by
  rw [List.filter_eq_nil_iff, List.nodup_iff_count_le_one]
  refine ⟨fun h id => ?_, fun h id _ => by simpa using h id⟩
  by_cases hid : id ∈ graph.ids
  · simpa using h id (List.mem_dedup.2 hid)
  · rw [List.count_eq_zero.2 hid]
    omega

section Distinct

variable (distinct : graph.ids.Nodup)
  (declared : ∀ e ∈ graph.edges, e.source ∈ graph.ids ∧ e.target ∈ graph.ids)

include declared in
theorem joined_iff {source target : String} :
    graph.Joined source target ↔ graph.Leads source target :=
  ⟨fun h => h.1, fun h => ⟨h, (declared _ h).1, (declared _ h).2⟩⟩

include distinct declared in
theorem provides_iff {s t : Fin graph.nodes.length} :
    graph.Provides s t ↔ graph.Upstream (graph.node s).id (graph.node t).id := by
  have hjoined : graph.Joined = graph.Leads := by
    funext source target
    exact propext (joined_iff declared)
  rw [Provides, hjoined, Upstream]
  exact and_iff_right (graph.place?_node distinct s)

include distinct declared in
theorem acyclic_iff :
    graph.dependencies.order.unresolved = [] ↔ ∀ id, ¬ graph.Upstream id id := by
  rw [DependencyGraph.unresolved_eq_nil_iff graph.dependencies_simple]
  have hprecedes : ∀ i, graph.dependencies.Precedes i i ↔
      graph.Upstream (graph.node i).id (graph.node i).id := by
    intro i
    have hslot : graph.slot i = i := by rw [slot, graph.place?_node distinct i]; rfl
    rw [← provides_iff distinct declared, ← precedes_slot_iff, hslot]
  simp only [hprecedes]
  refine ⟨fun h id hid => ?_, fun h i => h _⟩
  obtain ⟨target, hleads, -⟩ := Relation.TransGen.head'_iff.1 hid
  obtain ⟨i, hi⟩ := Option.isSome_iff_exists.1 (isSome_place?.2 (declared _ hleads).1)
  exact h i (by rwa [graph.place?_eq_some hi])

end Distinct

theorem wellFormed_iff {registry : Registry} :
    graph.WellFormed registry ↔
      graph.dependencies.order.unresolved = [] ∧ graph.defects registry = [] := by
  simp only [defects, List.append_eq_nil_iff, List.map_eq_nil_iff, List.flatMap_eq_nil_iff,
    distinct_iff, edgeDefects_eq_nil, nodeDefects_eq_nil, textDefects_eq_nil,
    Template.mem_bodies_iff]
  constructor
  · intro h
    refine ⟨(acyclic_iff h.distinct h.declared).2 h.acyclic, ⟨h.distinct, h.declared⟩, fun i _ => ?_⟩
    refine ⟨h.typed _ (List.getElem_mem i.isLt), fun text htext body hbody => ?_⟩
    obtain ⟨name, source, hcalls, hbears, hup⟩ := h.referenced i text htext body hbody.1 hbody.2
    exact ⟨name, source, hcalls, hbears, (provides_iff h.distinct h.declared).2 hup⟩
  · rintro ⟨hresolved, ⟨distinct, declared⟩, hnodes⟩
    refine ⟨distinct, declared, (acyclic_iff distinct declared).1 hresolved, fun node hnode => ?_,
      fun i text htext body hbody hinfix => ?_⟩
    · obtain ⟨i, hi, rfl⟩ := List.getElem_of_mem hnode
      exact (hnodes ⟨i, hi⟩ (List.mem_finRange _)).1
    · obtain ⟨name, source, hcalls, hbears, hprovides⟩ :=
        (hnodes i (List.mem_finRange i)).2 text htext body ⟨hbody, hinfix⟩
      exact ⟨name, source, hcalls, hbears, (provides_iff distinct declared).1 hprovides⟩

theorem cycleViolations_eq_nil :
    graph.cycleViolations graph.dependencies = [] ↔ graph.dependencies.order.unresolved = [] := by
  simp [cycleViolations]

theorem violations_eq_nil {registry : Registry} :
    graph.violations graph.dependencies (graph.configs graph.dependencies) registry = [] ↔
      graph.WellFormed registry := by
  rw [wellFormed_iff, ← cycleViolations_eq_nil, ← List.length_eq_zero_iff (l := graph.defects registry),
    ← violations_perm.length_eq, List.length_eq_zero_iff, violations]
  simp only [List.append_eq_nil_iff]
  exact and_assoc.trans and_left_comm

/-- Validation accepts the well-formed graphs and reports the defects of every other. -/
theorem validate_exact (graph : Graph) (registry : Registry) :
    match graph.validate registry with
    | .ok _ => graph.WellFormed registry
    | .error violations => ¬ graph.WellFormed registry ∧
      (violations.filter (!·.isCycle)).Perm (graph.defects registry) := by
  have hverdict : _ ↔ graph.WellFormed registry := violations_eq_nil
  have hfilter : (List.filter _ _).Perm (graph.defects registry) := filter_violations registry
  simp only [validate]
  generalize graph.violations graph.dependencies (graph.configs graph.dependencies) registry = vs at *
  cases vs with
  | nil => exact hverdict.1 rfl
  | cons v rest => exact ⟨fun h => by simpa using hverdict.2 h, hfilter⟩

end Verdict

end Graph

end Flowgraph
