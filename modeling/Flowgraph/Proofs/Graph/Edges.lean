import Flowgraph.Code.Layout
import Flowgraph.Proofs.Dependency.Counters
import Flowgraph.Proofs.Program.Arranged

/-! Edges as a set. Entered one after the other they fill the lists of the nodes that they join, and once
the lists are sorted nothing tells in which order or how often the edges were given. So nothing does that
is made of the lists: not the verdict, not the program and not its code. -/

namespace Flowgraph

/-- What each node depends on and what depends on it, as far as edges have been entered, and the pairs
that they join. -/
structure Gathering (size : Nat) where
  seen : List (Fin size × Fin size)
  dependencies : Vector (List (Fin size)) size
  dependents : Vector (List (Fin size)) size

namespace Gathering

variable {size : Nat}

def empty : Gathering size := ⟨[], Vector.replicate size [], Vector.replicate size []⟩

/-- The list of one node with another node at its end. -/
def append (lists : Vector (List (Fin size)) size) (i j : Fin size) : Vector (List (Fin size)) size :=
  lists.set i.val (lists.get i ++ [j]) i.isLt

/-- A pair is entered on both sides, unless it was entered before. -/
def enter (g : Gathering size) (link : Fin size × Fin size) : Gathering size :=
  if link ∈ g.seen then g
  else ⟨link :: g.seen, append g.dependencies link.2 link.1, append g.dependents link.1 link.2⟩

/-- The nodes of a list in the order of their declaration. -/
def sorted (lists : Vector (List (Fin size)) size) : Vector (List (Fin size)) size :=
  lists.map fun list => list.mergeSort (· ≤ ·)

/-- The lists hold the pairs that satisfy `p`, each once. -/
structure Holds (g : Gathering size) (p : Fin size → Fin size → Prop) : Prop where
  mem_seen : ∀ s t, (s, t) ∈ g.seen ↔ p s t
  nodup_dependencies : ∀ t, (g.dependencies.get t).Nodup
  mem_dependencies : ∀ s t, s ∈ g.dependencies.get t ↔ p s t
  nodup_dependents : ∀ s, (g.dependents.get s).Nodup
  mem_dependents : ∀ s t, t ∈ g.dependents.get s ↔ p s t

theorem get_append (lists : Vector (List (Fin size)) size) (i j k : Fin size) :
    (append lists i j).get k = if k = i then lists.get k ++ [j] else lists.get k := by
  by_cases hki : k = i
  · subst hki
    exact (Vector.getElem_set_self k.isLt).trans (if_pos rfl).symm
  · have hne : i.val ≠ k.val := fun e => hki (Fin.ext e.symm)
    exact (Vector.getElem_set_ne i.isLt k.isLt hne).trans (if_neg hki).symm

theorem mem_append {lists : Vector (List (Fin size)) size} {i j k l : Fin size} :
    l ∈ (append lists i j).get k ↔ l ∈ lists.get k ∨ k = i ∧ l = j := by
  rw [get_append]
  by_cases hki : k = i <;> simp [hki]

theorem nodup_append {lists : Vector (List (Fin size)) size} {i j : Fin size}
    (hn : ∀ k, (lists.get k).Nodup) (hj : j ∉ lists.get i) (k : Fin size) :
    ((append lists i j).get k).Nodup := by
  rw [get_append]
  split
  · next hki =>
    subst hki
    rw [← List.concat_eq_append, List.nodup_concat]
    exact ⟨hj, hn k⟩
  · exact hn k

theorem holds_empty : (empty : Gathering size).Holds fun _ _ => False := by
  have hget : ∀ k : Fin size, (Vector.replicate size ([] : List (Fin size))).get k = [] :=
    fun k => Vector.getElem_replicate k.isLt
  constructor <;> simp [empty, hget]

theorem Holds.enter {g : Gathering size} {p : Fin size → Fin size → Prop} (h : g.Holds p)
    (link : Fin size × Fin size) : (g.enter link).Holds fun s t => p s t ∨ (s, t) = link := by
  obtain ⟨source, target⟩ := link
  unfold Gathering.enter
  split
  · next hseen =>
    have hold : ∀ s t, (p s t ∨ (s, t) = (source, target)) ↔ p s t := by
      intro s t
      refine or_iff_left_of_imp fun heq => ?_
      obtain ⟨rfl, rfl⟩ := Prod.mk.inj heq
      exact (h.mem_seen s t).1 hseen
    simpa only [hold] using h
  · next hseen =>
    have hnew : ¬ p source target := mt (h.mem_seen source target).2 hseen
    constructor
    · intro s t
      rw [List.mem_cons, h.mem_seen, or_comm]
    · exact nodup_append h.nodup_dependencies (mt (h.mem_dependencies source target).1 hnew)
    · intro s t
      rw [mem_append, h.mem_dependencies, Prod.mk.injEq, and_comm (a := t = target)]
    · exact nodup_append h.nodup_dependents (mt (h.mem_dependents source target).1 hnew)
    · intro s t
      rw [mem_append, h.mem_dependents, Prod.mk.injEq]

theorem Holds.foldl_enter {g : Gathering size} {p : Fin size → Fin size → Prop} (h : g.Holds p)
    (links : List (Fin size × Fin size)) :
    (links.foldl Gathering.enter g).Holds fun s t => p s t ∨ (s, t) ∈ links := by
  induction links generalizing g p with
  | nil => simpa using h
  | cons link rest ih =>
    have hrest := ih (h.enter link)
    simpa only [List.foldl_cons, List.mem_cons, or_assoc] using hrest

theorem get_sorted {lists : Vector (List (Fin size)) size} {k : Fin size} {p : Fin size → Prop}
    [DecidablePred p] (hn : (lists.get k).Nodup) (hmem : ∀ i, i ∈ lists.get k ↔ p i) :
    (sorted lists).get k = (List.finRange size).filter p := by
  have hget : (sorted lists).get k = (lists.get k).mergeSort (· ≤ ·) := Vector.getElem_map _ k.isLt
  have hperm : (lists.get k).Perm ((List.finRange size).filter p) := by
    rw [List.perm_ext_iff_of_nodup hn ((List.nodup_finRange size).filter _)]
    intro i
    simp [hmem]
  rw [hget]
  exact DependencyGraph.mergeSort_eq_of_perm hperm ((List.pairwise_lt_finRange size).filter _)

end Gathering

namespace Scope

/-- Both stand for the same node and resolve its references alike. -/
structure Alike (scope scope' : Scope) : Prop where
  node : scope.node = scope'.node
  resolve : ∀ r, scope.resolve r = scope'.resolve r

variable {scope scope' : Scope}

theorem Alike.compileText (h : scope.Alike scope') (text : String) :
    scope.compileText text = scope'.compileText text := by
  have hsegment : scope.compileSegment = scope'.compileSegment := by
    funext segment
    cases segment with
    | text s => rfl
    | reference r => rw [compileSegment, compileSegment, h.resolve r]
  rw [Scope.compileText, Scope.compileText, hsegment, h.node]

mutual

theorem Alike.compileValue (h : scope.Alike scope') (v : Json) :
    scope.compileValue v = scope'.compileValue v := by
  cases v with
  | null | bool | number => simp [Scope.compileValue]
  | string s => simp [Scope.compileValue, h.compileText s]
  | array items => rw [Scope.compileValue, Scope.compileValue, h.compileItems items]
  | object fields => rw [Scope.compileValue, Scope.compileValue, h.compileFields fields]

theorem Alike.compileItems (h : scope.Alike scope') (items : List Json) :
    scope.compileItems items = scope'.compileItems items := by
  cases items with
  | nil => rfl
  | cons v rest => rw [Scope.compileItems, Scope.compileItems, h.compileValue v, h.compileItems rest]

theorem Alike.compileFields (h : scope.Alike scope') (fields : List (String × Json)) :
    scope.compileFields fields = scope'.compileFields fields := by
  cases fields with
  | nil => rfl
  | cons kv rest =>
    rw [Scope.compileFields, Scope.compileFields, h.compileValue kv.2, h.compileFields rest]

end

theorem Alike.compileConfig (h : scope.Alike scope') (config : Fields Json) :
    scope.compileConfig config = scope'.compileConfig config := by
  rw [Scope.compileConfig, Scope.compileConfig, h.compileFields]

end Scope

namespace Graph

open Gathering (sorted)

/-- The lists of a graph as its edges fill them one after the other, sorted in the end. Edges with an end
that is not declared are left out. -/
def gathered (graph : Graph) : Vector (List (Fin graph.nodes.length)) graph.nodes.length ×
    Vector (List (Fin graph.nodes.length)) graph.nodes.length :=
  let g := graph.links.foldl Gathering.enter .empty
  (sorted g.dependencies, sorted g.dependents)

/-- The lists that are gathered are those that dependencies are read from. -/
theorem gathered_eq (graph : Graph) : graph.gathered =
    (graph.dependencies.dependencies, Vector.ofFn graph.dependencies.dependents) := by
  have h := Gathering.holds_empty.foldl_enter graph.links
  simp only [false_or] at h
  unfold gathered
  refine Prod.ext (Vector.ext fun i hi => ?_) (Vector.ext fun i hi => ?_)
  · refine (Gathering.get_sorted (k := ⟨i, hi⟩) (h.nodup_dependencies _)
      fun s => h.mem_dependencies s _).trans (Eq.trans ?_ (Vector.getElem_ofFn hi).symm)
    refine List.filter_congr fun s _ => ?_
    rw [decide_eq_decide]
    simp
  · refine (Gathering.get_sorted (k := ⟨i, hi⟩) (h.nodup_dependents _)
      fun t => h.mem_dependents _ t).trans (Eq.trans ?_ (Vector.getElem_ofFn hi).symm)
    refine List.filter_congr fun t _ => ?_
    rw [decide_eq_decide]
    exact (graph.feeds_iff).symm

section Edges

variable {nodes : List Node} {edges edges' : List Edge}

theorem mem_links_congr (h : ∀ e, e ∈ edges' ↔ e ∈ edges) (link : Fin nodes.length × Fin nodes.length) :
    link ∈ (⟨nodes, edges'⟩ : Graph).links ↔ link ∈ (⟨nodes, edges⟩ : Graph).links := by
  obtain ⟨s, t⟩ := link
  rw [mem_links, mem_links]
  refine exists_congr fun e => ?_
  rw [h e]
  rfl

theorem dependencies_congr (h : ∀ e, e ∈ edges' ↔ e ∈ edges) :
    (⟨nodes, edges'⟩ : Graph).dependencies = (⟨nodes, edges⟩ : Graph).dependencies := by
  unfold dependencies
  congr 1
  refine congrArg Vector.ofFn (funext fun target => List.filter_congr fun source _ => ?_)
  rw [decide_eq_decide]
  simp only [List.mem_map, List.mem_filter, mem_links_congr h]

/-- The same node of the same nodes resolves its references alike, whatever the edges. -/
theorem scope_alike {g : DependencyGraph nodes.length} (i : Fin nodes.length) :
    ((⟨nodes, edges'⟩ : Graph).scope g i).Alike ((⟨nodes, edges⟩ : Graph).scope g i) := by
  refine ⟨rfl, fun r => ?_⟩
  rcases hb : (⟨nodes, edges⟩ : Graph).bearers r.node with _ | ⟨t, _ | ⟨u, rest⟩⟩
  all_goals
    have hb' : ((⟨nodes, edges⟩ : Graph).scope g i).graph.bearers r.node = _ := hb
    have hb'' : ((⟨nodes, edges'⟩ : Graph).scope g i).graph.bearers r.node = _ := hb
    rw [Scope.resolve, Scope.resolve, hb', hb'']
    rfl

theorem configs_congr (g : DependencyGraph nodes.length) :
    (⟨nodes, edges'⟩ : Graph).configs g = (⟨nodes, edges⟩ : Graph).configs g := by
  unfold configs
  exact congrArg Vector.ofFn (funext fun i => (scope_alike i).compileConfig _)

/-- Only in the order and the number of reports of dangling edges do the violations differ. -/
theorem mem_violations_congr (h : ∀ e, e ∈ edges' ↔ e ∈ edges) (g : DependencyGraph nodes.length)
    (configs : Vector CompiledConfig nodes.length) (registry : Registry) (v : Violation) :
    v ∈ (⟨nodes, edges'⟩ : Graph).violations g configs registry ↔
      v ∈ (⟨nodes, edges⟩ : Graph).violations g configs registry := by
  have hdangling : v ∈ edges'.flatMap (⟨nodes, edges'⟩ : Graph).danglingEnds ↔
      v ∈ edges.flatMap (⟨nodes, edges⟩ : Graph).danglingEnds := by
    simp only [List.mem_flatMap, h]
    rfl
  unfold violations structuralViolations
  rw [List.mem_append, List.mem_append, List.mem_append, hdangling]
  rw [List.mem_append, List.mem_append, List.mem_append]
  rfl

/-- What validation has to report. -/
def reports (graph : Graph) (registry : Registry) : List Violation :=
  graph.violations graph.dependencies (graph.configs graph.dependencies) registry

/-- What is compiled if there is nothing to report. -/
def checked (graph : Graph) : ValidGraph :=
  ⟨graph.nodes.length,
    Vector.ofFn (graph.validNode graph.dependencies (graph.configs graph.dependencies)),
    graph.dependencies.order.stages⟩

theorem compile_of_reports_eq_nil {graph : Graph} {registry : Registry}
    (h : graph.reports registry = []) : graph.compile registry = .ok graph.checked.compile := by
  unfold reports at h
  simp only [compile, validate, h]
  rfl

theorem compile_of_reports_ne_nil {graph : Graph} {registry : Registry}
    (h : graph.reports registry ≠ []) : graph.compile registry = .error (graph.reports registry) := by
  unfold reports at h ⊢
  simp only [compile, validate]
  rfl

theorem mem_reports_congr (h : ∀ e, e ∈ edges' ↔ e ∈ edges) (registry : Registry) (v : Violation) :
    v ∈ (⟨nodes, edges'⟩ : Graph).reports registry ↔
      v ∈ (⟨nodes, edges⟩ : Graph).reports registry := by
  unfold reports
  rw [mem_violations_congr h, dependencies_congr h, configs_congr]

theorem checked_congr (h : ∀ e, e ∈ edges' ↔ e ∈ edges) :
    (⟨nodes, edges'⟩ : Graph).checked = (⟨nodes, edges⟩ : Graph).checked := by
  unfold checked
  rw [dependencies_congr h, configs_congr]
  rfl

/-- What compiling makes of two graphs is the same: one program with one code, or one set of reports. -/
def Outcome.Same : Except (List Violation) Program → Except (List Violation) Program → Prop
  | .ok p, .ok q => p = q ∧ ∀ title, p.generate title = q.generate title
  | .error vs, .error ws => ∀ v, v ∈ vs ↔ v ∈ ws
  | _, _ => False

/-- Neither the order of the edges matters nor how often one is given. -/
theorem compile_edges (h : ∀ e, e ∈ edges' ↔ e ∈ edges) (registry : Registry) :
    (⟨nodes, edges'⟩ : Graph).gathered = (⟨nodes, edges⟩ : Graph).gathered ∧
      Outcome.Same ((⟨nodes, edges'⟩ : Graph).compile registry)
        ((⟨nodes, edges⟩ : Graph).compile registry) := by
  constructor
  · rw [gathered_eq, gathered_eq, dependencies_congr h]
  · have hmem : ∀ v, v ∈ (⟨nodes, edges'⟩ : Graph).reports registry ↔
        v ∈ (⟨nodes, edges⟩ : Graph).reports registry := mem_reports_congr h registry
    have hnil : (⟨nodes, edges'⟩ : Graph).reports registry = [] ↔
        (⟨nodes, edges⟩ : Graph).reports registry = [] := by
      simp only [List.eq_nil_iff_forall_not_mem, hmem]
    by_cases hr : (⟨nodes, edges⟩ : Graph).reports registry = []
    · rw [compile_of_reports_eq_nil hr, compile_of_reports_eq_nil (hnil.2 hr), checked_congr h]
      exact ⟨rfl, fun _ => rfl⟩
    · rw [compile_of_reports_ne_nil hr, compile_of_reports_ne_nil (mt hnil.1 hr)]
      exact hmem

end Edges

/-- The edges of `diamond` backwards, then some of them once more. -/
def diamondEdges : List Edge := diamond.edges.reverse ++ diamond.edges.take 2

theorem diamond_compiles_alike :
    (diamond.compile ⟨[Step.echoDescriptor]⟩).isOk = true ∧ diamondEdges ≠ diamond.edges ∧
      (⟨diamond.nodes, diamondEdges⟩ : Graph).gathered = diamond.gathered ∧
      Outcome.Same ((⟨diamond.nodes, diamondEdges⟩ : Graph).compile ⟨[Step.echoDescriptor]⟩)
        (diamond.compile ⟨[Step.echoDescriptor]⟩) := by
  have hmem : ∀ e, e ∈ diamondEdges ↔ e ∈ diamond.edges := fun e => by
    rw [diamondEdges, List.mem_append, List.mem_reverse]
    exact or_iff_left_of_imp List.mem_of_mem_take
  exact ⟨diamond_isOk, by decide, compile_edges hmem ⟨[Step.echoDescriptor]⟩⟩

end Graph

end Flowgraph
