import Flowgraph.Proofs.Graph.Staging

/-! The search for ancestors with a queue, first in, first out. A turn takes one node from the queue, and
a node that is seen for the first time puts all that it depends on at the end, so the queue may grow. But
each node does so once only: every turn makes the queue and the lists that are still to come shorter by one
together. When the queue is empty, what has been seen is what edges lead from to the node. -/

namespace Flowgraph

namespace DependencyGraph

variable {size : Nat}

/-- Where a search stands: the nodes that it has seen, and those that it has yet to look at. -/
structure Search (size : Nat) where
  seen : List (Fin size)
  queue : List (Fin size)

variable (g : DependencyGraph size)

/-- Looks at the node that has waited longest. -/
def turn (s : Search size) : Search size :=
  match s.queue with
  | [] => s
  | i :: rest =>
    if s.seen.contains i then ⟨s.seen, rest⟩ else ⟨i :: s.seen, rest ++ g.dependencies.get i⟩

theorem turn_of_mem {q : Fin size} {seen rest : List (Fin size)} (h : q ∈ seen) :
    g.turn ⟨seen, q :: rest⟩ = ⟨seen, rest⟩ := if_pos (List.contains_iff_mem.2 h)

theorem turn_of_not_mem {q : Fin size} {seen rest : List (Fin size)} (h : q ∉ seen) :
    g.turn ⟨seen, q :: rest⟩ = ⟨q :: seen, rest ++ g.dependencies.get q⟩ :=
  if_neg (mt List.contains_iff_mem.1 h)

/-- The search for the ancestors of a node after so many turns. -/
def search (i : Fin size) (turns : Nat) : Search size := g.turn^[turns] ⟨[], g.dependencies.get i⟩

/-- All that may still have to be looked at. -/
def pending (s : Search size) : Nat :=
  s.queue.length + ∑ j with !s.seen.contains j, (g.dependencies.get j).length

theorem pending_mk (seen queue : List (Fin size)) : g.pending ⟨seen, queue⟩ =
    queue.length + ∑ j with !seen.contains j, (g.dependencies.get j).length := rfl

theorem pending_start (queue : List (Fin size)) : g.pending ⟨[], queue⟩ =
    queue.length + ∑ j, (g.dependencies.get j).length := by
  simp [pending]

/-- What holds of a search for the ancestors of a node at every turn. -/
structure Searches (i : Fin size) (s : Search size) : Prop where
  nodup : s.seen.Nodup
  precedes : ∀ j, j ∈ s.seen ∨ j ∈ s.queue → g.Precedes j i
  direct : ∀ j, g.Feeds j i → j ∈ s.seen ∨ j ∈ s.queue
  closed : ∀ j ∈ s.seen, ∀ k, g.Feeds k j → k ∈ s.seen ∨ k ∈ s.queue

section

variable {g} {i : Fin size} {s : Search size}

theorem searches_start : g.Searches i ⟨[], g.dependencies.get i⟩ where
  nodup := .nil
  precedes _ h := .single (h.resolve_left List.not_mem_nil)
  direct _ h := .inr h
  closed _ h := absurd h List.not_mem_nil

theorem Searches.turn (h : g.Searches i s) : g.Searches i (g.turn s) := by
  obtain ⟨seen, queue⟩ := s
  cases queue with
  | nil => exact h
  | cons q rest =>
    by_cases hq : q ∈ seen
    · -- The node is dropped, being seen already.
      have hdrop : ∀ k, k ∈ seen ∨ k ∈ q :: rest → k ∈ seen ∨ k ∈ rest := by
        rintro k (hk | hk)
        · exact .inl hk
        · rcases List.mem_cons.1 hk with rfl | hk
          · exact .inl hq
          · exact .inr hk
      rw [turn_of_mem g hq]
      exact {
        nodup := h.nodup
        precedes := fun j hj => h.precedes j (hj.imp_right (List.mem_cons_of_mem q))
        direct := fun j hj => hdrop j (h.direct j hj)
        closed := fun j hj k hk => hdrop k (h.closed j hj k hk) }
    · have hmove : ∀ k, k ∈ seen ∨ k ∈ q :: rest →
          k ∈ q :: seen ∨ k ∈ rest ++ g.dependencies.get q := by
        rintro k (hk | hk)
        · exact .inl (List.mem_cons_of_mem q hk)
        · rcases List.mem_cons.1 hk with rfl | hk
          · exact .inl List.mem_cons_self
          · exact .inr (List.mem_append_left _ hk)
      rw [turn_of_not_mem g hq]
      refine ⟨List.nodup_cons.2 ⟨hq, h.nodup⟩, ?_, fun j hj => hmove j (h.direct j hj), ?_⟩
      · rintro j (hj | hj)
        · rcases List.mem_cons.1 hj with rfl | hj
          · exact h.precedes j (.inr List.mem_cons_self)
          · exact h.precedes j (.inl hj)
        · rcases List.mem_append.1 hj with hj | hj
          · exact h.precedes j (.inr (List.mem_cons_of_mem q hj))
          · exact (Relation.TransGen.single hj).trans (h.precedes q (.inr List.mem_cons_self))
      · intro j hj k hk
        rcases List.mem_cons.1 hj with rfl | hj
        · exact .inr (List.mem_append_right _ hk)
        · exact hmove k (h.closed j hj k hk)

theorem searches_search (i : Fin size) (turns : Nat) : g.Searches i (g.search i turns) := by
  induction turns with
  | zero => exact searches_start
  | succ turns ih =>
    rw [search, Function.iterate_succ_apply']
    exact ih.turn

/-- With nothing left to look at, all that leads to the node has been seen. -/
theorem Searches.mem_seen_iff (h : g.Searches i s) (hend : s.queue = []) {j : Fin size} :
    j ∈ s.seen ↔ g.Precedes j i := by
  have hseen : ∀ k, k ∈ s.seen ∨ k ∈ s.queue → k ∈ s.seen := by
    rintro k (hk | hk)
    · exact hk
    · rw [hend] at hk
      cases hk
  constructor
  · exact fun hj => h.precedes j (.inl hj)
  · intro hj
    induction hj using Relation.TransGen.head_induction_on with
    | single hj => exact hseen _ (h.direct _ hj)
    | head hjk _ ih => exact hseen _ (h.closed _ ih _ hjk)

/-- Every turn leaves one less to look at. -/
theorem pending_turn (hqueue : s.queue ≠ []) : g.pending (g.turn s) + 1 = g.pending s := by
  obtain ⟨seen, queue⟩ := s
  obtain ⟨q, rest, rfl⟩ := List.exists_cons_of_ne_nil hqueue
  by_cases hq : q ∈ seen
  · rw [turn_of_mem g hq, pending_mk, pending_mk, List.length_cons]
    omega
  · have hunseen : (Finset.univ.filter fun j => !(q :: seen).contains j) =
        (Finset.univ.filter fun j => !seen.contains j).erase q := by
      ext j
      simp
    have hsum := Finset.sum_erase_add (Finset.univ.filter fun j => !seen.contains j)
      (fun j => (g.dependencies.get j).length) (a := q) (by simpa using hq)
    rw [turn_of_not_mem g hq, pending_mk, pending_mk, List.length_append, List.length_cons, hunseen]
    omega

theorem queue_eq_nil_of_pending {turns : Nat} (h : g.pending s ≤ turns) :
    (g.turn^[turns] s).queue = [] := by
  induction turns generalizing s with
  | zero =>
    rw [pending] at h
    exact List.eq_nil_of_length_eq_zero (Nat.eq_zero_of_add_eq_zero_right (Nat.le_zero.1 h))
  | succ turns ih =>
    by_cases hqueue : s.queue = []
    · have hstay : g.turn s = s := by rw [turn, hqueue]
      rw [Function.iterate_fixed hstay, hqueue]
    · have hless := pending_turn (g := g) hqueue
      rw [Function.iterate_succ_apply]
      exact ih (by omega)

end

end DependencyGraph

namespace Graph

variable {graph : Graph}

/-- Each list holds the first ends of edges that lead to its node, each once. -/
theorem length_dependencies_le (i : Fin graph.nodes.length) :
    (graph.dependencies.dependencies.get i).length ≤
      (graph.links.toFinset.filter fun link => link.2 = i).card := by
  rw [← List.toFinset_card_of_nodup (graph.dependencies_simple i)]
  refine Finset.card_le_card_of_injOn (fun s => (s, i)) (fun s hs => ?_)
    fun s _ t _ he => congrArg Prod.fst he
  have hfeeds : graph.dependencies.Feeds s i := List.mem_toFinset.1 hs
  simpa using graph.feeds_iff.1 hfeeds

/-- All the lists together are no longer than the list of edges. -/
theorem sum_dependencies_le (graph : Graph) :
    ∑ i, (graph.dependencies.dependencies.get i).length ≤ graph.edges.length := calc
  ∑ i, (graph.dependencies.dependencies.get i).length
    ≤ ∑ i, (graph.links.toFinset.filter fun link => link.2 = i).card :=
      Finset.sum_le_sum fun i _ => length_dependencies_le i
  _ = graph.links.toFinset.card :=
      (Finset.card_eq_sum_card_fiberwise fun _ _ => Finset.mem_coe.2 (Finset.mem_univ _)).symm
  _ ≤ graph.links.length := List.toFinset_card_le _
  _ ≤ graph.edges.length := List.length_filterMap_le ..

/-- A node is on a cycle if one can go from edge to edge and come back to it. -/
theorem onCycle_iff {i : Fin graph.nodes.length} :
    graph.OnCycle i ↔ ∃ path, List.IsChain graph.Connects ((i :: path) ++ [i]) := by
  rw [OnCycle, Relation.TransGen.tail'_iff]
  constructor
  · rintro ⟨last, hpath, hback⟩
    obtain ⟨path, hchain, rfl⟩ := List.exists_isChain_cons_of_relationReflTransGen hpath
    refine ⟨path, List.isChain_append.2 ⟨hchain, .singleton i, ?_⟩⟩
    rw [List.getLast?_eq_getLast_of_ne_nil (List.cons_ne_nil i path)]
    rintro _ ⟨⟩ _ ⟨⟩
    exact hback
  · rintro ⟨path, hchain⟩
    obtain ⟨hpath, -, hjoin⟩ := List.isChain_append.1 hchain
    have hlast := List.getLast?_eq_getLast_of_ne_nil (List.cons_ne_nil i path)
    exact ⟨_, List.relationReflTransGen_of_exists_isChain_cons path hpath rfl, hjoin _ hlast i rfl⟩

/-- The search for the ancestors of a node ends, after one turn at most for each of its dependencies and
for each edge, and has then seen what is marked: the nodes that edges lead from to it, in one step or more.
The node is among them exactly if it is on a cycle. -/
theorem ancestors_found (graph : Graph) (i : Fin graph.nodes.length) :
    (∃ turns ≤ (graph.dependencies.dependencies.get i).length + graph.edges.length,
        (graph.dependencies.search i turns).queue = [] ∧
          (graph.dependencies.search i turns).seen.Nodup ∧
          ∀ j, j ∈ (graph.dependencies.search i turns).seen ↔ graph.dependencies.isAncestor j i = true) ∧
      (∀ j, graph.dependencies.isAncestor j i = true ↔ Relation.TransGen graph.Connects j i) ∧
      (graph.dependencies.isAncestor i i = true ↔
        ∃ path, List.IsChain graph.Connects ((i :: path) ++ [i])) := by
  refine ⟨⟨_, Nat.le_refl _, ?_⟩, fun j => ?_, ?_⟩
  · have hpending : graph.dependencies.pending ⟨[], graph.dependencies.dependencies.get i⟩ ≤
        (graph.dependencies.dependencies.get i).length + graph.edges.length := by
      rw [DependencyGraph.pending_start]
      exact Nat.add_le_add_left graph.sum_dependencies_le _
    have hend := DependencyGraph.queue_eq_nil_of_pending hpending
    have hsearches := DependencyGraph.searches_search (g := graph.dependencies) i
      ((graph.dependencies.dependencies.get i).length + graph.edges.length)
    exact ⟨hend, hsearches.nodup, fun j =>
      (hsearches.mem_seen_iff hend).trans graph.dependencies.isAncestor_iff.symm⟩
  · rw [DependencyGraph.isAncestor_iff, DependencyGraph.Precedes, feeds_eq]
  · rw [DependencyGraph.isAncestor_iff, precedes_self_iff, onCycle_iff]

end Graph

end Flowgraph
