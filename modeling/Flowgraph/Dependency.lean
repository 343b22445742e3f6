import Flowgraph.Graph.Basic
import Flowgraph.Violation

/-! The dependencies of a graph by places of its nodes, its stages, and what each node
depends on directly and indirectly. -/

namespace Flowgraph

/-- Which nodes each node depends on, as lists that ascend and repeat nothing. -/
structure DependencyGraph (size : Nat) where
  dependencies : Vector (List (Fin size)) size

namespace Graph

def ids (graph : Graph) : List String := graph.nodes.map Node.id

/-- Edges attach to the first node that carries an id. -/
def place? (graph : Graph) (id : String) : Option (Fin graph.nodes.length) :=
  graph.nodes.findFinIdx? (·.id = id)

/-- The edges between declared nodes. -/
def links (graph : Graph) : List (Fin graph.nodes.length × Fin graph.nodes.length) :=
  graph.edges.filterMap fun e => do return (← graph.place? e.source, ← graph.place? e.target)

/-- However often and in whatever order edges are given, the lists are the same. -/
def dependencies (graph : Graph) : DependencyGraph graph.nodes.length where
  dependencies :=
    let links := graph.links
    Vector.ofFn fun target =>
      let sources := (links.filter (·.2 = target)).map (·.1)
      (List.finRange graph.nodes.length).filter (· ∈ sources)

/-- Each id that occurs more than once, where it occurs the second time. -/
def repeatedIds (graph : Graph) : List String :=
  graph.ids.zipIdx.filterMap fun (id, i) =>
    if (graph.ids.take i).count id = 1 then some id else none

def danglingEnds (graph : Graph) (edge : Edge) : List Violation :=
  (if (graph.place? edge.source).isNone then [.unknownNodeReference edge.source .source] else []) ++
    if (graph.place? edge.target).isNone then [.unknownNodeReference edge.target .target] else []

/-- Repeated ids, then dangling ends of edges. -/
def structuralViolations (graph : Graph) : List Violation :=
  graph.repeatedIds.map .duplicateNodeId ++ graph.edges.flatMap graph.danglingEnds

end Graph

namespace DependencyGraph

variable {size : Nat} (g : DependencyGraph size)

/-- The nodes that depend on this one. -/
def dependents (i : Fin size) : List (Fin size) :=
  (List.finRange size).filter fun j => i ∈ g.dependencies[j]

/-- How many dependencies of each node are still to be placed. -/
abbrev Degrees (size : Nat) := Vector Nat size

def inDegrees : Degrees size := g.dependencies.map List.length

/-- Placing a node leaves each of its dependents one dependency less. -/
def release (degrees : Degrees size) (i : Fin size) : Degrees size :=
  (g.dependents i).foldl (fun ds (j : Fin size) => ds.set j (ds[j] - 1)) degrees

/-- Nodes by stage, and the nodes that no stage can take. -/
structure StageOrder (size : Nat) where
  stages : List (List (Fin size))
  unresolved : List (Fin size)

def ready (degrees : Degrees size) (remaining : List (Fin size)) : List (Fin size) :=
  remaining.filter fun i => degrees[i] = 0

def waiting (degrees : Degrees size) (remaining : List (Fin size)) : List (Fin size) :=
  remaining.filter fun i => degrees[i] ≠ 0

theorem length_waiting_lt {degrees : Degrees size} {remaining : List (Fin size)}
    (h : ready degrees remaining ≠ []) :
    (waiting degrees remaining).length < remaining.length := by
  obtain ⟨i, hi⟩ := List.exists_mem_of_ne_nil _ h
  obtain ⟨hmem, h0⟩ := List.mem_filter.1 hi
  exact List.length_filter_lt_length_iff_exists.2 ⟨i, hmem, by simpa using h0⟩

/-- A stage takes all remaining nodes that wait for nothing. -/
def peel (degrees : Degrees size) (remaining : List (Fin size)) : StageOrder size :=
  let stage := ready degrees remaining
  if h : stage = [] then ⟨[], remaining⟩
  else
    have := length_waiting_lt h
    let order := peel (stage.foldl g.release degrees) (waiting degrees remaining)
    { order with stages := stage :: order.stages }
termination_by remaining.length

def order : StageOrder size := g.peel g.inDegrees (List.finRange size)

/-- Goes from node to node, marking what it meets. -/
def reach (seen : Vector Bool size) : List (Fin size) → Vector Bool size
  | [] => seen
  | i :: rest =>
    if h : seen[i] then reach seen rest
    else reach (seen.set i true) (g.dependencies[i] ++ rest)
termination_by queue => (seen.count false, queue.length)
decreasing_by
  · exact Prod.Lex.right _ (by simp)
  · refine Prod.Lex.left _ _ ?_
    have hi : seen[i.val] = false := by simpa using h
    have hpos : 0 < seen.count false := Vector.count_pos_iff.2 (hi ▸ Vector.getElem_mem i.isLt)
    rw [Vector.count_set i.isLt, hi]
    exact Nat.sub_lt hpos Nat.one_pos

/-- Everything that a node depends on, directly or not. It is among them only if it lies on a
cycle. -/
def ancestors (i : Fin size) : Vector Bool size :=
  g.reach (Vector.replicate size false) g.dependencies[i]

def isAncestor (j i : Fin size) : Bool := (g.ancestors i)[j]

/-- The nodes that lie on a cycle, those that are only behind one left out. -/
def cycleMembers (order : StageOrder size) : List (Fin size) :=
  order.unresolved.filter fun i => g.isAncestor i i

end DependencyGraph

end Flowgraph
