import Flowgraph.Proofs.Program.Layered
import Mathlib.Data.List.Nodup

/-! Programs as they are put together: each node is taken out of its slot when a stage names its place,
and a place whose slot is empty is passed over. No stage names a place that another one has named, so
nothing is passed over, and what comes out is the program that the stages describe. -/

namespace Flowgraph

/-- The nodes that have not been taken yet, each in its slot. -/
abbrev Slots (size : Nat) := Vector (Option ValidNode) size

/-- A program of which some stages are filled, and the stage that is being filled. -/
structure Filling (size : Nat) where
  slots : Slots size
  nodes : List CompiledNode
  stages : List Stage
  nodeIds : List String

namespace Filling

variable {size : Nat}

/-- Takes the node at a place into the stage of this number. -/
def take (index : Nat) (f : Filling size) (i : Fin size) : Filling size :=
  match f.slots.get i with
  | none => f
  | some node =>
    { f with
      slots := f.slots.set i none i.isLt
      nodes := f.nodes ++ [node.compile index]
      nodeIds := f.nodeIds ++ [node.id] }

/-- Fills one more stage. -/
def fill (f : Filling size) (stage : List (Fin size) × Nat) : Filling size :=
  let filled := stage.1.foldl (take stage.2) { f with nodeIds := [] }
  { filled with stages := filled.stages ++ [⟨stage.2, filled.nodeIds⟩] }

end Filling

namespace ValidGraph

variable (valid : ValidGraph)

/-- Stage by stage, with all slots full at first. -/
def assemble : Program :=
  let filled := valid.stages.zipIdx.foldl Filling.fill ⟨valid.nodes.map some, [], [], []⟩
  ⟨filled.nodes, filled.stages⟩

/-- The slots of these places are empty, and the others hold their nodes. -/
structure Emptied (slots : Slots valid.size) (gone : List (Fin valid.size)) : Prop where
  empty : ∀ i ∈ gone, slots.get i = none
  full : ∀ i, i ∉ gone → slots.get i = some (valid.nodes.get i)

theorem emptied_nil : valid.Emptied (valid.nodes.map some) [] :=
  ⟨fun _ hi => absurd hi List.not_mem_nil, fun i _ => Vector.getElem_map _ i.isLt⟩

variable {valid} {slots : Slots valid.size} {gone : List (Fin valid.size)}

theorem Emptied.set (h : valid.Emptied slots gone) (i : Fin valid.size) :
    valid.Emptied (slots.set i none i.isLt) (gone ++ [i]) := by
  have hother : ∀ j, i ≠ j → (slots.set i none i.isLt).get j = slots.get j := fun j hij =>
    Vector.getElem_set_ne i.isLt j.isLt fun e => hij (Fin.ext e)
  constructor
  · intro j hj
    by_cases hij : i = j
    · subst hij
      exact Vector.getElem_set_self i.isLt
    · rw [hother j hij]
      exact h.empty j ((List.mem_append.1 hj).resolve_right fun hj => hij (List.mem_singleton.1 hj).symm)
  · intro j hj
    rw [List.mem_append, List.mem_singleton, not_or] at hj
    rw [hother j (Ne.symm hj.2)]
    exact h.full j hj.1

/-- A place that is new is taken. -/
theorem Emptied.take_eq (h : valid.Emptied slots gone) {i : Fin valid.size} (hi : i ∉ gone)
    (index : Nat) (nodes : List CompiledNode) (stages : List Stage) (nodeIds : List String) :
    Filling.take index ⟨slots, nodes, stages, nodeIds⟩ i =
      ⟨slots.set i none i.isLt, nodes ++ [(valid.nodes.get i).compile index], stages,
        nodeIds ++ [(valid.nodes.get i).id]⟩ := by
  simp only [Filling.take, h.full i hi]

theorem Emptied.foldl_take (h : valid.Emptied slots gone) {members : List (Fin valid.size)}
    (hn : (gone ++ members).Nodup) (index : Nat) (nodes : List CompiledNode) (stages : List Stage)
    (nodeIds : List String) :
    ∃ slots', valid.Emptied slots' (gone ++ members) ∧
      members.foldl (Filling.take index) ⟨slots, nodes, stages, nodeIds⟩ =
        ⟨slots', nodes ++ members.map fun i => (valid.nodes.get i).compile index, stages,
          nodeIds ++ members.map fun i => (valid.nodes.get i).id⟩ := by
  induction members generalizing slots gone nodes nodeIds with
  | nil => exact ⟨slots, by rwa [List.append_nil], by simp⟩
  | cons i rest ih =>
    have hnew : i ∉ gone := fun hi => (List.nodup_append'.1 hn).2.2 hi List.mem_cons_self
    obtain ⟨slots', hempty, hfold⟩ := ih (h.set i) (by rwa [List.append_cons] at hn)
      (nodes ++ [(valid.nodes.get i).compile index]) (nodeIds ++ [(valid.nodes.get i).id])
    refine ⟨slots', by rwa [List.append_cons], ?_⟩
    rw [List.foldl_cons, h.take_eq hnew, hfold]
    simp

theorem Emptied.foldl_fill (h : valid.Emptied slots gone)
    {stages : List (List (Fin valid.size) × Nat)} (hn : (gone ++ stages.flatMap (·.1)).Nodup)
    (nodes : List CompiledNode) (before : List Stage) (nodeIds : List String) :
    ∃ slots' nodeIds', stages.foldl Filling.fill ⟨slots, nodes, before, nodeIds⟩ =
      ⟨slots',
        nodes ++ stages.flatMap fun stage => stage.1.map fun i => (valid.nodes.get i).compile stage.2,
        before ++ stages.map fun stage => ⟨stage.2, stage.1.map fun i => (valid.nodes.get i).id⟩,
        nodeIds'⟩ := by
  induction stages generalizing slots gone nodes before nodeIds with
  | nil => exact ⟨slots, nodeIds, by simp⟩
  | cons stage rest ih =>
    rw [List.flatMap_cons, ← List.append_assoc] at hn
    obtain ⟨slots₁, hempty, hfold⟩ :=
      h.foldl_take (List.nodup_append'.1 hn).1 stage.2 nodes before []
    obtain ⟨slots', nodeIds', hrest⟩ := ih hempty hn
      (nodes ++ stage.1.map fun i => (valid.nodes.get i).compile stage.2)
      (before ++ [⟨stage.2, stage.1.map fun i => (valid.nodes.get i).id⟩])
      (stage.1.map fun i => (valid.nodes.get i).id)
    refine ⟨slots', nodeIds', ?_⟩
    rw [List.nil_append] at hfold
    rw [List.foldl_cons, Filling.fill, hfold, hrest]
    simp

/-- If no place is named twice, no slot is found empty. -/
theorem assemble_eq_compile (hn : valid.stages.flatten.Nodup) : valid.assemble = valid.compile := by
  have hplaces : valid.stages.zipIdx.flatMap (·.1) = valid.stages.flatten := by
    rw [List.flatMap_def, List.zipIdx_map_fst]
  obtain ⟨slots, nodeIds, hfold⟩ :=
    valid.emptied_nil.foldl_fill (by rwa [List.nil_append, hplaces]) [] [] []
  rw [assemble, hfold]
  rfl

end ValidGraph

namespace Graph

variable {graph : Graph} {registry : Registry}

/-- The stages of a graph name each place at most once. -/
theorem nodup_stages_of_validate {valid : ValidGraph} (h : graph.validate registry = .ok valid) :
    valid.stages.flatten.Nodup := by
  rw [validate] at h
  split at h
  · cases h
    have hnodup := graph.dependencies.order_perm.nodup_iff.2 (List.nodup_finRange _)
    exact (List.nodup_append'.1 hnodup).1
  · cases h

/-- Compiling by taking nodes out of their slots loses none. -/
theorem compile_eq_assemble :
    graph.compile registry = (graph.validate registry).map ValidGraph.assemble := by
  rw [compile]
  cases hv : graph.validate registry with
  | error violations => rfl
  | ok valid =>
    rw [Except.map, Except.map, ValidGraph.assemble_eq_compile (nodup_stages_of_validate hv)]

end Graph

end Flowgraph
