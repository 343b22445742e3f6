import Flowgraph.Code.Tree
import Flowgraph.Proofs.Program.Layered
import Mathlib.Data.List.Nodup
import Mathlib.Data.List.Perm.Subperm

/-! The names of generated code: every node has one of its own, and none is a name that the code
uses itself. -/

namespace Flowgraph.Code

/-- The names that are tried for a node after its base name. -/
def numbered (count : Nat) (base : String) : List String :=
  (List.range count).map fun n => base ++ "_" ++ toString (n + 2)

theorem numbered_injective (base : String) :
    Function.Injective fun n : Nat => base ++ "_" ++ toString (n + 2) := by
  intro m n h
  have htext : (m + 2).repr = (n + 2).repr := by simpa using h
  have hdigits : Nat.toDigits 10 (m + 2) = Nat.toDigits 10 (n + 2) := String.ofList_injective htext
  have hread := congrArg (Nat.ofDigitChars 10 · 0) hdigits
  simpa only [Nat.ofDigitChars_toDigits (b := 10) (by decide) (by decide), Nat.add_right_cancel_iff]
    using hread

theorem nodup_tried (count : Nat) (base : String) : (base :: numbered count base).Nodup := by
  refine List.nodup_cons.2 ⟨fun hmem => ?_, List.nodup_range.map (numbered_injective base)⟩
  obtain ⟨n, -, hn⟩ := List.mem_map.1 hmem
  have hlength := congrArg String.length hn
  simp only [String.length_append] at hlength
  have : "_".length = 1 := rfl
  omega

theorem freeName_eq (taken : List String) (base : String) : freeName taken base =
    ((base :: numbered taken.length base).find? (· ∉ taken)).getD base := rfl

/-- Of one more name than are taken, one is free. -/
theorem freeName_not_mem (taken : List String) (base : String) :
    freeName taken base ∉ taken := by
  rw [freeName_eq]
  cases hf : (base :: numbered taken.length base).find? (· ∉ taken) with
  | some name => simpa using List.find?_some hf
  | none =>
    exfalso
    have hall : base :: numbered taken.length base ⊆ taken := fun name hname => by
      simpa using List.find?_eq_none.1 hf name hname
    have hle := (List.subperm_of_subset (nodup_tried taken.length base) hall).length_le
    exact absurd hle (by simp [numbered])

@[simp] theorem map_fst_assignNames (taken ids : List String) :
    (assignNames taken ids).map (·.1) = ids := by
  induction ids generalizing taken with
  | nil => rfl
  | cons id rest ih => simp [assignNames, ih]

/-- What is taken stays so, and a name is taken as soon as it is given. -/
theorem assignNames_fresh (taken ids : List String) :
    ((assignNames taken ids).map (·.2)).Nodup ∧
      ∀ name ∈ (assignNames taken ids).map (·.2), name ∉ taken := by
  induction ids generalizing taken with
  | nil => simp [assignNames]
  | cons id rest ih =>
    obtain ⟨hnodup, hfresh⟩ := ih (freeName taken (baseName id) :: taken)
    have hfree := freeName_not_mem taken (baseName id)
    rw [assignNames, List.map_cons]
    refine ⟨List.nodup_cons.2 ⟨fun hmem => hfresh _ hmem (List.mem_cons_self ..), hnodup⟩, ?_⟩
    intro name hname
    rcases List.mem_cons.1 hname with rfl | hname
    · exact hfree
    · exact fun htaken => hfresh name hname (List.mem_cons_of_mem _ htaken)

namespace Names

variable {program : Program}

theorem exists_lookup {id : String} (hid : id ∈ program.nodeIds) :
    ∃ name, (ofProgram program).lookup id = some name := by
  rw [← Option.isSome_iff_exists, List.lookup_isSome_iff]
  have hmem : id ∈ (ofProgram program).map (·.1) := by rwa [ofProgram, map_fst_assignNames]
  obtain ⟨p, hp, rfl⟩ := List.mem_map.1 hmem
  exact ⟨p, hp, beq_self_eq_true _⟩

theorem lookup_eq_of {id : String} (hid : id ∈ program.nodeIds) :
    (ofProgram program).lookup id = some ((ofProgram program).of id) := by
  obtain ⟨name, hname⟩ := exists_lookup hid
  rw [of, hname, Option.getD_some]

theorem mem_of_lookup {names : Names} {id name : String} (h : names.lookup id = some name) :
    (id, name) ∈ names := by
  obtain ⟨before, after, rfl, -⟩ := List.lookup_eq_some_iff.1 h
  simp

theorem of_not_reserved {id : String} (hid : id ∈ program.nodeIds) :
    (ofProgram program).of id ∉ reserved :=
  (assignNames_fresh reserved program.nodeIds).2 _
    (List.mem_map_of_mem (mem_of_lookup (lookup_eq_of hid)))

/-- No two nodes have one name. -/
theorem of_injOn {a b : String} (ha : a ∈ program.nodeIds) (hb : b ∈ program.nodeIds)
    (h : (ofProgram program).of a = (ofProgram program).of b) : a = b := by
  have hnodup := (assignNames_fresh reserved program.nodeIds).1
  have hpair := List.inj_on_of_nodup_map hnodup (mem_of_lookup (lookup_eq_of ha))
    (mem_of_lookup (lookup_eq_of hb)) h
  exact congrArg Prod.fst hpair

theorem nodup_map_of {ids : List String} (hids : ids.Nodup) (hmem : ∀ id ∈ ids, id ∈ program.nodeIds) :
    (ids.map (ofProgram program).of).Nodup :=
  List.Nodup.map_on (fun _ ha _ hb h => of_injOn (hmem _ ha) (hmem _ hb) h) hids

end Names

theorem upstream_of_mem_producers {program : Program} {graph : Graph} (hp : program.Layered graph)
    {n : CompiledNode} (hn : n ∈ program.nodes) {id : String} (hid : id ∈ producers program n) :
    graph.Upstream id n.id := by
  obtain ⟨-, hread⟩ := List.mem_filter.1 hid
  obtain ⟨r, hr, rfl⟩ := List.mem_map.1 (of_decide_eq_true hread)
  rw [Binding.fieldReferences_eq_flatMap] at hr
  exact hp.upstream n hn r hr

/-- The name of the function of a node. -/
def StepFunction.item (f : StepFunction) : String := "step_" ++ f.name

namespace Listing

variable {program : Program} {graph : Graph}

theorem map_name_functions (title : String) :
    (ofProgram program title).functions.map (·.name) =
      program.nodeIds.map (Names.ofProgram program).of := by
  simp only [ofProgram, Program.nodeIds, List.map_map]
  rfl

def calls (u : Listing) : List StepCall := u.stages.flatMap (·.calls)

/-- The nodes are called in the order of the program. -/
theorem calls_ofProgram (hp : program.Layered graph) (title : String) :
    (ofProgram program title).calls =
      program.nodes.map (StepCall.ofNode program (.ofProgram program)) := by
  rw [← hp.flatMap_stageNodes, List.map_flatMap, calls, ofProgram, List.flatMap_map]

end Listing

end Flowgraph.Code
