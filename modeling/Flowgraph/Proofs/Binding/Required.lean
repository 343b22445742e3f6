import Flowgraph.Proofs.Binding.Meaning
import Flowgraph.Proofs.Graph.Verdict
import Mathlib

/-! The inputs that a step requires are looked for in the config as it is written. They reach the
step as values, but for the text that chooses its integration. -/

namespace Flowgraph

/-- The value is one placeholder and nothing else. -/
def Json.IsPlaceholder (v : Json) : Prop :=
  ∃ body, Template.Braceless body ∧ v = .string (String.ofList (Template.braced body))

theorem Json.evaluate_ne_null (found : List Char → Option Json) {v : Json} (h : v ≠ .null)
    (hv : ¬ v.IsPlaceholder) : v.evaluate found ≠ .null := by
  cases v with
  | null => exact absurd rfl h
  | bool | number | array | object => simp [evaluate]
  | string s =>
    rw [evaluate, evaluateText]
    split
    · next body hs =>
      obtain ⟨hbody, hs⟩ := Template.placeholder?_eq_some.1 hs
      refine absurd ⟨body, hbody, ?_⟩ hv
      rw [← String.ofList_toList (s := s), hs, List.append_nil]
    · simp

/-- The step gets what the config has for an input. A value that is only a placeholder may turn out
to be null, and the text that chooses an integration goes to the context of the step. -/
structure CompiledNode.Receives (n : CompiledNode) (input : String) (v : Json) : Prop where
  value : ¬ ChoosesIntegration (input, v) → ∀ outputs, ∃ received,
    (n.resolveInput outputs).lookup input = some received ∧ (received = .null → v.IsPlaceholder)
  integration : ChoosesIntegration (input, v) → n.integrationId.map Json.string = some v

theorem findSome?_integration {config : Fields Json} {input : String} {v : Json}
    (h : config.lookup input = some v) (hv : ChoosesIntegration (input, v)) :
    (config.findSome? fun kv => integration? kv.1 kv.2).map Json.string = some v := by
  obtain ⟨before, after, rfl, hbefore⟩ := List.lookup_eq_some_iff.1 h
  obtain ⟨id, hid⟩ := Option.isSome_iff_exists.1 (isSome_integration?.2 hv)
  obtain ⟨rfl, rfl, -⟩ := integration?_eq_some.1 hid
  have hnone : before.findSome? (fun kv => integration? kv.1 kv.2) = none := by
    refine List.findSome?_eq_none_iff.2 fun kv hkv => ?_
    rw [← Option.not_isSome_iff_eq_none, isSome_integration?]
    rintro ⟨hkey, -⟩
    simpa [hkey] using hbefore kv hkv
  simp [List.findSome?_append, hnone, hid]

namespace Graph

variable {graph : Graph} {registry : Registry} {program : Program}

theorem compile_wellFormed (h : graph.compile registry = .ok program) :
    graph.WellFormed registry := by
  rw [compile, validate] at h
  split at h
  · next hv => exact violations_eq_nil.1 hv
  · simp [Except.map] at h

theorem Renders.lookup {node : Node} {n : CompiledNode} (h : graph.Renders node n)
    {input : String} {v : Json} (hv : node.config.lookup input = some v)
    (hplain : ¬ ChoosesIntegration (input, v)) (outputs : Outputs) :
    (n.resolveInput outputs).lookup input = some (v.evaluate (graph.supplied outputs)) := by
  rw [h.input]
  obtain ⟨before, after, hconfig, hbefore⟩ := List.lookup_eq_some_iff.1 hv
  refine List.lookup_eq_some_iff.2 ⟨_, _, by
    rw [hconfig, List.filter_append, List.filter_cons_of_pos (by simpa using hplain),
      List.map_append, List.map_cons], fun kv hkv => ?_⟩
  obtain ⟨kv, hmem, rfl⟩ := List.mem_map.1 hkv
  exact hbefore kv (List.mem_of_mem_filter hmem)

theorem integrationId_compiledNode (i : Fin graph.nodes.length) (stage : Nat) :
    (graph.compiledNode i stage).integrationId =
      (graph.node i).config.findSome? fun kv => integration? kv.1 kv.2 := by
  rw [compiledNode, ValidNode.compile, validNode, configs_get]
  rfl

/-- What a step requires it gets: the graph is refused unless the config has a value for it. -/
theorem compile_receives (h : graph.compile registry = .ok program) :
    ∀ n ∈ program.nodes, ∀ d, registry.find? n.stepType = some d → ∀ input ∈ d.requiredInputs,
      ∃ node ∈ graph.nodes, node.id = n.id ∧ node.stepType = n.stepType ∧
        ∃ v, node.config.lookup input = some v ∧ v ≠ .null ∧ n.Receives input v := by
  have hwell := compile_wellFormed h
  obtain ⟨-, rfl⟩ := compile_eq_ok h
  intro n hn d hd input hinput
  obtain ⟨layer, -, hn⟩ := List.mem_flatMap.1 hn
  obtain ⟨i, -, rfl⟩ := List.mem_map.1 hn
  have hmem : graph.node i ∈ graph.nodes := List.getElem_mem i.isLt
  obtain ⟨d', hd', hgives⟩ := hwell.typed _ hmem
  obtain rfl : d = d' := Option.some.inj (hd.symm.trans hd')
  obtain ⟨v, hv, hne⟩ := hgives input hinput
  refine ⟨graph.node i, hmem, rfl, rfl, v, hv, hne, fun hplain outputs => ?_, fun hchosen => ?_⟩
  · refine ⟨_, (renders_compiledNode h i layer.2).lookup hv hplain outputs, fun hnull => ?_⟩
    by_contra hnot
    exact v.evaluate_ne_null _ hne hnot hnull
  · rw [integrationId_compiledNode]
    exact findSome?_integration hv hchosen

/-- A step that requires a text and the integration it works through. -/
def mailDescriptor : StepDescriptor := ⟨"mail", [⟨"body", true⟩, ⟨integrationKey, true⟩], Step.echo⟩

def mailing : Graph where
  nodes := [
    ⟨"mail", "mail", none, [("body", .string "hello"), (integrationKey, .string "gmail-1")]⟩]
  edges := []

theorem mailing_receives : ∃ program, mailing.compile ⟨[mailDescriptor]⟩ = .ok program ∧
    ∀ n ∈ program.nodes, ∀ d, Registry.find? ⟨[mailDescriptor]⟩ n.stepType = some d →
      ∀ input ∈ d.requiredInputs, ∃ node ∈ mailing.nodes, node.id = n.id ∧
        node.stepType = n.stepType ∧
          ∃ v, node.config.lookup input = some v ∧ v ≠ .null ∧ n.Receives input v := by
  have hok : (mailing.compile ⟨[mailDescriptor]⟩).isOk = true := by decide +kernel
  obtain ⟨program, hc⟩ := compiles_of_isOk hok
  exact ⟨program, hc, compile_receives hc⟩

/-- The integration that the config chooses is not among the inputs, required or not. -/
theorem not_every_required_input : ¬ ∀ (registry : Registry) (graph : Graph) (program : Program),
    graph.compile registry = .ok program → ∀ n ∈ program.nodes, ∀ d,
      registry.find? n.stepType = some d → ∀ input ∈ d.requiredInputs, ∀ outputs,
        ∃ received, (n.resolveInput outputs).lookup input = some received ∧
          ∃ node ∈ graph.nodes, node.id = n.id ∧ ∃ v, node.config.lookup input = some v ∧
            (received = .null → v.IsPlaceholder) := by
  intro h
  have hc : mailing.compile ⟨[mailDescriptor]⟩ = .ok mailing.arranged := by cbv
  have hnodes : mailing.arranged.nodes = [mailing.compiledNode ⟨0, by decide⟩ 0] := by cbv
  have hmem : mailing.compiledNode ⟨0, by decide⟩ 0 ∈ mailing.arranged.nodes := by simp [hnodes]
  obtain ⟨received, hreceived, -⟩ :=
    h _ _ _ hc _ hmem mailDescriptor rfl integrationKey (by decide) []
  have hnone : ((mailing.compiledNode ⟨0, by decide⟩ 0).resolveInput []).lookup integrationKey =
      none := by decide +kernel
  rw [hnone] at hreceived
  cases hreceived

end Graph

end Flowgraph
