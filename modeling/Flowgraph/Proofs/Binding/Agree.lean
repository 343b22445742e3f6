import Flowgraph.Program
import Mathlib.Data.List.Basic

/-! A binding reads nothing but the outputs that it refers to. -/

namespace Flowgraph

/-- The two sets of outputs have the same data for a node. -/
def Outputs.AgreeOn (a b : Outputs) (refs : List OutputRef) : Prop :=
  ∀ r ∈ refs, a.lookup r.node = b.lookup r.node

namespace Binding

variable {a b : Outputs}

theorem resolvePart_congr {part : Part} (h : a.AgreeOn b part.reference?.toList) :
    part.resolve a = part.resolve b := by
  cases part with
  | text s => rfl
  | output r =>
    have hr : a.lookup r.node = b.lookup r.node := h r (by simp [Part.reference?])
    simp only [Part.resolve, OutputRef.lookup, hr]

theorem resolveParts_congr {parts : List Part}
    (h : a.AgreeOn b (parts.filterMap Part.reference?)) :
    parts.map (Part.resolve a) = parts.map (Part.resolve b) :=
  List.map_congr_left fun part hp =>
    resolvePart_congr fun r hr => h r (List.mem_filterMap.2 ⟨part, hp, by simpa using hr⟩)

mutual

theorem resolve_congr (v : Binding) (h : a.AgreeOn b v.references) :
    v.resolve a = v.resolve b := by
  cases v with
  | literal v => rfl
  | output r =>
    have hr : a.lookup r.node = b.lookup r.node := h r (by simp [references])
    simp only [resolve, OutputRef.lookup, hr]
  | interpolate parts =>
    simp only [resolve]
    rw [resolveParts_congr (by simpa only [references] using h)]
  | object fields =>
    simp only [resolve]
    rw [resolveFields_congr fields (by simpa only [references] using h)]
  | array items =>
    simp only [resolve]
    rw [resolveItems_congr items (by simpa only [references] using h)]

theorem resolveItems_congr (items : List Binding) (h : a.AgreeOn b (itemReferences items)) :
    resolveItems a items = resolveItems b items := by
  cases items with
  | nil => rfl
  | cons v rest =>
    rw [itemReferences] at h
    rw [resolveItems, resolveItems, resolve_congr v fun r hr => h r (List.mem_append_left _ hr),
      resolveItems_congr rest fun r hr => h r (List.mem_append_right _ hr)]

theorem resolveFields_congr (fields : List (String × Binding))
    (h : a.AgreeOn b (fieldReferences fields)) :
    resolveFields a fields = resolveFields b fields := by
  cases fields with
  | nil => rfl
  | cons kv rest =>
    rw [fieldReferences] at h
    rw [resolveFields, resolveFields,
      resolve_congr kv.2 fun r hr => h r (List.mem_append_left _ hr),
      resolveFields_congr rest fun r hr => h r (List.mem_append_right _ hr)]

end

end Binding

/-- The outputs that the inputs of a node refer to. -/
def CompiledNode.references (node : CompiledNode) : List OutputRef :=
  node.inputs.flatMap fun kb => kb.2.references

theorem CompiledNode.resolveInput_congr {node : CompiledNode} {a b : Outputs}
    (h : a.AgreeOn b node.references) : node.resolveInput a = node.resolveInput b :=
  Binding.resolveFields_congr _ fun r hr =>
    h r (by rwa [Binding.fieldReferences_eq_flatMap] at hr)

end Flowgraph
