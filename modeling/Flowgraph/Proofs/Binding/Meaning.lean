import Flowgraph.Proofs.Binding.Reports
import Flowgraph.Proofs.Program.Layered
import Flowgraph.Proofs.Template.Filling
import Mathlib

/-! What a config means without compiling it: strings are filled in where they stand, and the
values that their placeholders stand for are looked up by name. A graph without violations compiles
to bindings that mean the same for all outputs. -/

namespace Flowgraph

namespace Json

variable (found : List Char → Option Json)

/-- A value in the place of a placeholder within text; one that is not found is nothing. -/
def spliceFound (body : List Char) : List Char := (((found body).map Json.spliced).getD "").toList

/-- A text that is one placeholder stands for the value itself. -/
def evaluateText (text : String) : Json :=
  match Template.placeholder? text.toList with
  | some (body, []) => (found body).getD .null
  | _ => .string (String.ofList (Template.fill (spliceFound found) text.toList))

mutual

/-- What the value means when `found` tells what placeholders stand for. -/
def evaluate : Json → Json
  | .string s => evaluateText found s
  | .array items => .array (evaluateItems items)
  | .object fields => .object (evaluateFields fields)
  | v => v

def evaluateItems : List Json → List Json
  | [] => []
  | v :: rest => evaluate v :: evaluateItems rest

def evaluateFields : List (String × Json) → List (String × Json)
  | [] => []
  | (key, v) :: rest => (key, evaluate v) :: evaluateFields rest

end

theorem evaluateFields_eq_map (fields : List (String × Json)) :
    evaluateFields found fields = fields.map fun kv => (kv.1, kv.2.evaluate found) := by
  induction fields <;> simp_all [evaluateFields]

end Json

namespace Graph

/-- The value that a placeholder stands for: the one at its path in the output of the node that bears
its name. -/
def supplied (graph : Graph) (outputs : Outputs) (body : List Char) : Option Json := do
  let r ← Template.reference? body
  let source ← graph.nodes.find? (·.referenceName = r.node)
  let data ← outputs.lookup source.id
  r.path.lookup data

theorem find?_of_bearers {graph : Graph} {name : String} {t : Fin graph.nodes.length}
    (h : graph.bearers name = [t]) :
    graph.nodes.find? (·.referenceName = name) = some (graph.node t) := by
  have hnodes : graph.nodes = (List.finRange graph.nodes.length).map graph.node :=
    (List.map_get_finRange graph.nodes).symm
  rw [hnodes, List.find?_map, ← List.head?_filter]
  exact congrArg (Option.map graph.node ∘ List.head?) h

end Graph

namespace Scope

open Template

variable (scope : Scope)

/-- What a piece of a text compiles to. A placeholder that cannot be resolved stays as it is. -/
def part : Piece → Part
  | .text cs => .text (String.ofList cs)
  | .placeholder body =>
    match reference? body with
    | some r => (scope.compileSegment (.reference r)).1
    | none => .text (String.ofList (braced body))

variable {scope}

/-- A reference about which nothing is reported leads to the node that bears its name. -/
theorem compileSegment_of_silent {r : Reference}
    (h : (scope.compileSegment (.reference r)).2 = []) :
    ∃ t, scope.graph.bearers r.node = [t] ∧
      (scope.compileSegment (.reference r)).1 = .output ⟨(scope.graph.node t).id, r.path⟩ := by
  match hb : scope.graph.bearers r.node with
  | [] => simp [compileSegment_of_nil hb] at h
  | _ :: _ :: _ => simp [compileSegment_of_cons_cons hb] at h
  | [t] =>
    rw [compileSegment_of_singleton hb] at h
    have ha : scope.ancestors.get t = true := by
      by_contra ha
      simp [if_neg ha] at h
    have ha : scope.ancestors[t] = true := ha
    exact ⟨t, rfl, by simp [compileSegment, resolve, hb, ha]⟩

variable {text : String}

theorem reference?_of_silent (h : (scope.compileText text).2 = []) :
    ∀ body ∈ bodies text.toList, ∃ r, reference? body = some r ∧
      (scope.compileSegment (.reference r)).2 = [] := by
  intro body hbody
  rw [compileText_snd] at h
  split at h
  · next hcalled =>
    have hsome := List.filter_eq_nil_iff.1 hcalled body hbody
    obtain ⟨r, hr⟩ : ∃ r, reference? body = some r := by
      rw [called, Option.isNone_map, Option.isNone_iff_eq_none] at hsome
      exact Option.ne_none_iff_exists'.1 hsome
    have hpiece := List.flatMap_eq_nil_iff.1 h body hbody
    rw [pieceViolations, Template.segment, hr] at hpiece
    exact ⟨r, hr, hpiece⟩
  · next hne => exact absurd (List.map_eq_nil_iff.1 h) hne

/-- A text whose placeholders all call a node compiles piece by piece. -/
theorem compileText_eq_assemble (h : ∀ body ∈ bodies text.toList, (reference? body).isSome) :
    (scope.compileText text).1 = assemble text ((pieces text.toList).map scope.part) := by
  have hsegment : ∀ piece ∈ pieces text.toList, ∃ s, Template.segment piece = .ok s ∧
      (scope.compileSegment s).1 = scope.part piece := by
    intro piece hpiece
    cases piece with
    | text cs => exact ⟨_, rfl, rfl⟩
    | placeholder body =>
      obtain ⟨r, hr⟩ := Option.isSome_iff_exists.1 (h body (mem_bodies_of_mem_pieces hpiece))
      exact ⟨.reference r, by simp [Template.segment, hr], by simp [part, hr]⟩
  have hmalformed : malformed ((pieces text.toList).map Template.segment) = [] := by
    rw [malformed_eq, filterMap_pieces, List.map_eq_nil_iff, List.filter_eq_nil_iff]
    intro body hbody
    simpa [called] using Option.isSome_iff_ne_none.1 (h body hbody)
  rw [compileText, Template.parse, hmalformed]
  dsimp only
  congr 1
  rw [List.filterMap_map, List.map_map, List.map_filterMap, ← List.filterMap_eq_map]
  refine List.filterMap_congr fun piece hpiece => ?_
  obtain ⟨s, hs, hpart⟩ := hsegment piece hpiece
  simp [hs, hpart, Except.toOption]

section Resolve

variable {outputs : Outputs} {body : List Char}

theorem supplied_eq {r : Reference} {t : Fin scope.graph.nodes.length}
    (hr : reference? body = some r) (hb : scope.graph.bearers r.node = [t]) :
    scope.graph.supplied outputs body =
      OutputRef.lookup ⟨(scope.graph.node t).id, r.path⟩ outputs := by
  simp [Graph.supplied, hr, Graph.find?_of_bearers hb, OutputRef.lookup]

/-- A placeholder of such a text compiles to a reference to the value that it stands for. -/
theorem part_placeholder (h : (scope.compileText text).2 = []) (hbody : body ∈ bodies text.toList) :
    ∃ o, scope.part (.placeholder body) = .output o ∧
      ∀ outputs, o.lookup outputs = scope.graph.supplied outputs body := by
  obtain ⟨r, hr, hsilent⟩ := reference?_of_silent h body hbody
  obtain ⟨t, hb, hpart⟩ := compileSegment_of_silent hsilent
  exact ⟨_, by simp [part, hr, hpart], fun outputs => (supplied_eq hr hb).symm⟩

theorem resolve_part (h : (scope.compileText text).2 = []) {piece : Piece}
    (hpiece : piece ∈ pieces text.toList) :
    (scope.part piece).resolve outputs =
      String.ofList (piece.filled (Json.spliceFound (scope.graph.supplied outputs))) := by
  cases piece with
  | text cs => rfl
  | placeholder body =>
    obtain ⟨o, ho, hlookup⟩ := part_placeholder h (mem_bodies_of_mem_pieces hpiece)
    rw [ho, Part.resolve, hlookup, Piece.filled, Json.spliceFound, String.ofList_toList]

/-- Parts that are no single reference are joined to a text. -/
theorem resolve_assemble {parts : List Part} (hone : ∀ o, parts ≠ [.output o])
    (htext : parts.all isText = true → String.join (parts.map (Part.resolve outputs)) = text) :
    (assemble text parts).resolve outputs =
      .string (String.join (parts.map (Part.resolve outputs))) := by
  unfold assemble
  split
  · next o => exact absurd rfl (hone o)
  · split
    · next hall => rw [Binding.resolve, htext hall]
    · rw [Binding.resolve]

theorem join_parts (h : (scope.compileText text).2 = []) :
    String.join (((pieces text.toList).map scope.part).map (Part.resolve outputs)) =
      String.ofList (fill (Json.spliceFound (scope.graph.supplied outputs)) text.toList) := by
  rw [← String.toList_inj, String.toList_join, String.toList_ofList, fill_eq, List.map_map,
    List.flatMap_map]
  refine List.flatMap_congr fun piece hpiece => ?_
  rw [Function.comp_apply, resolve_part h hpiece, String.toList_ofList]

theorem body?_of_isText (h : (scope.compileText text).2 = []) {piece : Piece}
    (hpiece : piece ∈ pieces text.toList) (htext : isText (scope.part piece) = true) :
    piece.body? = none := by
  cases piece with
  | text => rfl
  | placeholder body =>
    obtain ⟨o, ho, -⟩ := part_placeholder h (mem_bodies_of_mem_pieces hpiece)
    simp [ho, isText] at htext

/-- A text about which nothing is reported compiles to what it means. -/
theorem resolve_compileText (h : (scope.compileText text).2 = []) (outputs : Outputs) :
    (scope.compileText text).1.resolve outputs =
      Json.evaluateText (scope.graph.supplied outputs) text := by
  have hreferences : ∀ body ∈ bodies text.toList, (reference? body).isSome := fun body hbody => by
    obtain ⟨r, hr, -⟩ := reference?_of_silent h body hbody
    exact Option.isSome_of_eq_some hr
  rw [compileText_eq_assemble hreferences, Json.evaluateText]
  split
  · next body hone =>
    have hpieces := pieces_eq_singleton.2 hone
    have hbody : body ∈ bodies text.toList := mem_bodies_of_mem_pieces (by simp [hpieces])
    obtain ⟨o, ho, hlookup⟩ := part_placeholder h hbody
    rw [hpieces, List.map_singleton, ho, assemble, Binding.resolve, hlookup]
  · next hone =>
    rw [resolve_assemble, join_parts h]
    · intro o ho
      obtain ⟨piece, hpieces, hpart⟩ := List.map_eq_singleton_iff.1 ho
      cases piece with
      | text cs => simp [part] at hpart
      | placeholder body => exact hone body (pieces_eq_singleton.1 hpieces)
    · intro hall
      rw [join_parts h, fill_of_texts, String.ofList_toList]
      intro piece hpiece
      exact body?_of_isText h hpiece (List.all_eq_true.1 hall _ (List.mem_map_of_mem hpiece))

end Resolve

section Values

variable {outputs : Outputs}

theorem eq_of_isLiteral_assemble {parts : List Part}
    (h : (assemble text parts).isLiteral = true) : assemble text parts = .literal (.string text) := by
  unfold assemble at h ⊢
  split at h
  · cases h
  · split at h
    · next hall => simp [hall]
    · cases h

/-- What compiles to a literal compiles to itself. -/
theorem eq_of_isLiteral (v : Json) (h : (scope.compileValue v).1.isLiteral = true) :
    (scope.compileValue v).1 = .literal v := by
  cases v with
  | null | bool | number => rfl
  | string s =>
    rw [compileValue] at h ⊢
    unfold compileText at h ⊢
    split at h
    · rfl
    · exact eq_of_isLiteral_assemble h
  | array items =>
    simp only [compileValue] at h ⊢
    split at h
    · next hall => rw [if_pos hall]
    · cases h
  | object fields =>
    simp only [compileValue] at h ⊢
    split at h
    · next hall => rw [if_pos hall]
    · cases h

theorem resolve_of_isLiteral (v : Json) (h : (scope.compileValue v).1.isLiteral = true) :
    (scope.compileValue v).1.resolve outputs = v := by
  rw [eq_of_isLiteral v h, Binding.resolve]

theorem resolveItems_of_isLiteral (items : List Json)
    (h : ((scope.compileItems items).map (·.1)).all Binding.isLiteral = true) :
    Binding.resolveItems outputs ((scope.compileItems items).map (·.1)) = items := by
  rw [compileItems_eq_map, List.map_map, List.all_map, List.all_eq_true] at h
  rw [compileItems_eq_map, List.map_map, Binding.resolveItems_eq_map, List.map_map]
  exact (List.map_congr_left fun v hv => resolve_of_isLiteral v (h v hv)).trans (List.map_id' _)

theorem resolveFields_of_isLiteral (fields : List (String × Json))
    (h : ((scope.compileFields fields).map fun c => (c.1, c.2.1)).all (·.2.isLiteral) = true) :
    Binding.resolveFields outputs ((scope.compileFields fields).map fun c => (c.1, c.2.1)) =
      fields := by
  rw [compileFields_eq_map, List.map_map, List.all_map, List.all_eq_true] at h
  rw [compileFields_eq_map, List.map_map, Binding.resolveFields_eq_map, List.map_map]
  have hfield : ∀ kv ∈ fields, (kv.1, (scope.compileValue kv.2).1.resolve outputs) = kv :=
    fun kv hkv => congrArg (Prod.mk kv.1) (resolve_of_isLiteral kv.2 (h kv hkv))
  exact (List.map_congr_left hfield).trans (List.map_id' _)

mutual

/-- A value about which nothing is reported compiles to what it means. -/
theorem resolve_compileValue (v : Json) (h : (scope.compileValue v).2 = []) :
    (scope.compileValue v).1.resolve outputs = v.evaluate (scope.graph.supplied outputs) := by
  cases v with
  | null | bool | number => rfl
  | string s => exact resolve_compileText h outputs
  | array items =>
    have hitems := resolve_compileItems items h
    simp only [compileValue]
    split
    · next hall => rw [Binding.resolve, Json.evaluate, ← hitems, resolveItems_of_isLiteral items hall]
    · rw [Binding.resolve, Json.evaluate, hitems]
  | object fields =>
    have hfields := resolve_compileFields fields h
    simp only [compileValue]
    split
    · next hall =>
      rw [Binding.resolve, Json.evaluate, ← hfields, resolveFields_of_isLiteral fields hall]
    · rw [Binding.resolve, Json.evaluate, hfields]

theorem resolve_compileItems (items : List Json)
    (h : (scope.compileItems items).flatMap (·.2) = []) :
    Binding.resolveItems outputs ((scope.compileItems items).map (·.1)) =
      Json.evaluateItems (scope.graph.supplied outputs) items := by
  cases items with
  | nil => rfl
  | cons v rest =>
    rw [compileItems, List.flatMap_cons, List.append_eq_nil_iff] at h
    rw [compileItems, List.map_cons, Binding.resolveItems, Json.evaluateItems,
      resolve_compileValue v h.1, resolve_compileItems rest h.2]

theorem resolve_compileFields (fields : List (String × Json))
    (h : (scope.compileFields fields).flatMap (·.2.2) = []) :
    Binding.resolveFields outputs ((scope.compileFields fields).map fun c => (c.1, c.2.1)) =
      Json.evaluateFields (scope.graph.supplied outputs) fields := by
  cases fields with
  | nil => rfl
  | cons kv rest =>
    rw [compileFields, List.flatMap_cons, List.append_eq_nil_iff] at h
    rw [compileFields, List.map_cons, Binding.resolveFields, Json.evaluateFields,
      resolve_compileValue kv.2 h.1, resolve_compileFields rest h.2]

end

end Values

end Scope

/-- The field chooses the integration of its node: it bears the name for that, and its value is a text
without placeholders. Such a field is no input. -/
def ChoosesIntegration (kv : String × Json) : Prop :=
  kv.1 = integrationKey ∧ ∃ text, kv.2 = .string text ∧ Template.Plain text

theorem integration?_eq_some {key : String} {v : Json} {id : String} :
    integration? key v = some id ↔ key = integrationKey ∧ v = .string id ∧ Template.Plain id := by
  cases v with
  | string text =>
    simp only [integration?, Bool.and_eq_true, decide_eq_true_eq, Bool.not_eq_true',
      Template.hasPlaceholder_eq_false, Option.ite_none_right_eq_some, Option.some.injEq,
      Json.string.injEq]
    constructor
    · rintro ⟨⟨hkey, hplain⟩, rfl⟩
      exact ⟨hkey, rfl, hplain⟩
    · rintro ⟨hkey, rfl, hplain⟩
      exact ⟨⟨hkey, hplain⟩, rfl⟩
  | null | bool | number | array | object => simp [integration?]

theorem isSome_integration? {kv : String × Json} :
    (integration? kv.1 kv.2).isSome = true ↔ ChoosesIntegration kv := by
  simp only [Option.isSome_iff_exists, integration?_eq_some, exists_and_left, ChoosesIntegration]

instance (kv : String × Json) : Decidable (ChoosesIntegration kv) :=
  decidable_of_iff _ isSome_integration?

namespace Graph

variable {graph : Graph} {registry : Registry} {program : Program}

/-- The compiled node does what the node says. -/
structure Renders (graph : Graph) (node : Node) (n : CompiledNode) : Prop where
  id : n.id = node.id
  name : n.name = node.referenceName
  stepType : n.stepType = node.stepType
  chosen : ∀ id, n.integrationId = some id →
    (integrationKey, .string id) ∈ node.config ∧ Template.Plain id
  unchosen : n.integrationId = none → ∀ kv ∈ node.config, ¬ ChoosesIntegration kv
  input : ∀ outputs, n.resolveInput outputs =
    (node.config.filter fun kv => ¬ ChoosesIntegration kv).map fun kv =>
      (kv.1, kv.2.evaluate (graph.supplied outputs))

theorem silent_of_compile (h : graph.compile registry = .ok program)
    (i : Fin graph.nodes.length) :
    ((graph.configs graph.dependencies).get i).violations = [] := by
  rw [compile, validate] at h
  split at h
  · next hv =>
    simp only [violations, List.append_eq_nil_iff, List.flatMap_eq_nil_iff] at hv
    exact (hv.2 i (List.mem_finRange i)).2
  · simp [Except.map] at h

theorem renders_compiledNode (h : graph.compile registry = .ok program)
    (i : Fin graph.nodes.length) (stage : Nat) :
    graph.Renders (graph.node i) (graph.compiledNode i stage) := by
  have hsilent := silent_of_compile h i
  have hconfig := configs_get graph.dependencies i
  rw [hconfig, Scope.compileConfig] at hsilent
  refine ⟨rfl, rfl, rfl, fun id hid => ?_, fun hnone kv hkv hchooses => ?_, fun outputs => ?_⟩
  · have hfound : (graph.node i).config.findSome? (fun kv => integration? kv.1 kv.2) = some id := by
      rw [compiledNode, ValidNode.compile, validNode, hconfig] at hid
      exact hid
    obtain ⟨⟨key, v⟩, hkv, hchooses⟩ := List.exists_of_findSome?_eq_some hfound
    obtain ⟨rfl, rfl, hplain⟩ := integration?_eq_some.1 hchooses
    exact ⟨hkv, hplain⟩
  · have hfound : (graph.node i).config.findSome? (fun kv => integration? kv.1 kv.2) = none := by
      rw [compiledNode, ValidNode.compile, validNode, hconfig] at hnone
      exact hnone
    have hkv := List.findSome?_eq_none_iff.1 hfound kv hkv
    simp [← isSome_integration?, hkv] at hchooses
  · have hinputs : (graph.node i).config.filter (fun kv => (integration? kv.1 kv.2).isNone) =
        (graph.node i).config.filter fun kv => ¬ ChoosesIntegration kv := by
      refine List.filter_congr fun kv _ => ?_
      rw [Bool.eq_iff_iff, decide_eq_true_iff, ← isSome_integration?]
      simp
    rw [CompiledNode.resolveInput, compiledNode, ValidNode.compile, validNode, hconfig,
      Scope.compileConfig]
    rw [Scope.resolve_compileFields _ hsilent, Json.evaluateFields_eq_map, hinputs]
    rfl

theorem renders_of_mem (h : graph.compile registry = .ok program) {n : CompiledNode}
    (hn : n ∈ program.nodes) : ∃ node ∈ graph.nodes, graph.Renders node n := by
  obtain ⟨-, rfl⟩ := compile_eq_ok h
  obtain ⟨layer, -, hn⟩ := List.mem_flatMap.1 hn
  obtain ⟨i, -, rfl⟩ := List.mem_map.1 hn
  exact ⟨graph.node i, List.getElem_mem i.isLt, renders_compiledNode h i layer.2⟩

/-- Every node of a graph without violations compiles to one that does what the node says, with the
inputs that its config means whatever the outputs are. -/
theorem compile_renders (h : graph.compile registry = .ok program) :
    program.nodeIds.Perm graph.ids ∧
      ∀ node ∈ graph.nodes, ∃ n, program.node? node.id = some n ∧ graph.Renders node n := by
  have hp := compile_layered h
  have hnodup : graph.ids.Nodup := hp.nodeIds_perm.nodup_iff.1 hp.nodup
  refine ⟨hp.nodeIds_perm, fun node hnode => ?_⟩
  have hid : node.id ∈ program.nodeIds := hp.nodeIds_perm.mem_iff.2 (List.mem_map_of_mem hnode)
  obtain ⟨n, hn, hid⟩ := List.mem_map.1 hid
  obtain ⟨other, hother, hrenders⟩ := renders_of_mem h hn
  have hsame : other.id = node.id := hrenders.id.symm.trans hid
  obtain rfl := List.inj_on_of_nodup_map hnodup hother hnode hsame
  exact ⟨n, hid ▸ Program.node?_of_mem hp.nodup hn, hrenders⟩

/-- A field, text and a list that take up values of another node. -/
def quoting : Graph where
  nodes := [
    ⟨"fetch", "echo", some "Fetch", [("text", .string "hello")]⟩,
    ⟨"send", "echo", none, [
      ("body", .string "Hi \x7b\x7bFetch.text\x7d\x7d!"),
      ("integrationId", .string "mail"),
      ("tags", .array [.string "x", .string "\x7b\x7b Fetch.text \x7d\x7d"])]⟩]
  edges := [⟨"fetch", "send"⟩]

theorem quoting_renders : ∃ program,
    quoting.compile ⟨[Step.echoDescriptor]⟩ = .ok program ∧ program.nodeIds.Perm quoting.ids ∧
    ∀ node ∈ quoting.nodes, ∃ n, program.node? node.id = some n ∧ quoting.Renders node n := by
  have hok : (quoting.compile ⟨[Step.echoDescriptor]⟩).isOk = true := by cbv
  obtain ⟨program, hc⟩ := compiles_of_isOk hok
  exact ⟨program, hc, compile_renders hc⟩

/-- A placeholder alone keeps the type of its value, and within text it is written out. -/
example :
    let found := quoting.supplied [("fetch", .object [("text", .bool true)])]
    Json.evaluate found (.string "\x7b\x7b Fetch.text \x7d\x7d") = .bool true ∧
      Json.evaluate found (.string "Hi \x7b\x7bFetch.text\x7d\x7d!") = .string "Hi true!" := by
  cbv

end Graph

end Flowgraph
