import Flowgraph.Code.Layout
import Flowgraph.Proofs.Code.Spelling

/-! The scopes of generated code. A function has a parameter for each node that its inputs refer to, and
picks from nothing else. A call passes variables that calls of earlier stages have bound. -/

namespace Flowgraph.Code

def Piece.pick? : Piece → Option Pick
  | text _ => none
  | picked p => some p

mutual

/-- The picks within an expression, in the order in which they stand. -/
def Expr.picks : Expr → List Pick
  | .text _ | .scalar _ | .parsed _ => []
  | .pick p => [p]
  | .concat pieces => pieces.filterMap Piece.pick?
  | .object fields => fieldPicks fields
  | .array items => itemPicks items

def Expr.itemPicks : List Expr → List Pick
  | [] => []
  | e :: rest => e.picks ++ itemPicks rest

def Expr.fieldPicks : List (String × Expr) → List Pick
  | [] => []
  | (_, e) :: rest => e.picks ++ fieldPicks rest

end

section Picks

variable (names : Names)

theorem pick?_ofPart (part : Part) :
    (Piece.ofPart names part).pick? = part.reference?.map (Pick.ofRef names) := by
  cases part <;> rfl

theorem picks_ofLiteral (v : Json) : (Expr.ofLiteral v).picks = [] := by cases v <;> rfl

mutual

/-- An expression picks what the binding refers to. -/
theorem picks_ofBinding (b : Binding) :
    (Expr.ofBinding names b).picks = b.references.map (Pick.ofRef names) := by
  cases b with
  | literal v =>
    rw [Expr.ofBinding, picks_ofLiteral]
    rfl
  | output r => rfl
  | interpolate parts =>
    rw [Expr.ofBinding, Expr.picks, Binding.references, List.filterMap_map, List.map_filterMap]
    exact List.filterMap_congr fun part _ => pick?_ofPart names part
  | object fields => exact picks_ofBindingFields fields
  | array items => exact picks_ofBindings items

theorem picks_ofBindings (items : List Binding) :
    Expr.itemPicks (Expr.ofBindings names items) =
      (Binding.itemReferences items).map (Pick.ofRef names) := by
  cases items with
  | nil => rfl
  | cons b rest =>
    rw [Expr.ofBindings, Expr.itemPicks, Binding.itemReferences, List.map_append, picks_ofBinding b,
      picks_ofBindings rest]

theorem picks_ofBindingFields (fields : List (String × Binding)) :
    Expr.fieldPicks (Expr.ofBindingFields names fields) =
      (Binding.fieldReferences fields).map (Pick.ofRef names) := by
  cases fields with
  | nil => rfl
  | cons field rest =>
    rw [Expr.ofBindingFields, Expr.fieldPicks, Binding.fieldReferences, List.map_append,
      picks_ofBinding field.2, picks_ofBindingFields rest]

end

end Picks

/-- How generated code gives out, binds and uses the names of nodes. -/
structure Listing.Scoped (u : Listing) (program : Program) : Prop where
  function_ids : u.functions.map (·.nodeId) = program.nodeIds
  call_ids : u.calls.map (·.nodeId) = program.nodeIds
  names_nodup : (u.functions.map (·.name)).Nodup
  isName : ∀ f ∈ u.functions, IsName f.name
  not_word : ∀ f ∈ u.functions, f.name ∉ languageWords ++ keywords
  not_reserved : ∀ f ∈ u.functions, f.name ∉ reserved
  params_nodup : ∀ f ∈ u.functions, f.params.Nodup
  /-- The parameters are the names of the nodes that the inputs refer to. -/
  mem_params : ∀ n ∈ program.nodes, ∀ f ∈ u.functions, f.nodeId = n.id → ∀ name, name ∈ f.params ↔
    ∃ r ∈ n.references, ∃ g ∈ u.functions, g.nodeId = r.node ∧ g.name = name
  picks : ∀ f ∈ u.functions, ∀ p ∈ Expr.fieldPicks f.inputs, p.name ∈ f.params
  /-- A call passes variables that are named like the parameters, in their order. -/
  passes : ∀ c ∈ u.calls, ∃ f ∈ u.functions,
    f.nodeId = c.nodeId ∧ f.name = c.name ∧ c.arguments = f.params
  bound : ∀ {before block after}, u.stages = before ++ block :: after →
    ∀ c ∈ block.calls, ∀ argument ∈ c.arguments,
      ∃ earlier ∈ before, earlier.index < block.index ∧ ∃ d ∈ earlier.calls, d.name = argument

namespace Listing

variable {graph : Graph} {registry : Registry} {program : Program} {n : CompiledNode}

/-- A node has a name if it is referred to. -/
theorem mem_nodeIds_of_reference (hp : program.Layered graph) (hn : n ∈ program.nodes) {r : OutputRef}
    (hr : r ∈ n.references) : r.node ∈ program.nodeIds := by
  obtain ⟨m, hm, hid, -⟩ := hp.exists_of_upstream hn (hp.upstream n hn r hr)
  exact hid ▸ List.mem_map_of_mem hm

theorem references_eq (n : CompiledNode) : n.references = Binding.fieldReferences n.inputs :=
  (Binding.fieldReferences_eq_flatMap _).symm

theorem mem_producers_iff (hp : program.Layered graph) (hn : n ∈ program.nodes) {id : String} :
    id ∈ producers program n ↔ ∃ r ∈ n.references, r.node = id := by
  rw [producers, List.mem_filter, decide_eq_true_eq, List.mem_map, ← references_eq]
  refine and_iff_right_of_imp ?_
  rintro ⟨r, hr, rfl⟩
  exact mem_nodeIds_of_reference hp hn hr

theorem mem_params_ofNode (hp : program.Layered graph) (hn : n ∈ program.nodes) {name : String} :
    name ∈ (StepFunction.ofNode program (.ofProgram program) n).params ↔
      ∃ r ∈ n.references, (Names.ofProgram program).of r.node = name := by
  refine List.mem_map.trans ?_
  simp only [mem_producers_iff hp hn]
  constructor
  · rintro ⟨_, ⟨r, hr, rfl⟩, hname⟩
    exact ⟨r, hr, hname⟩
  · rintro ⟨r, hr, hname⟩
    exact ⟨r.node, ⟨r, hr, rfl⟩, hname⟩

/-- What an expression picks from is the variable of a node that is referred to. -/
theorem name_of_mem_picks (hp : program.Layered graph) (hn : n ∈ program.nodes) {p : Pick}
    (hpick : p ∈ Expr.fieldPicks (StepFunction.ofNode program (.ofProgram program) n).inputs) :
    ∃ r ∈ n.references, (Names.ofProgram program).of r.node = p.name := by
  have hpick : p ∈ (Binding.fieldReferences n.inputs).map (Pick.ofRef (.ofProgram program)) :=
    picks_ofBindingFields _ n.inputs ▸ hpick
  obtain ⟨r, hr, rfl⟩ := List.mem_map.1 hpick
  rw [← references_eq] at hr
  refine ⟨r, hr, ?_⟩
  rw [Pick.ofRef, Names.lookup_eq_of (mem_nodeIds_of_reference hp hn hr), Option.getD_some]

/-- What a call passes was bound in a stage before. -/
theorem bound_earlier (hp : program.Layered graph) {before after : List Stage} {stage : Stage}
    (hsplit : program.stages = before ++ stage :: after) (hn : n ∈ program.stageNodes stage)
    {id : String} (hid : id ∈ producers program n) :
    ∃ earlier ∈ before, earlier.index < stage.index ∧ ∃ m ∈ program.stageNodes earlier, m.id = id := by
  obtain ⟨p, q, hstage⟩ := List.append_of_mem hn
  have hnodes : program.nodes =
      (before.flatMap program.stageNodes ++ p) ++ n :: (q ++ after.flatMap program.stageNodes) := by
    rw [← hp.flatMap_stageNodes, hsplit]
    simp [hstage]
  have hmem : n ∈ program.nodes := by simp [hnodes]
  have hindex : ∀ m ∈ program.stageNodes stage, m.stage = stage.index :=
    hp.stage_eq stage (by simp [hsplit])
  obtain ⟨m, hm, rfl, hlt⟩ :=
    hp.before_of_upstream hnodes (upstream_of_mem_producers hp hmem hid)
  rw [hindex n hn] at hlt
  rcases List.mem_append.1 hm with hm | hm
  · obtain ⟨earlier, hearlier, hm⟩ := List.mem_flatMap.1 hm
    rw [hp.stage_eq earlier (by simp [hsplit, hearlier]) m hm] at hlt
    exact ⟨earlier, hearlier, hlt, m, hm, rfl⟩
  · exact absurd (hindex m (by simp [hstage, hm])) (Nat.ne_of_lt hlt)

theorem mem_functions {title : String} {f : StepFunction}
    (hf : f ∈ (ofProgram program title).functions) :
    ∃ n ∈ program.nodes, f = .ofNode program (.ofProgram program) n := by
  obtain ⟨n, hn, rfl⟩ := List.mem_map.1 hf
  exact ⟨n, hn, rfl⟩

/-- The name of a node that is referred to is the name of its function. -/
theorem of_eq_iff (hp : program.Layered graph) (hn : n ∈ program.nodes) {r : OutputRef}
    (hr : r ∈ n.references) (title : String) {name : String} :
    (Names.ofProgram program).of r.node = name ↔
      ∃ g ∈ (ofProgram program title).functions, g.nodeId = r.node ∧ g.name = name := by
  constructor
  · rintro rfl
    obtain ⟨k, hk, hnode⟩ := List.mem_map.1 (mem_nodeIds_of_reference hp hn hr)
    exact ⟨_, List.mem_map_of_mem hk, hnode, by rw [← hnode]; rfl⟩
  · rintro ⟨g, hg, hnode, rfl⟩
    obtain ⟨k, -, rfl⟩ := mem_functions hg
    rw [← hnode]
    rfl

/-- Generated code is the text of a listing that is well scoped. -/
theorem scoped_ofProgram (h : graph.compile registry = .ok program) (title : String) :
    program.generate title = (ofProgram program title).text ∧
      (ofProgram program title).Scoped program := by
  have hp := Graph.compile_layered h
  have hid : ∀ {n}, n ∈ program.nodes → n.id ∈ program.nodeIds := fun hn => List.mem_map_of_mem hn
  have hproducers : ∀ n, ∀ id ∈ producers program n, id ∈ program.nodeIds :=
    fun n id => List.mem_of_mem_filter
  have hcalls := calls_ofProgram hp title
  refine ⟨rfl, {
    function_ids := List.map_map
    call_ids := by rw [hcalls]; exact List.map_map
    names_nodup := ?names_nodup
    isName := ?isName
    not_word := ?not_word
    not_reserved := ?not_reserved
    params_nodup := ?params_nodup
    mem_params := ?mem_params
    picks := ?picks
    passes := ?passes
    bound := ?bound }⟩
  case names_nodup =>
    rw [map_name_functions]
    exact Names.nodup_map_of hp.nodup fun _ => id
  case isName =>
    intro f hf
    obtain ⟨n, hn, rfl⟩ := mem_functions hf
    exact Names.isName_of (hid hn)
  case not_word =>
    intro f hf
    obtain ⟨n, hn, rfl⟩ := mem_functions hf
    exact Names.of_not_word (hid hn)
  case not_reserved =>
    intro f hf
    obtain ⟨n, hn, rfl⟩ := mem_functions hf
    exact Names.of_not_reserved (hid hn)
  case params_nodup =>
    intro f hf
    obtain ⟨n, hn, rfl⟩ := mem_functions hf
    exact Names.nodup_map_of (hp.nodup.filter _) (hproducers n)
  case mem_params =>
    intro n hn f hf hsame name
    obtain ⟨m, hm, rfl⟩ := mem_functions hf
    obtain rfl := Program.eq_of_id hp.nodup hm hn hsame
    rw [mem_params_ofNode hp hm]
    exact exists_congr fun r => and_congr_right fun hr => of_eq_iff hp hm hr title
  case picks =>
    intro f hf p hpick
    obtain ⟨n, hn, rfl⟩ := mem_functions hf
    exact (mem_params_ofNode hp hn).2 (name_of_mem_picks hp hn hpick)
  case passes =>
    intro c hc
    rw [hcalls] at hc
    obtain ⟨n, hn, rfl⟩ := List.mem_map.1 hc
    exact ⟨_, List.mem_map_of_mem hn, rfl, rfl, rfl⟩
  case bound =>
    intro before block after hsplit c hc argument hargument
    obtain ⟨before, rest, hstages, rfl, hrest⟩ := List.map_eq_append_iff.1 hsplit
    obtain ⟨stage, after, rfl, rfl, rfl⟩ := List.map_eq_cons_iff.1 hrest
    obtain ⟨n, hn, rfl⟩ := List.mem_map.1 hc
    obtain ⟨id, hread, rfl⟩ := List.mem_map.1 hargument
    obtain ⟨earlier, hearlier, hlt, m, hm, rfl⟩ := bound_earlier hp hstages hn hread
    exact ⟨_, List.mem_map_of_mem hearlier, hlt, _, List.mem_map_of_mem hm, rfl⟩

end Listing

end Flowgraph.Code

namespace Flowgraph

/-- Two nodes whose ids come to the same word of the language. The second reads the first. -/
def Graph.clashing : Graph where
  nodes := [
    ⟨"fn", "echo", some "A", [("value", .bool true)]⟩,
    ⟨"FN", "echo", some "B", [("value", .string "\x7b\x7bA.value\x7d\x7d")]⟩]
  edges := [⟨"fn", "FN"⟩]

theorem Code.Listing.clashing_scoped : ∃ program,
    Graph.clashing.compile ⟨[Step.echoDescriptor]⟩ = .ok program ∧
      program.generate "t" = (ofProgram program "t").text ∧ (ofProgram program "t").Scoped program ∧
      (ofProgram program "t").functions.map (fun f => (f.name, f.params)) =
        [("fn_", []), ("fn__2", ["fn_"])] := by
  have hnames : (Graph.clashing.compile ⟨[Step.echoDescriptor]⟩).toOption.map
      (fun program => (ofProgram program "t").functions.map fun f => (f.name, f.params)) =
        some [("fn_", []), ("fn__2", ["fn_"])] := by cbv
  obtain ⟨program, hc, hnames⟩ := Graph.compiles_of_map hnames
  obtain ⟨htext, hscoped⟩ := scoped_ofProgram hc "t"
  exact ⟨program, hc, htext, hscoped, hnames⟩

end Flowgraph
