import Flowgraph.Code.Layout
import Flowgraph.Proofs.Code.Literals
import Flowgraph.Proofs.Code.Scopes
import Flowgraph.Proofs.Text.Breaks

/-! How many lines generated code has. Texts of a workflow are quoted or made one line, so they end no
line. Only the type of a step stands in a comment as it is. -/

namespace Flowgraph.Code

open Text

theorem NamePart.isBreak {c : Char} (h : NamePart c) : isBreak c = false := by
  refine Bool.eq_false_iff.2 fun hbreak => ?_
  rcases Bool.or_eq_true_iff.1 hbreak with hc | hc
  · exact absurd (of_decide_eq_true hc ▸ h) (by decide)
  · exact absurd (of_decide_eq_true hc ▸ h) (by decide)

theorem IsName.breaks {name : String} (h : IsName name) : breaks name = 0 :=
  breaks_eq_zero_iff.2 fun c hc => (h.namePart c hc).isBreak

theorem breaks_assignNames {taken ids : List String} {p : String × String}
    (hp : p ∈ assignNames taken ids) : breaks p.2 = 0 := by
  obtain ⟨taken', h⟩ := mem_assignNames hp
  rw [h]
  exact (isName_freeName taken' p.1).breaks

namespace Names

variable (program : Program) (id : String)

/-- What a node is called, or what is written if it is not called anything. -/
theorem breaks_lookup : breaks (((ofProgram program).lookup id).getD noValue) = 0 := by
  cases h : (ofProgram program).lookup id with
  | none => decide
  | some name => exact breaks_assignNames (mem_of_lookup h)

@[simp] theorem breaks_of : breaks ((ofProgram program).of id) = 0 := by
  rw [of]
  cases h : (ofProgram program).lookup id with
  | none => rfl
  | some name => exact breaks_assignNames (mem_of_lookup h)

end Names

@[simp] theorem breaks_stringOf (s : String) : breaks (stringOf s) = 0 := by
  unfold stringOf
  simp +decide

@[simp] theorem breaks_indent (line : String) : breaks (indent line) = breaks line := by
  simp +decide [indent]

section Expressions

variable {program : Program}

theorem breaks_ofRef (r : OutputRef) : breaks (Pick.ofRef (.ofProgram program) r).text = 0 := by
  have hpath : breaks (", ".intercalate (r.path.segments.map quote)) = 0 :=
    breaks_intercalate (by decide) (by simp)
  simp +decide [Pick.text, Pick.ofRef, Names.breaks_lookup, hpath]

theorem breaks_ofPart (part : Part) : breaks (Piece.ofPart (.ofProgram program) part).source = 0 := by
  cases part with
  | text s => exact breaks_stringOf s
  | output r => simp +decide [Piece.ofPart, Piece.source, breaks_ofRef]

theorem source_concat (pieces : List Piece) : (Expr.concat pieces).source =
    "Value::String([" ++ ", ".intercalate (pieces.map Piece.source) ++ "].concat())" := rfl

theorem source_object (fields : List (String × Expr)) : (Expr.object fields).source =
    "\x7b let mut m = Map::new(); " ++ String.join (Expr.fieldSources fields) ++
      "Value::Object(m) \x7d" := rfl

theorem source_array (items : List Expr) : (Expr.array items).source =
    "Value::Array(vec![" ++ ", ".intercalate (Expr.itemSources items) ++ "])" := rfl

theorem fieldSources_cons (key : String) (e : Expr) (rest : List (String × Expr)) :
    Expr.fieldSources ((key, e) :: rest) =
      ("m.insert(" ++ stringOf key ++ ", " ++ e.source ++ "); ") :: Expr.fieldSources rest := rfl

theorem breaks_scalar {v : Json} (h : breaks v.text = 0) : breaks (Expr.scalar v).source = 0 := by
  simp +decide [source_scalar, h]

theorem breaks_ofLiteral (v : Json) : breaks (Expr.ofLiteral v).source = 0 := by
  cases v with
  | null => exact breaks_scalar (by decide)
  | bool b => exact breaks_scalar (by cases b <;> decide)
  | number n => exact breaks_scalar n.breaks_text
  | string s => simp +decide [Expr.ofLiteral, source_text]
  | array items | object fields => simp +decide [Expr.ofLiteral, source_parsed]

mutual

/-- The source of a binding stands on one line. -/
theorem breaks_ofBinding (b : Binding) : breaks (Expr.ofBinding (.ofProgram program) b).source = 0 := by
  cases b with
  | literal v => exact breaks_ofLiteral v
  | output r => exact breaks_ofRef r
  | interpolate parts =>
    have hparts : breaks (", ".intercalate
        ((parts.map (Piece.ofPart (.ofProgram program))).map Piece.source)) = 0 :=
      breaks_intercalate (by decide) (by simpa using fun part _ => breaks_ofPart part)
    rw [Expr.ofBinding, source_concat, breaks_append, breaks_append, hparts]
    decide
  | object fields =>
    have hfields := breaks_join_eq_zero (breaks_ofBindingFields fields)
    rw [Expr.ofBinding, source_object, breaks_append, breaks_append, hfields]
    decide
  | array items =>
    have hseparator : breaks ", " = 0 := by decide
    have hitems := breaks_intercalate hseparator (breaks_ofBindings items)
    rw [Expr.ofBinding, source_array, breaks_append, breaks_append, hitems]
    decide

theorem breaks_ofBindings (items : List Binding) :
    ∀ s ∈ Expr.itemSources (Expr.ofBindings (.ofProgram program) items), breaks s = 0 := by
  cases items with
  | nil => simp [Expr.ofBindings, Expr.itemSources]
  | cons b rest => exact List.forall_mem_cons.2 ⟨breaks_ofBinding b, breaks_ofBindings rest⟩

theorem breaks_ofBindingFields (fields : List (String × Binding)) :
    ∀ s ∈ Expr.fieldSources (Expr.ofBindingFields (.ofProgram program) fields), breaks s = 0 := by
  cases fields with
  | nil => simp [Expr.ofBindingFields, Expr.fieldSources]
  | cons field rest =>
    rw [Expr.ofBindingFields, fieldSources_cons]
    refine List.forall_mem_cons.2 ⟨?_, breaks_ofBindingFields rest⟩
    simp +decide [breaks_ofBinding field.2]

end

theorem breaks_inputLine {fields : List (String × Binding)} :
    ∀ input ∈ Expr.ofBindingFields (.ofProgram program) fields,
      breaks (StepFunction.inputLine input) = 0 := by
  induction fields with
  | nil => simp [Expr.ofBindingFields]
  | cons field rest ih =>
    rw [Expr.ofBindingFields]
    refine List.forall_mem_cons.2 ⟨?_, ih⟩
    unfold StepFunction.inputLine
    simp +decide [breaks_ofBinding field.2]

theorem length_ofBindingFields (names : Names) (fields : List (String × Binding)) :
    (Expr.ofBindingFields names fields).length = fields.length := by
  induction fields with
  | nil => rfl
  | cons field rest ih => simp [Expr.ofBindingFields, ih]

end Expressions

section Functions

variable {f : StepFunction} {c : StepCall}

theorem breaks_signature (hname : breaks f.name = 0) (hparams : ∀ p ∈ f.params, breaks p = 0) :
    breaks f.signature = 0 := by
  have hlist : breaks (String.join (f.params.map fun p => ", " ++ p ++ ": &Value")) = 0 := by
    refine breaks_join_eq_zero (List.forall_mem_map.2 fun p hp => ?_)
    simp +decide [hparams p hp]
  unfold StepFunction.signature
  simp +decide [hname, hlist]

theorem breaks_integrationLine : breaks f.integrationLine = 0 := by
  rw [StepFunction.integrationLine]
  split
  · simp +decide
  · decide

/-- Of the lines of a function only the comment has what breaks it: the type of the step. -/
theorem breaks_functionLines (hname : breaks f.name = 0) (hparams : ∀ p ∈ f.params, breaks p = 0)
    (hinputs : ∀ input ∈ f.inputs, breaks (StepFunction.inputLine input) = 0) :
    (f.lines.map breaks).sum = breaks f.stepType := by
  have hbefore : breaks ("/// Node " ++ quote f.nodeId ++ " (") = 0 := by simp +decide
  have hbehind : breaks "), stage " = 0 := by decide
  have hpoint : breaks "." = 0 := by decide
  have hcomment : breaks ("/// Node " ++ quote f.nodeId ++ " (" ++ f.stepType ++ "), stage " ++
      toString f.stage ++ ".") = breaks f.stepType := by
    rw [breaks_append, breaks_append, breaks_append, breaks_append, hbefore, hbehind, hpoint, breaks_nat,
      Nat.zero_add]
    rfl
  have hinputLines : (((f.inputs.map StepFunction.inputLine).map indent).map breaks).sum = 0 := by
    refine sum_breaks_eq_zero (List.forall_mem_map.2 (List.forall_mem_map.2 fun input hinput => ?_))
    rw [breaks_indent, hinputs input hinput]
  have hnode : breaks ("ctx.node_id = " ++ stringOf f.nodeId ++ ";") = 0 := by simp +decide
  have hinvoke : breaks ("invoke(registry, &ctx, " ++ quote f.stepType ++ ", input).await") = 0 := by
    simp +decide
  have hclone : breaks "let mut ctx = ctx.clone();" = 0 := by decide
  have hmap : breaks "let mut input = Map::new();" = 0 := by decide
  have hend : breaks "\x7d" = 0 := by decide
  unfold StepFunction.lines
  simp only [List.map_append, List.map_cons, List.map_nil, List.sum_append, List.sum_cons, List.sum_nil,
    breaks_indent, hcomment, breaks_signature hname hparams, breaks_integrationLine, hnode, hinvoke,
    hinputLines, hclone, hmap, hend, Nat.add_zero]

theorem length_functionLines : f.lines.length = 8 + f.inputs.length := by
  simp [StepFunction.lines]
  omega

theorem breaks_callLines (hname : breaks c.name = 0) (harguments : ∀ p ∈ c.arguments, breaks p = 0) :
    ∀ line ∈ c.lines, breaks line = 0 := by
  have hlist : breaks (String.join (c.arguments.map (", &" ++ ·))) = 0 := by
    refine breaks_join_eq_zero (List.forall_mem_map.2 fun p hp => ?_)
    simp +decide [harguments p hp]
  rw [StepCall.lines]
  refine List.forall_mem_cons.2 ⟨?_, List.forall_mem_cons.2 ⟨?_, by simp⟩⟩
  · simp +decide [hname, hlist]
  · simp +decide [hname]

theorem length_callLines : c.lines.length = 2 := rfl

end Functions

namespace Listing

/-- Each line ends with one break, and there are those within the lines. -/
theorem breaks_text (u : Listing) : breaks u.text = u.lines.length + (u.lines.map breaks).sum := by
  have hline : ∀ line : String, breaks (line ++ "\n") = 1 + breaks line := fun line => by
    have hend : breaks "\n" = 1 := by decide
    rw [breaks_append, hend, Nat.add_comm]
  rw [text, breaks_join, List.map_map]
  simp only [Function.comp_def, hline, List.sum_map_add]
  simp

theorem breaks_oneLine (title : String) : breaks (oneLine title) = 0 := by
  rw [breaks_eq_zero_iff, oneLine, String.toList_map]
  refine List.forall_mem_map.2 fun c _ => ?_
  split
  · rfl
  · next hc =>
    rw [not_or] at hc
    simp [isBreak, hc]

theorem breaks_headerLines (u : Listing) : ∀ line ∈ u.headerLines, breaks line = 0 := by
  refine List.forall_mem_cons.2 ⟨?_, List.forall_mem_cons.2 ⟨?_, by simp⟩⟩
  · simp +decide [breaks_oneLine]
  · simp +decide

theorem breaks_preludeLines : ∀ line ∈ preludeLines, breaks line = 0 := by
  simp only [preludeLines, List.forall_mem_cons]
  and_intros
  all_goals first | exact breaks_literal rfl | simp

/-- What a listing writes without quotes has no line breaks, but for the types of steps. -/
structure Unbroken (u : Listing) : Prop where
  names : ∀ f ∈ u.functions, breaks f.name = 0
  params : ∀ f ∈ u.functions, ∀ p ∈ f.params, breaks p = 0
  inputs : ∀ f ∈ u.functions, ∀ input ∈ f.inputs, breaks (StepFunction.inputLine input) = 0
  calls : ∀ c ∈ u.calls, breaks c.name = 0
  arguments : ∀ c ∈ u.calls, ∀ p ∈ c.arguments, breaks p = 0

variable {u : Listing}

theorem Unbroken.stageLines (h : u.Unbroken) : ∀ line ∈ u.stages.flatMap StageBlock.lines, breaks line = 0 := by
  intro line hline
  obtain ⟨block, hblock, hline⟩ := List.mem_flatMap.1 hline
  rcases List.mem_cons.1 hline with rfl | hline
  · simp +decide
  · obtain ⟨c, hc, hline⟩ := List.mem_flatMap.1 hline
    have hcall : c ∈ u.calls := List.mem_flatMap.2 ⟨block, hblock, hc⟩
    exact breaks_callLines (h.calls c hcall) (h.arguments c hcall) line hline

theorem Unbroken.runLines (h : u.Unbroken) : ∀ line ∈ u.runLines, breaks line = 0 := by
  have hbody : ∀ line ∈ (["let mut outputs = Map::new();"] ++ u.stages.flatMap StageBlock.lines ++
      ["Ok(outputs)"]).map indent, breaks line = 0 := by
    refine List.forall_mem_map.2 fun line hline => ?_
    rw [breaks_indent]
    simp only [List.mem_append, List.mem_singleton] at hline
    rcases hline with (rfl | hline) | rfl
    · decide
    · exact h.stageLines line hline
    · decide
  have hhead : ∀ line ∈ ["/// Run every node in stage order; stops at the first failing node.",
      "pub async fn run_workflow(registry: &StepRegistry, ctx: &RuntimeContext)" ++
        " -> Result<Map<String, Value>, String> \x7b"], breaks line = 0 := by
    simp only [List.forall_mem_cons, breaks_append]
    exact ⟨breaks_literal rfl, Nat.add_eq_zero_iff.2 ⟨breaks_literal rfl, breaks_literal rfl⟩, by simp⟩
  unfold Listing.runLines
  intro line hline
  rcases List.mem_append.1 hline with hline | hline
  · exact (List.mem_append.1 hline).elim (hhead line) (hbody line)
  · obtain rfl := List.mem_singleton.1 hline
    decide

theorem length_stageLines (u : Listing) :
    (u.stages.flatMap StageBlock.lines).length = u.stages.length + 2 * u.calls.length := by
  rw [calls]
  induction u.stages with
  | nil => rfl
  | cons block rest ih =>
    have hblock : block.lines.length = 1 + 2 * block.calls.length := by
      simp [StageBlock.lines, length_callLines, Nat.mul_comm, Nat.add_comm]
    simp only [List.flatMap_cons, List.length_append, List.length_cons, ih, hblock]
    omega

theorem length_runLines (u : Listing) :
    u.runLines.length = 5 + u.stages.length + 2 * u.calls.length := by
  unfold Listing.runLines
  simp only [List.length_append, List.length_map, List.length_cons, List.length_nil, length_stageLines]
  omega

/-- The functions with a blank line before each. -/
theorem length_functionsLines (u : Listing) : (u.functions.flatMap fun f => "" :: f.lines).length =
    (u.functions.map fun f => 9 + f.inputs.length).sum := by
  rw [List.length_flatMap]
  refine congrArg List.sum (List.map_congr_left fun f _ => ?_)
  rw [List.length_cons, length_functionLines]
  omega

theorem Unbroken.functionsLines (h : u.Unbroken) :
    ((u.functions.flatMap fun f => "" :: f.lines).map breaks).sum =
      (u.functions.map fun f => breaks f.stepType).sum := by
  have hblank : breaks "" = 0 := rfl
  rw [List.map_flatMap, List.flatMap_def, List.sum_flatten, List.map_map]
  refine congrArg List.sum (List.map_congr_left fun f hf => ?_)
  rw [Function.comp_apply, List.map_cons, List.sum_cons, hblank, Nat.zero_add,
    breaks_functionLines (h.names f hf) (h.params f hf) (h.inputs f hf)]

/-- Within the lines only the types of steps bring breaks. -/
theorem Unbroken.sum_breaks (h : u.Unbroken) :
    (u.lines.map breaks).sum = (u.functions.map fun f => breaks f.stepType).sum := by
  have hblank : breaks "" = 0 := rfl
  unfold lines
  simp only [List.map_append, List.map_cons, List.map_nil, List.sum_append, List.sum_cons, List.sum_nil,
    h.functionsLines, sum_breaks_eq_zero (breaks_headerLines u), sum_breaks_eq_zero breaks_preludeLines,
    sum_breaks_eq_zero h.runLines, hblank, Nat.zero_add, Nat.add_zero]

theorem Unbroken.text (h : u.Unbroken) : breaks u.text =
    preludeLines.length + 9 + u.stages.length + 2 * u.calls.length +
      (u.functions.map fun f => 9 + f.inputs.length).sum +
      (u.functions.map fun f => breaks f.stepType).sum := by
  have hlength : u.lines.length = preludeLines.length + 9 + u.stages.length + 2 * u.calls.length +
      (u.functions.map fun f => 9 + f.inputs.length).sum := by
    have hheader : u.headerLines.length = 2 := rfl
    unfold lines
    simp only [List.length_append, List.length_cons, List.length_nil, length_functionsLines,
      length_runLines, hheader]
    omega
  rw [breaks_text, hlength, h.sum_breaks]

/-- Names and expressions of generated code have no line breaks. -/
theorem unbroken_ofProgram (program : Program) (title : String) : (ofProgram program title).Unbroken := by
  have hlisted : ∀ ids : List String, ∀ p ∈ ids.map (Names.ofProgram program).of, breaks p = 0 :=
    fun ids => List.forall_mem_map.2 fun id _ => Names.breaks_of program id
  have hcalls : ∀ c ∈ (ofProgram program title).calls,
      ∃ n, c = StepCall.ofNode program (.ofProgram program) n := by
    intro c hc
    obtain ⟨block, hblock, hc⟩ := List.mem_flatMap.1 hc
    obtain ⟨stage, -, rfl⟩ := List.mem_map.1 hblock
    obtain ⟨n, -, rfl⟩ := List.mem_map.1 hc
    exact ⟨n, rfl⟩
  refine ⟨fun f hf => ?_, fun f hf => ?_, fun f hf => ?_, fun c hc => ?_, fun c hc => ?_⟩
  · obtain ⟨n, -, rfl⟩ := mem_functions hf
    exact Names.breaks_of program n.id
  · obtain ⟨n, -, rfl⟩ := mem_functions hf
    exact hlisted _
  · obtain ⟨n, -, rfl⟩ := mem_functions hf
    exact breaks_inputLine
  · obtain ⟨n, rfl⟩ := hcalls c hc
    exact Names.breaks_of program n.id
  · obtain ⟨n, rfl⟩ := hcalls c hc
    exact hlisted _

end Listing

end Flowgraph.Code

namespace Flowgraph

open Code Text

variable {graph : Graph} {registry : Registry} {program : Program}

theorem Program.Layered.text_breaks (hp : program.Layered graph) (title : String) :
    breaks (program.generate title) = preludeLines.length + 9 + program.stages.length +
      (program.nodes.map fun n => 11 + n.inputs.length).sum +
      (program.nodes.map fun n => breaks n.stepType).sum := by
  have hstages : (Listing.ofProgram program title).stages.length = program.stages.length :=
    List.length_map ..
  have hcalls : (Listing.ofProgram program title).calls.length = program.nodes.length := by
    rw [Listing.calls_ofProgram hp, List.length_map]
  have hinputs : ((Listing.ofProgram program title).functions.map fun f => 9 + f.inputs.length).sum +
      2 * program.nodes.length = (program.nodes.map fun n => 11 + n.inputs.length).sum := by
    rw [Listing.ofProgram, List.map_map]
    induction program.nodes with
    | nil => rfl
    | cons n rest ih =>
      simp only [List.map_cons, List.sum_cons, List.length_cons, ← ih, Function.comp_apply,
        StepFunction.ofNode, length_ofBindingFields]
      omega
  have htypes : ((Listing.ofProgram program title).functions.map fun f => breaks f.stepType).sum =
      (program.nodes.map fun n => breaks n.stepType).sum := congrArg List.sum List.map_map
  have htext : breaks (program.generate title) = _ := (Listing.unbroken_ofProgram program title).text
  rw [htext, hstages, hcalls, htypes]
  omega

/-- The number of line breaks in generated code comes from the numbers of stages, of nodes and of their
inputs, and from the types of steps. Nothing else that a workflow says adds one. -/
theorem Program.breaks_generate (h : graph.compile registry = .ok program) (title : String) :
    breaks (program.generate title) = preludeLines.length + 9 + program.stages.length +
      (program.nodes.map fun n => 11 + n.inputs.length).sum +
      (program.nodes.map fun n => breaks n.stepType).sum :=
  (Graph.compile_layered h).text_breaks title

/-- Knows one step, by the type that is given. -/
def Registry.naming (stepType : String) : Registry :=
  ⟨[⟨stepType, [], fun _ _ => .done (.returned (.success .null))⟩]⟩

/-- One node of the type that is given. -/
def Graph.lone (stepType : String) : Graph := ⟨[.new "a" stepType], []⟩

theorem exists_lone {stepType : String} (h : ((Graph.lone stepType).compile (.naming stepType)).toOption.map
      (fun program => (program.stages.length,
        program.nodes.map fun n => (n.inputs.length, n.stepType))) = some (1, [(0, stepType)])) :
    ∃ program, (Graph.lone stepType).compile (.naming stepType) = .ok program ∧
      program.stages.length = 1 ∧ program.nodes.map (fun n => (n.inputs.length, n.stepType)) =
        [(0, stepType)] := by
  obtain ⟨program, hc, hsizes⟩ := Graph.compiles_of_map h
  exact ⟨program, hc, Prod.mk.inj hsizes⟩

theorem exists_plain : ∃ program, (Graph.lone "x").compile (.naming "x") = .ok program ∧
    program.stages.length = 1 ∧ program.nodes.map (fun n => (n.inputs.length, n.stepType)) =
      [(0, "x")] := exists_lone (by decide +kernel)

theorem exists_broken : ∃ program, (Graph.lone "x\ny").compile (.naming "x\ny") = .ok program ∧
    program.stages.length = 1 ∧ program.nodes.map (fun n => (n.inputs.length, n.stepType)) =
      [(0, "x\ny")] := exists_lone (by decide +kernel)

theorem sums_of_lone {nodes : List CompiledNode} {count : Nat} {stepType : String}
    (h : nodes.map (fun n => (n.inputs.length, n.stepType)) = [(count, stepType)]) :
    (nodes.map fun n => 11 + n.inputs.length).sum = 11 + count ∧
      (nodes.map fun n => breaks n.stepType).sum = breaks stepType := by
  have hlengths : nodes.map (fun n => 11 + n.inputs.length) =
      (nodes.map fun n => (n.inputs.length, n.stepType)).map fun shape => 11 + shape.1 := by
    rw [List.map_map]
    rfl
  have htypes : nodes.map (fun n => breaks n.stepType) =
      (nodes.map fun n => (n.inputs.length, n.stepType)).map fun shape => breaks shape.2 := by
    rw [List.map_map]
    rfl
  rw [hlengths, htypes, h]
  simp

/-- The title is made one line, and the type of the step is not. -/
theorem broken_breaks : ∃ program, (Graph.lone "x\ny").compile (.naming "x\ny") = .ok program ∧
    breaks (program.generate "t\nu") = preludeLines.length + 9 + 1 + 11 + 1 := by
  obtain ⟨program, hc, hstages, hnodes⟩ := exists_broken
  obtain ⟨hlengths, htypes⟩ := sums_of_lone hnodes
  have hbreak : breaks "x\ny" = 1 := by decide
  refine ⟨program, hc, ?_⟩
  rw [Program.breaks_generate hc, hstages, hlengths, htypes, hbreak]

/-- The numbers of stages and of inputs of the nodes do not tell how many line breaks there are. -/
theorem shape_not_breaks : ¬ ∃ count : Nat → List Nat → Nat,
    ∀ (graph : Graph) (registry : Registry) (program : Program) (title : String),
      graph.compile registry = .ok program → breaks (program.generate title) =
        count program.stages.length (program.nodes.map fun n => n.inputs.length) := by
  rintro ⟨count, hcount⟩
  obtain ⟨plain, hplain, hstages, hnodes⟩ := exists_plain
  obtain ⟨broken, hbroken, hstages', hnodes'⟩ := exists_broken
  have hshape : plain.nodes.map (fun n => n.inputs.length) =
      broken.nodes.map fun n => n.inputs.length := by
    have hmap : ∀ nodes : List CompiledNode, nodes.map (fun n => n.inputs.length) =
        (nodes.map fun n => (n.inputs.length, n.stepType)).map Prod.fst := fun nodes => by
      rw [List.map_map]
      rfl
    rw [hmap, hmap, hnodes, hnodes']
    rfl
  have hsame : breaks (plain.generate "t") = breaks (broken.generate "t") := by
    rw [hcount _ _ _ "t" hplain, hcount _ _ _ "t" hbroken, hstages, hstages', hshape]
  rw [(Graph.compile_layered hplain).text_breaks, (Graph.compile_layered hbroken).text_breaks, hstages,
    hstages', (sums_of_lone hnodes).1, (sums_of_lone hnodes).2, (sums_of_lone hnodes').1,
    (sums_of_lone hnodes').2, Nat.add_left_cancel_iff] at hsame
  exact absurd hsame (by decide)

end Flowgraph
