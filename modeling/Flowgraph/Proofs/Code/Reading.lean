import Flowgraph.Proofs.Code.Sources

/-! Reading generated code. The lines of a function, of a call and of a stage tell what they were printed
for, so the text comes from one listing only, and what the code does is what that listing does. The
type of a step stands in a comment as it is; there it is known from the call of the step. -/

namespace Flowgraph.Code

open Text

section Lines

variable {parse : String → Option Json}

theorem indent_injective {a b : String} (h : indent a = indent b) : a = b := by
  simpa [indent, ← String.toList_inj] using h

/-- One line, set in. -/
theorem tells_line {β : Type} {write : β → String} {valid : β → Prop} {a : β}
    (h : Tells (fun a => (write a).toList) valid (fun _ => True) a) :
    Tells (fun a => [indent (write a)]) valid (fun _ => True) a := by
  intro b hb q r _ _ he
  obtain ⟨hline, hqr⟩ := List.cons.inj he
  exact ⟨h.eq hb (indent_injective hline), hqr⟩

theorem toString_injective {m n : Nat} (h : toString m = toString n) : m = n := by
  have hdigits : Nat.toDigits 10 m = Nat.toDigits 10 n := by simpa using congrArg String.toList h
  have hread := congrArg Numeral.natural? hdigits
  rw [Numeral.natural?_toDigits, Numeral.natural?_toDigits] at hread
  exact Int.ofNat_inj.1 (Option.some.inj hread)

structure StepFunction.Legible (parse : String → Option Json) (f : StepFunction) : Prop where
  isName : IsName f.name
  params : ∀ p ∈ f.params, IsName p
  inputs : ∀ input ∈ f.inputs, input.2.Legible parse

structure StepCall.Legible (c : StepCall) : Prop where
  isName : IsName c.name
  arguments : ∀ a ∈ c.arguments, IsName a

variable {f g : StepFunction} {c d : StepCall}

/-- A list of names, each between two fixed texts. -/
theorem names_eq {before behind : List Char} {xs ys : List String} {q r : List Char}
    (hx : ∀ x ∈ xs, IsName x) (hy : ∀ y ∈ ys, IsName y)
    (hends : ∀ more, EndsName (behind ++ (before ++ more))) (hq : EndsName (behind ++ q))
    (hr : EndsName (behind ++ r)) (hapart : ∀ more, before ++ more ≠ q ∧ before ++ more ≠ r)
    (h : (xs.flatMap fun a => before ++ (a.toList ++ behind)) ++ q =
      (ys.flatMap fun a => before ++ (a.toList ++ behind)) ++ r) : xs = ys ∧ q = r := by
  have htells : ∀ x ∈ xs, Tells (fun a : String => before ++ (a.toList ++ behind)) IsName
      (fun q => EndsName (behind ++ q)) x := by
    intro x hmem y hy q r hq hr h
    simp only [List.append_assoc, List.append_cancel_left_eq] at h
    obtain ⟨hxy, hqr⟩ := tells_name (hx x hmem) y hy _ _ hq hr h
    exact ⟨hxy, List.append_cancel_left hqr⟩
  have hclosing : ∀ {z : List Char}, EndsName (behind ++ z) → (∀ more, before ++ more ≠ z) →
      Closing (fun a : String => before ++ (a.toList ++ behind)) IsName
        (fun q => EndsName (behind ++ q)) z := by
    intro z hz hne
    constructor
    · intro l _
      cases l with
      | nil => exact hz
      | cons a l => simpa using hends _
    · intro a _ more he
      exact hne _ (by rw [← he, List.append_assoc])
  exact eq_of_flatMap htells hx hy (hclosing hq fun more => (hapart more).1)
    (hclosing hr fun more => (hapart more).2) h

theorem signature_eq (hf : f.Legible parse) (hg : g.Legible parse) (h : f.signature = g.signature) :
    f.name = g.name ∧ f.params = g.params := by
  unfold StepFunction.signature at h
  replace h := congrArg String.toList h
  simp only [String.toList_append, String.toList_join, List.append_assoc, List.flatMap_map,
    List.append_cancel_left_eq] at h
  obtain ⟨hname, hrest⟩ := tells_name hf.isName g.name hg.isName _ _ (by simp [NamePart])
    (by simp [NamePart]) h
  obtain ⟨hparams, -⟩ := names_eq hf.params hg.params (by simp [NamePart]) (by simp [NamePart])
    (by simp [NamePart]) (by simp) (List.append_cancel_left hrest)
  exact ⟨hname, hparams⟩

/-- The comment tells the node, and the stage once the type of the step is known. -/
theorem comment_eq {i j s : String} {m n : Nat}
    (h : "/// Node " ++ quote i ++ " (" ++ s ++ "), stage " ++ toString m ++ "." =
      "/// Node " ++ quote j ++ " (" ++ s ++ "), stage " ++ toString n ++ ".") : i = j ∧ m = n := by
  replace h := congrArg String.toList h
  simp only [String.toList_append, List.append_assoc, List.append_cancel_left_eq] at h
  obtain ⟨hnode, hrest⟩ := tells_quote i j trivial _ _ trivial trivial h
  simp only [List.append_cancel_left_eq, List.append_cancel_right_eq] at hrest
  exact ⟨hnode, toString_injective (String.toList_inj.1 hrest)⟩

theorem integrationLine_eq (h : f.integrationLine = g.integrationLine) :
    f.integrationId = g.integrationId := by
  unfold StepFunction.integrationLine at h
  cases hf : f.integrationId with
  | none =>
    cases hg : g.integrationId with
    | none => rfl
    | some b => simp [hf, hg, stringOf, ← String.toList_inj] at h
  | some a =>
    cases hg : g.integrationId with
    | none => simp [hf, hg, stringOf, ← String.toList_inj] at h
    | some b =>
      simp only [hf, hg] at h
      exact congrArg some
        (((tells_stringOf a).between "ctx.integration_id = Some(" ");" fun _ => trivial).eq trivial h)

theorem StepFunction.lines_append (f : StepFunction) (q : List String) : "" :: f.lines ++ q =
    "" :: ("/// Node " ++ quote f.nodeId ++ " (" ++ f.stepType ++ "), stage " ++ toString f.stage ++
      ".") :: f.signature :: indent "let mut ctx = ctx.clone();" ::
      indent ("ctx.node_id = " ++ stringOf f.nodeId ++ ";") :: indent f.integrationLine ::
      indent "let mut input = Map::new();" ::
      ((f.inputs.map fun input => indent (inputLine input)) ++
        indent ("invoke(registry, &ctx, " ++ quote f.stepType ++ ", input).await") :: "\x7d" :: q) := by
  unfold StepFunction.lines
  simp only [List.map_append, List.map_cons, List.map_nil, List.map_map, List.cons_append,
    List.nil_append, List.append_assoc, Function.comp_def]

/-- The inputs of a function end where the step is invoked. -/
theorem closing_inputs (stepType : String) (q : List String) :
    Closing (fun input : String × Expr => [indent (StepFunction.inputLine input)])
      (fun input => input.2.Legible parse) (fun _ => True)
      (indent ("invoke(registry, &ctx, " ++ quote stepType ++ ", input).await") :: q) := by
  refine ⟨fun _ _ => trivial, fun input _ more he => ?_⟩
  have hline := indent_injective (List.cons.inj he).1
  unfold StepFunction.inputLine at hline
  simp [← String.toList_inj] at hline

/-- The lines of a function tell the function. -/
theorem tells_function (hf : f.Legible parse) :
    Tells (fun f : StepFunction => "" :: f.lines) (StepFunction.Legible parse) (fun _ => True) f := by
  intro g hg q r _ _ h
  rw [StepFunction.lines_append, StepFunction.lines_append] at h
  simp only [List.cons.injEq, true_and, List.map_eq_flatMap] at h
  obtain ⟨hcomment, hsignature, -, hintegration, hbody⟩ := h
  have htells : ∀ input ∈ f.inputs, Tells (fun input => [indent (StepFunction.inputLine input)])
      (fun input => input.2.Legible parse) (fun _ => True) input := fun input hinput =>
    tells_line (tells_field (hf.inputs input hinput).tells)
  obtain ⟨hinputs, hinvoke⟩ :=
    eq_of_flatMap htells hf.inputs hg.inputs (closing_inputs _ _) (closing_inputs _ _) hbody
  obtain ⟨hline, hqr⟩ := List.cons.inj hinvoke
  -- the comment has the type unquoted, so it is read here, where it is quoted
  have hstepType : f.stepType = g.stepType :=
    ((tells_quote _).between "invoke(registry, &ctx, " ", input).await" fun _ => trivial).eq trivial
      (indent_injective hline)
  obtain ⟨hname, hparams⟩ := signature_eq hf hg hsignature
  obtain ⟨hnode, hstage⟩ := comment_eq (hstepType ▸ hcomment)
  have hintegrationId := integrationLine_eq (indent_injective hintegration)
  refine ⟨?_, (List.cons.inj hqr).2⟩
  obtain ⟨⟩ := f
  obtain ⟨⟩ := g
  simp only [StepFunction.mk.injEq]
  exact ⟨hname, hnode, hstepType, hstage, hparams, hintegrationId, hinputs⟩

/-- The lines of a call tell the call. -/
theorem tells_call (hc : c.Legible) :
    Tells (fun c : StepCall => c.lines.map indent) StepCall.Legible (fun _ => True) c := by
  intro d hd q r _ _ h
  obtain ⟨hfirst, hsecond, hqr⟩ : indent _ = indent _ ∧ indent _ = indent _ ∧ q = r := by
    simpa only [StepCall.lines, List.map_cons, List.map_nil, List.cons_append, List.nil_append,
      List.cons.injEq] using h
  replace hfirst := congrArg String.toList (indent_injective hfirst)
  replace hsecond := congrArg String.toList (indent_injective hsecond)
  simp only [String.toList_append, String.toList_join, List.append_assoc, List.flatMap_map,
    List.append_cancel_left_eq] at hfirst hsecond
  obtain ⟨hname, hrest⟩ := tells_name hc.isName d.name hd.isName _ _ (by simp [NamePart])
    (by simp [NamePart]) hfirst
  obtain ⟨hnode, -⟩ := tells_stringOf c.nodeId d.nodeId trivial _ _ trivial trivial hsecond
  rw [hname, List.append_cancel_left_eq, List.append_cancel_left_eq, List.append_cancel_left_eq] at hrest
  -- an argument has nothing of its own behind it
  have hlist : (c.arguments.flatMap fun a => ", &".toList ++ (a.toList ++ [])) ++ ").await?;".toList =
      (d.arguments.flatMap fun a => ", &".toList ++ (a.toList ++ [])) ++ ").await?;".toList := by
    simpa only [List.append_nil] using hrest
  obtain ⟨harguments, -⟩ := names_eq hc.arguments hd.arguments (by simp [NamePart])
    (by simp [NamePart]) (by simp [NamePart]) (by simp) hlist
  refine ⟨?_, hqr⟩
  obtain ⟨⟩ := c
  obtain ⟨⟩ := d
  simp only [StepCall.mk.injEq]
  exact ⟨hname, hnode, harguments⟩

def StageBlock.Legible (b : StageBlock) : Prop := ∀ c ∈ b.calls, c.Legible

/-- The lines do not go on with a call. -/
def EndsStage (q : List String) : Prop := ∀ c : StepCall, c.Legible → ∀ more, c.lines.map indent ++ more ≠ q

/-- The lines of a stage tell the stage, and they end where no more calls come. -/
theorem tells_stage {b : StageBlock} (hb : b.Legible) :
    Tells (fun b : StageBlock => b.lines.map indent) StageBlock.Legible EndsStage b := by
  intro b' hb' q r hq hr h
  obtain ⟨hhead, hcalls⟩ : indent _ = indent _ ∧ _ := by
    simpa only [StageBlock.lines, List.map_cons, List.cons_append, List.cons.injEq] using h
  have hindex : b.index = b'.index := by
    have hline := congrArg String.toList (indent_injective hhead)
    rw [String.toList_append, String.toList_append] at hline
    exact toString_injective (String.toList_inj.1 (List.append_cancel_left hline))
  rw [List.map_flatMap, List.map_flatMap] at hcalls
  obtain ⟨hcalls, hqr⟩ := eq_of_flatMap (fun c hc => tells_call (hb c hc)) hb hb'
    ⟨fun _ _ => trivial, hq⟩ ⟨fun _ _ => trivial, hr⟩ hcalls
  refine ⟨?_, hqr⟩
  obtain ⟨⟩ := b
  obtain ⟨⟩ := b'
  simp only [StageBlock.mk.injEq]
  exact ⟨hindex, hcalls⟩

theorem call_ne_line {c : StepCall} {more q : List String} {line : String}
    (hline : ¬ "    let ".toList <+: line.toList) : c.lines.map indent ++ more ≠ line :: q := by
  intro h
  obtain ⟨rfl, -⟩ := List.cons.inj h
  refine hline ?_
  simp only [indent, String.toList_append, List.append_assoc]
  simp

end Lines

namespace Listing

variable {parse : String → Option Json} {u v : Listing}

/-- A listing that can be read back from its text, but for its title. -/
structure Legible (parse : String → Option Json) (u : Listing) : Prop where
  unbroken : ∀ line ∈ u.lines, breaks line = 0
  functions : ∀ f ∈ u.functions, f.Legible parse
  stages : ∀ b ∈ u.stages, b.Legible

theorem lines_eq_of_text (hu : ∀ line ∈ u.lines, breaks line = 0)
    (hv : ∀ line ∈ v.lines, breaks line = 0) (h : u.text = v.text) : u.lines = v.lines := by
  have htells : ∀ line ∈ u.lines, Tells (fun line : String => (line ++ "\n").toList)
      (breaks · = 0) (fun _ => True) line := by
    intro line hline b hb q r _ _ he
    have hplain : ∀ {s : String}, breaks s = 0 → ∀ c ∈ s.toList, (!isBreak c) = true :=
      fun hs c hc => by simp [breaks_eq_zero_iff.1 hs c hc]
    simp only [String.toList_append, List.append_assoc] at he
    obtain ⟨hlines, hqr⟩ := tells_word (hplain (hu line hline)) b (hplain hb) _ _
      (by simp [isBreak]) (by simp [isBreak]) he
    exact ⟨hlines, List.append_cancel_left hqr⟩
  have hclosing : Closing (fun line : String => (line ++ "\n").toList) (breaks · = 0)
      (fun _ => True) [] := ⟨fun _ _ => trivial, fun _ _ _ he => by simp at he⟩
  replace h := congrArg (String.toList · ++ []) h
  simp only [text, String.toList_join, List.flatMap_map] at h
  exact (eq_of_flatMap htells hu hv hclosing hclosing h).1

/-- The body of the last function tells the stages. -/
theorem stages_eq (hu : ∀ b ∈ u.stages, b.Legible) (hv : ∀ b ∈ v.stages, b.Legible)
    (h : u.runLines = v.runLines) : u.stages = v.stages := by
  unfold runLines at h
  simp only [List.map_append, List.append_assoc, List.append_cancel_left_eq, List.map_flatMap] at h
  have hclosing : Closing (fun b : StageBlock => b.lines.map indent) StageBlock.Legible EndsStage
      (["Ok(outputs)"].map indent ++ ["\x7d"]) := by
    constructor
    · intro l _ c _ more
      cases l with
      | nil => exact call_ne_line (by simp [indent])
      | cons b l => exact call_ne_line (by simp [indent])
    · intro b _ more he
      have hline := indent_injective (List.cons.inj he).1
      simp [← String.toList_inj] at hline
  exact (eq_of_flatMap (fun b hb => tells_stage (hu b hb)) hu hv hclosing hclosing h).1

/-- The text tells all of a listing but its title. -/
theorem Legible.eq_of_text (hu : u.Legible parse) (hv : v.Legible parse) (h : u.text = v.text) :
    u.functions = v.functions ∧ u.stages = v.stages := by
  have hlines := lines_eq_of_text hu.unbroken hv.unbroken h
  unfold lines at hlines
  simp only [List.append_assoc] at hlines
  obtain ⟨-, hlines⟩ := List.append_inj hlines rfl
  simp only [List.append_cancel_left_eq] at hlines
  have hclosing : ∀ u : Listing, Closing (fun f : StepFunction => "" :: f.lines)
      (StepFunction.Legible parse) (fun _ => True) ([""] ++ u.runLines) := by
    refine fun u => ⟨fun _ _ => trivial, fun f _ more he => ?_⟩
    have hline := (List.cons.inj (List.cons.inj he).2).1
    simp [← String.toList_inj] at hline
  obtain ⟨hfunctions, hrun⟩ := eq_of_flatMap (fun f hf => tells_function (hu.functions f hf))
    hu.functions hv.functions (hclosing u) (hclosing v) hlines
  exact ⟨hfunctions, stages_eq hu.stages hv.stages (List.append_cancel_left hrun)⟩

end Listing

end Flowgraph.Code

namespace Flowgraph

open Code Text

/-- A binding whose literals are read back from their texts. -/
inductive Binding.Readable (parse : String → Option Json) : Binding → Prop
  | literal {v} : parse v.text = some v → Readable parse (.literal v)
  | output {r} : Readable parse (.output r)
  | interpolate {parts} : Readable parse (.interpolate parts)
  | object {fields} : (∀ field ∈ fields, Readable parse field.2) → Readable parse (.object fields)
  | array {items} : (∀ b ∈ items, Readable parse b) → Readable parse (.array items)

namespace Code

variable {parse : String → Option Json} {graph : Graph} {registry : Registry} {program : Program}

theorem legible_ofLiteral {v : Json} (h : parse v.text = some v) : (Expr.ofLiteral v).Legible parse := by
  cases v with
  | null => exact .scalar (by simp [Json.text]) h
  | bool b => exact .scalar (by cases b <;> simp [Json.text]) h
  | number n =>
    refine .scalar (n.forall_text (fun c hc he => ?_) (by simp)) h
    rw [he] at hc
    cases hc
  | string s => exact .text
  | array items | object fields => exact .parsed h

theorem isName_ofRef {r : OutputRef} (h : r.node ∈ program.nodeIds) :
    IsName (Pick.ofRef (.ofProgram program) r).name := by
  rw [Pick.ofRef, Names.lookup_eq_of h, Option.getD_some]
  exact Names.isName_of h

theorem ofBindings_eq_map (names : Names) (items : List Binding) :
    Expr.ofBindings names items = items.map (Expr.ofBinding names) := by
  induction items with
  | nil => rfl
  | cons b rest ih => rw [Expr.ofBindings, ih, List.map_cons]

theorem ofBindingFields_eq_map (names : Names) (fields : List (String × Binding)) :
    Expr.ofBindingFields names fields =
      fields.map fun field => (field.1, Expr.ofBinding names field.2) := by
  induction fields with
  | nil => rfl
  | cons field rest ih => rw [Expr.ofBindingFields, ih, List.map_cons]

theorem legible_ofBinding {b : Binding} (h : b.Readable parse)
    (hr : ∀ r ∈ b.references, r.node ∈ program.nodeIds) :
    (Expr.ofBinding (.ofProgram program) b).Legible parse := by
  induction h with
  | literal h => exact legible_ofLiteral h
  | output => exact .pick (isName_ofRef (hr _ (by simp [Binding.references])))
  | @interpolate parts =>
    refine .concat (List.forall_mem_map.2 fun part hpart => ?_)
    cases part with
    | text s => trivial
    | output r => exact isName_ofRef (hr r (List.mem_filterMap.2 ⟨_, hpart, rfl⟩))
  | @object fields _ ih =>
    rw [Expr.ofBinding, ofBindingFields_eq_map]
    refine .object (List.forall_mem_map.2 fun field hfield => ih field hfield fun r hmem => hr r ?_)
    rw [Binding.references, Binding.fieldReferences_eq_flatMap]
    exact List.mem_flatMap.2 ⟨field, hfield, hmem⟩
  | @array items _ ih =>
    rw [Expr.ofBinding, ofBindings_eq_map]
    refine .array (List.forall_mem_map.2 fun b hb => ih b hb fun r hmem => hr r ?_)
    rw [Binding.references, Binding.itemReferences_eq_flatMap]
    exact List.mem_flatMap.2 ⟨b, hb, hmem⟩

namespace Listing

/-- The listing of an accepted graph can be read back, if the types of its steps break no line and its
literals are read back from their texts. -/
theorem legible_ofProgram (h : graph.compile registry = .ok program)
    (htypes : ∀ n ∈ program.nodes, breaks n.stepType = 0)
    (hread : ∀ n ∈ program.nodes, (Binding.object n.inputs).Readable parse) (title : String) :
    (ofProgram program title).Legible parse := by
  have hp := Graph.compile_layered h
  have hname : ∀ {n}, n ∈ program.nodes → IsName ((Names.ofProgram program).of n.id) := fun hn =>
    Names.isName_of (List.mem_map_of_mem hn)
  have hnames : ∀ n, ∀ name ∈ (producers program n).map (Names.ofProgram program).of, IsName name :=
    fun n => List.forall_mem_map.2 fun id hid => Names.isName_of (List.mem_of_mem_filter hid)
  refine ⟨?_, fun f hf => ?_, fun b hb => ?_⟩
  · have hsum := (unbroken_ofProgram program title).sum_breaks
    have htypes : ∀ k ∈ (ofProgram program title).functions.map fun f => breaks f.stepType, k = 0 := by
      refine List.forall_mem_map.2 fun f hf => ?_
      obtain ⟨n, hn, rfl⟩ := mem_functions hf
      exact htypes n hn
    rw [List.sum_eq_zero_iff.2 htypes, List.sum_eq_zero_iff] at hsum
    exact fun line hline => hsum _ (List.mem_map_of_mem hline)
  · obtain ⟨n, hn, rfl⟩ := mem_functions hf
    have hknown : ∀ r ∈ (Binding.object n.inputs).references, r.node ∈ program.nodeIds := fun r hr =>
      mem_nodeIds_of_reference hp hn (references_eq n ▸ hr)
    refine ⟨hname hn, hnames n, ?_⟩
    cases hread n hn with
    | object hfields =>
      rw [StepFunction.ofNode, ofBindingFields_eq_map]
      refine List.forall_mem_map.2 fun field hfield => ?_
      refine legible_ofBinding (hfields field hfield) fun r hr => hknown r ?_
      rw [Binding.references, Binding.fieldReferences_eq_flatMap]
      exact List.mem_flatMap.2 ⟨field, hfield, hr⟩
  · obtain ⟨stage, hstage, rfl⟩ := List.mem_map.1 hb
    refine List.forall_mem_map.2 fun n hn => ⟨hname ?_, hnames n⟩
    rw [← hp.flatMap_stageNodes]
    exact List.mem_flatMap.2 ⟨stage, hstage, hn⟩

/-- No other listing has the text of the code, whatever its title. -/
theorem eq_ofProgram_of_text (h : graph.compile registry = .ok program)
    (htypes : ∀ n ∈ program.nodes, breaks n.stepType = 0)
    (hread : ∀ n ∈ program.nodes, (Binding.object n.inputs).Readable parse) {title : String}
    {u : Listing} (hu : u.Legible parse) (htext : u.text = program.generate title) :
    u = ofProgram program u.title := by
  obtain ⟨hfunctions, hstages⟩ := hu.eq_of_text (legible_ofProgram h htypes hread title) htext
  obtain ⟨⟩ := u
  rw [ofProgram, mk.injEq]
  exact ⟨rfl, hfunctions, hstages⟩

end Listing

end Code

end Flowgraph
