import Flowgraph.Code.Layout
import Flowgraph.Proofs.Code.Names
import Mathlib

/-! Where the calls of generated code lead. A variable hides the function of its name from all that
follows in its scope. The functions of the nodes call nothing that they bind. The function that runs
the nodes does so where one node is named like the function of a later one. -/

namespace Flowgraph.Code

/-- What code does with a name. -/
inductive Mention
  | binds (name : String)
  | calls (name : String)
  deriving DecidableEq

/-- The calls of a scope that reach a variable instead of a function. What a block inside binds is
counted as bound to the end of the scope. -/
def captured (bound : List String) : List Mention → List String
  | [] => []
  | .binds name :: rest => captured (name :: bound) rest
  | .calls name :: rest =>
    if name ∈ bound then name :: captured bound rest else captured bound rest

/-- A scope that binds nothing that it calls captures nothing. -/
theorem captured_eq_nil {scope : List Mention} {bound : List String}
    (h : ∀ name, .calls name ∈ scope → name ∉ bound ∧ .binds name ∉ scope) :
    captured bound scope = [] := by
  induction scope generalizing bound with
  | nil => rfl
  | cons mention rest ih =>
    cases mention with
    | binds name =>
      refine ih fun callee hcallee => ?_
      obtain ⟨hbound, hbinds⟩ := h callee (List.mem_cons_of_mem _ hcallee)
      simp only [List.mem_cons, not_or, Mention.binds.injEq] at hbinds
      exact ⟨by simp [hbound, hbinds.1], hbinds.2⟩
    | calls name =>
      have hname := (h name (List.mem_cons_self ..)).1
      rw [captured, if_neg hname]
      refine ih fun callee hcallee => ?_
      obtain ⟨hbound, hbinds⟩ := h callee (List.mem_cons_of_mem _ hcallee)
      exact ⟨hbound, fun hmem => hbinds (List.mem_cons_of_mem _ hmem)⟩

/-- The functions that stand in all generated code. -/
def preludeItems : List String := ["pick", "text", "lit", "invoke"]

def Piece.mentions : Piece → List Mention
  | text _ => []
  | picked _ => [.calls "text", .calls "pick"]

mutual

def Expr.mentions : Expr → List Mention
  | .text _ | .scalar _ => []
  | .parsed _ => [.calls "lit"]
  | .pick _ => [.calls "pick"]
  | .concat pieces => pieces.flatMap Piece.mentions
  | .object fields => .binds "m" :: fieldMentions fields
  | .array items => itemMentions items

def Expr.itemMentions : List Expr → List Mention
  | [] => []
  | e :: rest => e.mentions ++ itemMentions rest

def Expr.fieldMentions : List (String × Expr) → List Mention
  | [] => []
  | (_, e) :: rest => e.mentions ++ fieldMentions rest

end

def StepFunction.mentions (f : StepFunction) : List Mention :=
  (["registry", "ctx"] ++ f.params ++ ["ctx", "input"]).map .binds ++
    Expr.fieldMentions f.inputs ++ [.calls "invoke"]

def StepCall.mentions (c : StepCall) : List Mention := [.calls ("step_" ++ c.name), .binds c.name]

namespace Listing

/-- The scope of the function that runs the nodes. -/
def mentions (u : Listing) : List Mention :=
  ["registry", "ctx", "outputs"].map .binds ++ u.calls.flatMap StepCall.mentions

/-- The names of all functions. -/
def items (u : Listing) : List String :=
  "run_workflow" :: preludeItems ++ u.functions.map StepFunction.item

end Listing

/-- What an expression does with names: it calls functions of the prelude, and binds one name in its
blocks. -/
def Mention.Inner : Mention → Prop
  | .binds name => name = "m"
  | .calls name => name ∈ preludeItems

theorem Piece.inner_of_mem {p : Piece} {mention : Mention} (h : mention ∈ p.mentions) :
    mention.Inner := by
  cases p with
  | text s => simp [mentions] at h
  | picked p =>
    rcases List.mem_pair.1 h with rfl | rfl <;> simp [Mention.Inner, preludeItems]

mutual

theorem Expr.inner_of_mem (e : Expr) {mention : Mention} (h : mention ∈ e.mentions) :
    mention.Inner := by
  cases e with
  | text | scalar => simp [mentions] at h
  | parsed v =>
    obtain rfl : mention = .calls "lit" := by simpa [mentions] using h
    simp [Mention.Inner, preludeItems]
  | pick p =>
    obtain rfl : mention = .calls "pick" := by simpa [mentions] using h
    simp [Mention.Inner, preludeItems]
  | concat pieces =>
    rw [mentions] at h
    obtain ⟨p, -, h⟩ := List.mem_flatMap.1 h
    exact p.inner_of_mem h
  | object fields =>
    rw [mentions] at h
    rcases List.mem_cons.1 h with rfl | h
    · rfl
    · exact inner_of_mem_fields fields h
  | array items =>
    rw [mentions] at h
    exact inner_of_mem_items items h

theorem Expr.inner_of_mem_items (items : List Expr) {mention : Mention}
    (h : mention ∈ itemMentions items) : mention.Inner := by
  cases items with
  | nil => simp [itemMentions] at h
  | cons e rest =>
    rw [itemMentions] at h
    rcases List.mem_append.1 h with h | h
    · exact inner_of_mem e h
    · exact inner_of_mem_items rest h

theorem Expr.inner_of_mem_fields (fields : List (String × Expr)) {mention : Mention}
    (h : mention ∈ fieldMentions fields) : mention.Inner := by
  cases fields with
  | nil => simp [fieldMentions] at h
  | cons field rest =>
    rw [fieldMentions] at h
    rcases List.mem_append.1 h with h | h
    · exact inner_of_mem field.2 h
    · exact inner_of_mem_fields rest h

end

namespace StepFunction

variable {f : StepFunction}

theorem calls_prelude {name : String} (h : .calls name ∈ f.mentions) : name ∈ preludeItems := by
  simp only [mentions, List.mem_append, List.mem_map, List.mem_singleton, reduceCtorEq, and_false,
    exists_false, false_or, Mention.calls.injEq] at h
  rcases h with h | rfl
  · exact Expr.inner_of_mem_fields _ h
  · simp [preludeItems]

theorem binds_cases {name : String} (h : .binds name ∈ f.mentions) :
    name ∈ f.params ∨ name ∈ ["registry", "ctx", "input", "m"] := by
  simp only [mentions, List.mem_append, List.mem_map, List.mem_singleton, reduceCtorEq, or_false,
    Mention.binds.injEq, exists_eq_right] at h
  rcases h with ((h | h) | h) | h
  · exact .inr (List.mem_append_left ["input", "m"] h)
  · exact .inl h
  · exact .inr (List.mem_cons_of_mem "registry" (List.mem_append_left ["m"] h))
  · obtain rfl : name = "m" := Expr.inner_of_mem_fields _ h
    simp

/-- A function whose parameters are no functions of the prelude captures nothing. -/
theorem captured_mentions (h : ∀ name ∈ f.params, name ∉ preludeItems) :
    captured [] f.mentions = [] := by
  refine captured_eq_nil fun name hcall => ⟨List.not_mem_nil, fun hbind => ?_⟩
  have hprelude := calls_prelude hcall
  rcases binds_cases hbind with hparam | hlocal
  · exact h name hparam hprelude
  · exact (by decide : ∀ name ∈ ["registry", "ctx", "input", "m"], name ∉ preludeItems)
      name hlocal hprelude

end StepFunction

/-- A call is captured by what is bound before all calls, or by the name of an earlier call. -/
theorem mem_captured_calls (bound : List String) {calls : List StepCall} {callee : String} :
    callee ∈ captured bound (calls.flatMap StepCall.mentions) ↔
      ∃ (before : List StepCall) (c : StepCall), ∃ after, calls = before ++ c :: after ∧
        callee = "step_" ++ c.name ∧ (callee ∈ bound ∨ callee ∈ before.map (·.name)) := by
  induction calls generalizing bound with
  | nil => simp [captured]
  | cons c rest ih =>
    have hhead : callee ∈ captured bound ((c :: rest).flatMap StepCall.mentions) ↔
        (callee = "step_" ++ c.name ∧ callee ∈ bound) ∨
          callee ∈ captured (c.name :: bound) (rest.flatMap StepCall.mentions) := by
      simp only [List.flatMap_cons, StepCall.mentions, List.cons_append, List.nil_append, captured]
      split
      · next hbound =>
        rw [List.mem_cons]
        exact or_congr_left (iff_self_and.2 fun he => he ▸ hbound)
      · next hbound =>
        exact (or_iff_right fun ⟨he, hmem⟩ => hbound (he ▸ hmem)).symm
    rw [hhead, ih]
    constructor
    · rintro (⟨rfl, hbound⟩ | ⟨before, d, after, rfl, rfl, hd⟩)
      · exact ⟨[], c, rest, rfl, rfl, .inl hbound⟩
      · refine ⟨c :: before, d, after, rfl, rfl, ?_⟩
        simpa only [List.map_cons, List.mem_cons, or_left_comm, or_assoc] using hd
    · rintro ⟨before, d, after, hsplit, rfl, hd⟩
      cases before with
      | nil =>
        obtain ⟨rfl, rfl⟩ := List.cons_eq_cons.1 hsplit
        exact .inl ⟨rfl, by simpa using hd⟩
      | cons e before =>
        obtain ⟨rfl, rfl⟩ := List.cons_eq_cons.1 hsplit
        refine .inr ⟨before, d, after, rfl, rfl, ?_⟩
        simpa only [List.map_cons, List.mem_cons, or_left_comm, or_assoc] using hd

/-- Where the names of generated code lead. -/
structure Listing.Resolves (u : Listing) : Prop where
  /-- No two functions have one name. -/
  nodup_items : u.items.Nodup
  inner : ∀ f ∈ u.functions, captured [] f.mentions = [] ∧
    ∀ callee, .calls callee ∈ f.mentions → callee ∈ preludeItems
  outer : ∀ c ∈ u.calls, ∃ f ∈ u.functions, f.item = "step_" ++ c.name ∧ f.nodeId = c.nodeId
  /-- A call is captured if an earlier node has the name of its function, and only then. -/
  captured_iff : ∀ callee, callee ∈ captured [] u.mentions ↔
    ∃ before c after, u.calls = before ++ c :: after ∧ callee = "step_" ++ c.name ∧
      callee ∈ before.map (·.name)

namespace Listing

variable {graph : Graph} {registry : Registry} {program : Program}

theorem nodup_items (hnodup : program.nodeIds.Nodup) (title : String) :
    (ofProgram program title).items.Nodup := by
  have hnames : ((ofProgram program title).functions.map StepFunction.item).Nodup := by
    have hitems : (ofProgram program title).functions.map StepFunction.item =
        (program.nodeIds.map (Names.ofProgram program).of).map ("step_" ++ ·) := by
      rw [← map_name_functions title, List.map_map]
      rfl
    rw [hitems]
    refine (Names.nodup_map_of hnodup fun _ => id).map fun a b h => ?_
    simpa using h
  have hfixed : ∀ name ∈ "run_workflow" :: preludeItems, name.toList.head? ≠ some 's' := by decide
  refine List.nodup_append.2 ⟨by decide, hnames, ?_⟩
  rintro name hname _ hitem rfl
  obtain ⟨f, -, rfl⟩ := List.mem_map.1 hitem
  exact hfixed _ hname (by simp [StepFunction.item])

/-- Generated code calls what its text says, but where a node is named like the function of a later
one. -/
theorem resolves_ofProgram (h : graph.compile registry = .ok program) (title : String) :
    (ofProgram program title).Resolves := by
  have hp := Graph.compile_layered h
  refine ⟨nodup_items hp.nodup title, fun f hf => ⟨?_, fun _ => StepFunction.calls_prelude⟩,
    fun c hc => ?_, fun callee => ?_⟩
  · obtain ⟨n, -, rfl⟩ := List.mem_map.1 hf
    refine StepFunction.captured_mentions fun name hname hprelude => ?_
    obtain ⟨id, hid, rfl⟩ := List.mem_map.1 hname
    have hreserved : ∀ name ∈ preludeItems, name ∈ reserved := by decide
    exact Names.of_not_reserved (List.mem_of_mem_filter hid) (hreserved _ hprelude)
  · rw [calls_ofProgram hp] at hc
    obtain ⟨n, hn, rfl⟩ := List.mem_map.1 hc
    exact ⟨_, List.mem_map_of_mem hn, rfl, rfl⟩
  · have houter : ∀ name ∈ ["outputs", "ctx", "registry"], name.toList.head? ≠ some 's' := by decide
    refine (mem_captured_calls ["outputs", "ctx", "registry"]).trans ?_
    refine exists_congr fun before => exists_congr fun c => exists_congr fun after =>
      and_congr_right fun _ => and_congr_right fun hcallee => or_iff_right fun hbound => ?_
    exact houter _ hbound (by simp [hcallee])

end Listing

end Flowgraph.Code

namespace Flowgraph

/-- The first node has the name of the function of the second. -/
def Graph.stepping : Graph where
  nodes := [.new "step_b" "echo", .new "b" "echo"]
  edges := []

namespace Code.Listing

theorem stepping_resolves : ∃ program,
    Graph.stepping.compile ⟨[Step.echoDescriptor]⟩ = .ok program ∧
      (ofProgram program "t").Resolves := by
  have hok : (Graph.stepping.compile ⟨[Step.echoDescriptor]⟩).isOk = true := by decide +kernel
  obtain ⟨program, hc⟩ := Graph.compiles_of_isOk hok
  exact ⟨program, hc, resolves_ofProgram hc "t"⟩

/-- The call of the second function reaches the variable of the first node. -/
theorem stepping_captures :
    (Graph.stepping.compile ⟨[Step.echoDescriptor]⟩).toOption.map
        (fun program => captured [] (ofProgram program "t").mentions) = some ["step_b"] ∧
      (Graph.stepping.compile ⟨[Step.echoDescriptor]⟩).toOption.map
        (fun program => ((ofProgram program "t").stages.flatMap StageBlock.lines)) = some [
          "// Stage 0",
          "let step_b = step_step_b(registry, ctx).await?;",
          "outputs.insert(String::from(\"step_b\"), step_b.clone());",
          "let b = step_b(registry, ctx).await?;",
          "outputs.insert(String::from(\"b\"), b.clone());"] := by
  constructor <;> decide +kernel

end Code.Listing

end Flowgraph
