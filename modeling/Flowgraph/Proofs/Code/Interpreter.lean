import Flowgraph.Proofs.Code.Names
import Flowgraph.Proofs.Json.Ordered

/-! What generated code does when it runs: calls happen in their order, arguments go to parameters by
their places, and variables and functions are found by name, apart from each other. Every expression
that stands for a binding has its value, if the variables hold the outputs that it reads. -/

namespace Flowgraph

/-- The fields of all objects within the binding stand in their order. -/
inductive Binding.Ordered : Binding → Prop
  | literal {v} : Ordered (.literal v)
  | output {r} : Ordered (.output r)
  | interpolate {parts} : Ordered (.interpolate parts)
  | array {items} : (∀ b ∈ items, Ordered b) → Ordered (.array items)
  | object {fields} : Fields.Ascending fields → (∀ kb ∈ fields, Ordered kb.2) →
      Ordered (.object fields)

section Compile

variable (scope : Scope)

end Compile

namespace Code

/-- What a variable holds. -/
inductive Cell
  | value (v : Json)
  /-- The registry, the context, or a map that is being filled. -/
  | other

/-- Variables, the innermost first. -/
abbrev Env := List (String × Cell)

/-- The JSON value of a variable. -/
def Env.value? (env : Env) (name : String) : Option Json :=
  match env.lookup name with
  | some (.value v) => some v
  | _ => none

/-- What the prelude picks. -/
def picked (v : Json) (path : List String) : Json := (path.foldlM Path.step v).getD .null

/-- How the prelude makes a value a text. -/
def texted : Json → String
  | .null => ""
  | .string s => s
  | v => v.text

namespace Pick

/-- The value of the variable. What stands for a node without a name is null. -/
def subject (env : Env) (p : Pick) : Option Json :=
  (env.value? p.name).or (if p.name = noValue then some .null else none)

def eval (env : Env) (p : Pick) : Option Json := (p.subject env).map (picked · p.path)

end Pick

def Piece.eval (env : Env) : Piece → Option String
  | text s => some s
  | picked p => (p.eval env).map texted

mutual

/-- The value of an expression. There is none if a name in it leads nowhere. -/
def Expr.eval (env : Env) : Expr → Option Json
  | .text s => some (.string s)
  | .scalar v => some v
  | .parsed v => some v
  | .pick p => p.eval env
  | .concat pieces => (pieces.mapM (Piece.eval env)).map fun texts => .string (String.join texts)
  | .object fields => (Expr.evalFields (("m", .other) :: env) [] fields).map .object
  | .array items => (Expr.evalItems env items).map .array

def Expr.evalItems (env : Env) : List Expr → Option (List Json)
  | [] => some []
  | e :: rest => do
    let v ← Expr.eval env e
    let values ← Expr.evalItems env rest
    return v :: values

/-- Puts fields into a map, one after the other. -/
def Expr.evalFields (env : Env) (map : Fields Json) : List (String × Expr) → Option (Fields Json)
  | [] => some map
  | (key, e) :: rest => do
    let v ← Expr.eval env e
    Expr.evalFields env (map.insert key v) rest

end

namespace StepFunction

/-- The variables in the body of a function. -/
def frame (f : StepFunction) (args : List Json) : Env :=
  [("input", .other), ("ctx", .other)] ++ f.params.zip (args.map .value) ++
    [("ctx", .other), ("registry", .other)]

/-- The step that a function invokes when it is called. -/
def invocation (f : StepFunction) (args : List Json) : Option Invocation :=
  if args.length = f.params.length then
    (Expr.evalFields (f.frame args) [] f.inputs).map fun input =>
      ⟨f.stepType, f.nodeId, f.integrationId, input⟩
  else none

end StepFunction

/-- What a run of generated code comes to: the steps that it has invoked and what it returns. -/
structure Ran where
  invoked : List Invocation
  result : Except String Outputs

def Ran.after (i : Invocation) (r : Ran) : Ran := ⟨i :: r.invoked, r.result⟩

section Run

variable (functions : List StepFunction) (registry : Registry) (sem : Invocation → StepResult)

/-- Calls one function after the other, binds what each returns, and stops at the first error. A step of
an unknown type is not invoked. -/
def runCalls : List StepCall → Env → Outputs → Option Ran
  | [], _, outputs => some ⟨[], .ok outputs⟩
  | c :: rest, env, outputs => do
    let f ← functions.find? (·.item = "step_" ++ c.name)
    let args ← c.arguments.mapM env.value?
    let i ← f.invocation args
    match registry.resolve i.stepType with
    | .error e => return ⟨[], .error e.message⟩
    | .ok _ =>
      match sem i with
      | .failure e => return ⟨[i], .error e⟩
      | .success data =>
        let ran ← runCalls rest ((c.name, .value data) :: env) (outputs.insert c.nodeId data)
        return ran.after i

end Run

/-- The variables that are there before all calls. -/
def runFrame : Env := [("outputs", .other), ("ctx", .other), ("registry", .other)]

/-- Runs generated code, with steps that do as `sem` says. -/
def Listing.run (u : Listing) (registry : Registry) (sem : Invocation → StepResult) : Option Ran :=
  runCalls u.functions registry sem u.calls runFrame []

theorem texted_eq (v : Json) : texted v = v.spliced := by cases v <;> rfl

/-- The variables hold the outputs that are read. -/
def Env.Holds (env : Env) (names : Names) (outputs : Outputs) (refs : List OutputRef) : Prop :=
  ∀ r ∈ refs, ∃ name v, names.lookup r.node = some name ∧ name ≠ "m" ∧
    env.value? name = some v ∧ outputs.lookup r.node = some v

theorem mapM_map_eq_some {α β γ : Type} {f : β → Option γ} {g : α → β} {k : α → γ} {l : List α}
    (h : ∀ a ∈ l, f (g a) = some (k a)) : (l.map g).mapM f = some (l.map k) := by
  induction l with
  | nil => rfl
  | cons a rest ih =>
    obtain ⟨ha, hrest⟩ := List.forall_mem_cons.1 h
    rw [List.map_cons, List.mapM_cons, ha, ih hrest]
    rfl

section Eval

variable {env : Env} {names : Names} {outputs : Outputs}

theorem Env.Holds.mono {refs more : List OutputRef} (h : env.Holds names outputs more)
    (hrefs : ∀ r ∈ refs, r ∈ more) : env.Holds names outputs refs := fun r hr => h r (hrefs r hr)

/-- A block binds no name that a node can have. -/
theorem Env.Holds.block {refs : List OutputRef} (h : env.Holds names outputs refs) :
    Env.Holds (("m", .other) :: env) names outputs refs := by
  intro r hr
  obtain ⟨name, v, hname, hm, hv, ho⟩ := h r hr
  refine ⟨name, v, hname, hm, ?_, ho⟩
  rw [Env.value?, List.lookup_cons, beq_eq_false_iff_ne.2 hm]
  exact hv

theorem eval_ofRef {r : OutputRef} (h : env.Holds names outputs [r]) :
    (Pick.ofRef names r).eval env = some ((r.lookup outputs).getD .null) := by
  obtain ⟨name, v, hname, -, hv, ho⟩ := h r (by simp)
  rw [Pick.eval, Pick.subject, Pick.ofRef, hname, OutputRef.lookup, ho, Option.getD_some, hv]
  rfl

theorem eval_ofPart {part : Part} (h : env.Holds names outputs part.reference?.toList) :
    (Piece.ofPart names part).eval env = some (part.resolve outputs) := by
  cases part with
  | text s => rfl
  | output r =>
    rw [Piece.ofPart, Piece.eval, eval_ofRef h, Option.map_some, texted_eq, Part.resolve]
    cases r.lookup outputs <;> rfl

theorem eval_ofParts {parts : List Part}
    (h : env.Holds names outputs (parts.filterMap Part.reference?)) :
    (parts.map (Piece.ofPart names)).mapM (Piece.eval env) =
      some (parts.map (Part.resolve outputs)) :=
  mapM_map_eq_some fun part hpart => eval_ofPart <| h.mono fun r hr =>
    List.mem_filterMap.2 ⟨part, hpart, by simpa using hr⟩

mutual

/-- The expression of a binding has the value of the binding. -/
theorem eval_ofBinding {env : Env} {b : Binding} (hb : b.Ordered)
    (h : env.Holds names outputs b.references) :
    (Expr.ofBinding names b).eval env = some (b.resolve outputs) := by
  cases b with
  | literal v => cases v <;> rfl
  | output r =>
    rw [Binding.references] at h
    rw [Expr.ofBinding, Expr.eval, eval_ofRef h, Binding.resolve]
  | interpolate parts =>
    rw [Binding.references] at h
    rw [Expr.ofBinding, Expr.eval, eval_ofParts h, Binding.resolve, Option.map_some]
  | object fields =>
    cases hb with
    | object hnames hvalues =>
      rw [Binding.references] at h
      have hfields := eval_ofBindingFields [] hnames hvalues h.block
      rw [Expr.ofBinding, Expr.eval, hfields, Binding.resolve, Option.map_some, List.nil_append]
  | array items =>
    cases hb with
    | array hitems =>
      rw [Binding.references] at h
      rw [Expr.ofBinding, Expr.eval, eval_ofBindings hitems h, Binding.resolve, Option.map_some]

theorem eval_ofBindings {env : Env} {items : List Binding} (hitems : ∀ b ∈ items, b.Ordered)
    (h : env.Holds names outputs (Binding.itemReferences items)) :
    Expr.evalItems env (Expr.ofBindings names items) =
      some (Binding.resolveItems outputs items) := by
  cases items with
  | nil => rfl
  | cons b rest =>
    rw [Binding.itemReferences] at h
    obtain ⟨hb, hrest⟩ := List.forall_mem_cons.1 hitems
    rw [Expr.ofBindings, Expr.evalItems, Binding.resolveItems,
      eval_ofBinding hb (h.mono fun r hr => List.mem_append_left _ hr),
      eval_ofBindings hrest (h.mono fun r hr => List.mem_append_right _ hr)]
    rfl

/-- Fields that come after all that is in the map are put at its end. -/
theorem eval_ofBindingFields {env : Env} (map : Fields Json) {fields : Fields Binding}
    (hnames : (map.keys ++ fields.keys).Pairwise (· < ·)) (hvalues : ∀ kb ∈ fields, kb.2.Ordered)
    (h : env.Holds names outputs (Binding.fieldReferences fields)) :
    Expr.evalFields env map (Expr.ofBindingFields names fields) =
      some (map ++ Binding.resolveFields outputs fields) := by
  cases fields with
  | nil => simp [Expr.ofBindingFields, Expr.evalFields, Binding.resolveFields]
  | cons field rest =>
    obtain ⟨key, b⟩ := field
    rw [Binding.fieldReferences] at h
    obtain ⟨hb, hrest⟩ := List.forall_mem_cons.1 hvalues
    have hlast : ∀ k ∈ map.keys, k < key := fun k hk =>
      (List.pairwise_append.1 hnames).2.2 k hk key (List.mem_cons_self ..)
    have hmore : (Fields.keys (map ++ [(key, b.resolve outputs)]) ++ Fields.keys rest).Pairwise
        (· < ·) := by
      simpa [Fields.keys] using hnames
    rw [Expr.ofBindingFields, Expr.evalFields,
      eval_ofBinding hb (h.mono fun r hr => List.mem_append_left _ hr), Option.bind_eq_bind,
      Option.bind_some, Fields.insert_last hlast,
      eval_ofBindingFields _ hmore hrest (h.mono fun r hr => List.mem_append_right _ hr),
      Binding.resolveFields, List.append_assoc, List.singleton_append]

end

end Eval

end Code

end Flowgraph
