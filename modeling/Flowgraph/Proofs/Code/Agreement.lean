import Flowgraph.Code.Layout
import Flowgraph.Proofs.Code.Interpreter
import Flowgraph.Proofs.Executor.Dataflow

/-! Generated code does what a run does: it invokes the same steps on the same inputs in the order of the
program, up to the first that fails, and returns its error, or the outputs of the run if none fails. -/

namespace Flowgraph

/-- The data of a node; null if there is none. -/
def Outputs.datum (outputs : Outputs) (id : String) : Json := (outputs.lookup id).getD .null

namespace Code

section Lookup

variable {program : Program} {datum : String → Json}

theorem lookup_map_of_injOn {β : Type} {l : List String} {f : String → String} {g : String → β}
    {a : String} (hinj : ∀ b ∈ l, f b = f a → b = a) (ha : a ∈ l) :
    (l.map fun b => (f b, g b)).lookup (f a) = some (g a) := by
  induction l with
  | nil => simp at ha
  | cons b rest ih =>
    obtain ⟨hb, hrest⟩ := List.forall_mem_cons.1 hinj
    by_cases he : f b = f a
    · simp [hb he]
    · have ha : a ∈ rest := (List.mem_cons.1 ha).resolve_left fun hab => he (hab ▸ rfl)
      rw [List.map_cons, List.lookup_cons, beq_eq_false_iff_ne.2 fun h => he h.symm]
      exact ih hrest ha

variable (program datum) in
/-- Variables that are bound to the data of nodes, with others around. -/
theorem value?_of_nodes {ids : List String} (hids : ∀ id ∈ ids, id ∈ program.nodeIds)
    (inner outer : Env) (hinner : ∀ b ∈ inner, b.1 ∈ reserved) {id : String} (hid : id ∈ ids) :
    Env.value? (inner ++ (ids.map fun id =>
      ((Names.ofProgram program).of id, Cell.value (datum id))) ++ outer)
        ((Names.ofProgram program).of id) = some (datum id) := by
  have hnone : inner.lookup ((Names.ofProgram program).of id) = none := by
    refine List.lookup_eq_none_iff.2 fun b hb => bne_iff_ne.2 fun he => ?_
    exact Names.of_not_reserved (hids id hid) (he ▸ hinner b hb)
  have hsome := lookup_map_of_injOn (g := fun id => Cell.value (datum id))
    (fun other hother => Names.of_injOn (hids other hother) (hids id hid)) hid
  rw [Env.value?, List.append_assoc, List.lookup_append, hnone, Option.none_or, List.lookup_append,
    hsome, Option.some_or]

theorem find?_item {n : CompiledNode} (hnodup : program.nodeIds.Nodup) (hn : n ∈ program.nodes)
    (title : String) :
    (Listing.ofProgram program title).functions.find?
        (·.item = "step_" ++ (Names.ofProgram program).of n.id) =
      some (.ofNode program (.ofProgram program) n) := by
  cases hf : (Listing.ofProgram program title).functions.find?
      (·.item = "step_" ++ (Names.ofProgram program).of n.id) with
  | none =>
    have hne := List.find?_eq_none.1 hf _ (List.mem_map_of_mem hn)
    exact absurd (decide_eq_true rfl) hne
  | some f =>
    obtain ⟨m, hm, rfl⟩ := List.mem_map.1 (List.mem_of_find?_eq_some hf)
    have hname : (Names.ofProgram program).of m.id = (Names.ofProgram program).of n.id := by
      simpa [StepFunction.item, StepFunction.ofNode] using List.find?_some hf
    have hid := Names.of_injOn (List.mem_map_of_mem hm) (List.mem_map_of_mem hn) hname
    rw [Program.eq_of_id hnodup hm hn hid]

end Lookup

/-- A program that code can be generated from and run: the names in all inputs are in order, and all
steps are known. -/
structure Sourced (registry : Registry) (graph : Graph) (program : Program) : Prop
    extends program.Layered graph where
  ordered : ∀ n ∈ program.nodes, (Binding.object n.inputs).Ordered
  typed : ∀ n ∈ program.nodes, ∃ d, registry.find? n.stepType = some d

section Calls

variable {graph : Graph} {registry : Registry} {program : Program} {outputs : Outputs}
  {before after : List CompiledNode} {n : CompiledNode}

/-- The variables after the calls of some nodes. -/
def varsAfter (program : Program) (outputs : Outputs) (before : List CompiledNode) : Env :=
  ((before.map (·.id)).reverse.map fun id =>
    ((Names.ofProgram program).of id, .value (outputs.datum id))) ++ runFrame

/-- The map of outputs after the calls of some nodes. -/
def outputsAfter (outputs : Outputs) (before : List CompiledNode) : Outputs :=
  before.foldl (fun found m => found.insert m.id (outputs.datum m.id)) []

theorem varsAfter_concat (before : List CompiledNode) (n : CompiledNode) :
    varsAfter program outputs (before ++ [n]) =
      ((Names.ofProgram program).of n.id, .value (outputs.datum n.id)) ::
        varsAfter program outputs before := by
  simp [varsAfter]

theorem outputsAfter_concat (before : List CompiledNode) (n : CompiledNode) :
    outputsAfter outputs (before ++ [n]) =
      (outputsAfter outputs before).insert n.id (outputs.datum n.id) := List.foldl_append

/-- All that a node reads stands before it. -/
theorem mem_before_of_producers (hp : program.Layered graph)
    (hsplit : program.nodes = before ++ n :: after) {id : String} (hid : id ∈ producers program n) :
    id ∈ before.map (·.id) := by
  have hn : n ∈ program.nodes := by simp [hsplit]
  obtain ⟨m, hm, rfl, -⟩ := hp.before_of_upstream hsplit (upstream_of_mem_producers hp hn hid)
  exact List.mem_map_of_mem hm

/-- The arguments of a call are the data of the nodes that it reads. -/
theorem mapM_arguments (hp : program.Layered graph) (hsplit : program.nodes = before ++ n :: after) :
    (StepCall.ofNode program (.ofProgram program) n).arguments.mapM
        (varsAfter program outputs before).value? =
      some ((producers program n).map outputs.datum) := by
  refine mapM_map_eq_some fun id hid => ?_
  have hbefore := mem_before_of_producers hp hsplit hid
  refine value?_of_nodes program outputs.datum (fun other hother => ?_) [] _ (by simp)
    (List.mem_reverse.2 hbefore)
  obtain ⟨m, hm, rfl⟩ := List.mem_map.1 (List.mem_reverse.1 hother)
  exact List.mem_map_of_mem (hsplit ▸ List.mem_append_left _ hm)

/-- The variables of a function hold all that its node reads. -/
theorem holds_frame (hp : program.Layered graph) (hsplit : program.nodes = before ++ n :: after)
    (hbefore : ∀ m ∈ before, (outputs.lookup m.id).isSome) :
    ((StepFunction.ofNode program (.ofProgram program) n).frame
        ((producers program n).map outputs.datum)).Holds (.ofProgram program) outputs
      (Binding.fieldReferences n.inputs) := by
  have hn : n ∈ program.nodes := by simp [hsplit]
  intro r hr
  have hup : graph.Upstream r.node n.id :=
    hp.upstream n hn r (by rwa [Binding.fieldReferences_eq_flatMap] at hr)
  obtain ⟨m, hm, hid, -⟩ := hp.before_of_upstream hsplit hup
  have hknown : r.node ∈ program.nodeIds :=
    hid ▸ List.mem_map_of_mem (hsplit ▸ List.mem_append_left _ hm)
  have hread : r.node ∈ producers program n :=
    List.mem_filter.2 ⟨hknown, decide_eq_true (List.mem_map_of_mem hr)⟩
  have hvalue := value?_of_nodes program outputs.datum
    (fun id hid => List.mem_of_mem_filter hid) [("input", .other), ("ctx", .other)]
    [("ctx", .other), ("registry", .other)] (by simp [reserved]) hread
  refine ⟨(Names.ofProgram program).of r.node, outputs.datum r.node, Names.lookup_eq_of hknown,
    fun he => Names.of_not_reserved hknown (by simp [he, reserved]), ?_, ?_⟩
  · rw [StepFunction.frame, StepFunction.ofNode, List.map_map, List.zip_map']
    exact hvalue
  · obtain ⟨data, hdata⟩ := Option.isSome_iff_exists.1 (hbefore m hm)
    rw [← hid, Outputs.datum, hdata, Option.getD_some]

/-- A call that has its arguments invokes the step of its node as a run does. -/
theorem invocation_ofNode (hp : program.Layered graph) (hinputs : (Binding.object n.inputs).Ordered)
    (hsplit : program.nodes = before ++ n :: after)
    (hbefore : ∀ m ∈ before, (outputs.lookup m.id).isSome) :
    (StepFunction.ofNode program (.ofProgram program) n).invocation
        ((producers program n).map outputs.datum) = some (n.invocation outputs) := by
  cases hinputs with
  | object hnames hvalues =>
    have hfields := eval_ofBindingFields [] hnames hvalues
      (holds_frame hp hsplit hbefore)
    rw [StepFunction.invocation, if_pos (by simp [StepFunction.ofNode])]
    exact congrArg (Option.map _) hfields

variable (registry) in
/-- One call more, once the nodes before have returned the outputs. -/
theorem runCalls_cons {sem : Invocation → StepResult} (hp : Sourced registry graph program)
    (hsplit : program.nodes = before ++ n :: after)
    (hbefore : ∀ m ∈ before, (outputs.lookup m.id).isSome) (title : String)
    (calls : List StepCall) :
    runCalls (Listing.ofProgram program title).functions registry sem
        (.ofNode program (.ofProgram program) n :: calls) (varsAfter program outputs before)
        (outputsAfter outputs before) =
      match sem (n.invocation outputs) with
      | .failure e => some ⟨[n.invocation outputs], .error e⟩
      | .success data =>
        (runCalls (Listing.ofProgram program title).functions registry sem calls
          (((Names.ofProgram program).of n.id, .value data) :: varsAfter program outputs before)
          ((outputsAfter outputs before).insert n.id data)).map (.after (n.invocation outputs)) := by
  have hn : n ∈ program.nodes := by simp [hsplit]
  obtain ⟨d, hd⟩ := hp.typed n hn
  have hresolve : registry.resolve (n.invocation outputs).stepType = .ok d := by
    rw [Registry.resolve, CompiledNode.invocation, hd]
  have hname : (StepCall.ofNode program (.ofProgram program) n).name =
    (Names.ofProgram program).of n.id := rfl
  simp only [runCalls, hname, find?_item hp.nodup hn title, mapM_arguments hp.toLayered hsplit,
    invocation_ofNode hp.toLayered (hp.ordered n hn) hsplit hbefore, Option.bind_eq_bind,
    Option.bind_some, hresolve]
  cases sem (n.invocation outputs) with
  | failure e => rfl
  | success data => exact Option.map_eq_bind.symm

/-- The step of the node returns its output. -/
def Returns (sem : Invocation → StepResult) (outputs : Outputs) (n : CompiledNode) : Prop :=
  ∃ data, sem (n.invocation outputs) = .success data ∧ outputs.lookup n.id = some data

theorem Returns.isSome {sem : Invocation → StepResult} (h : Returns sem outputs n) :
    (outputs.lookup n.id).isSome := by
  obtain ⟨data, -, hdata⟩ := h
  simp [hdata]

variable (registry) in
/-- The calls of nodes that return their outputs lead to the calls after them. -/
theorem runCalls_append {sem : Invocation → StepResult} (hp : Sourced registry graph program)
    (title : String) (before mid after : List CompiledNode)
    (hsplit : program.nodes = before ++ (mid ++ after))
    (hbefore : ∀ m ∈ before, Returns sem outputs m) (hmid : ∀ m ∈ mid, Returns sem outputs m) :
    runCalls (Listing.ofProgram program title).functions registry sem
        ((mid ++ after).map (.ofNode program (.ofProgram program)))
        (varsAfter program outputs before) (outputsAfter outputs before) =
      (runCalls (Listing.ofProgram program title).functions registry sem
        (after.map (.ofNode program (.ofProgram program)))
        (varsAfter program outputs (before ++ mid)) (outputsAfter outputs (before ++ mid))).map
          fun ran => ⟨mid.map (·.invocation outputs) ++ ran.invoked, ran.result⟩ := by
  induction mid generalizing before with
  | nil => simp
  | cons n mid ih =>
    obtain ⟨hn, hmid⟩ := List.forall_mem_cons.1 hmid
    have hsplit' : program.nodes = (before ++ [n]) ++ (mid ++ after) := by simp [hsplit]
    have hbefore' : ∀ m ∈ before ++ [n], Returns sem outputs m := by
      simpa [or_imp, forall_and] using ⟨hbefore, hn⟩
    have ih := ih _ hsplit' hbefore' hmid
    obtain ⟨data, hsem, hdata⟩ := hn
    have hdatum : outputs.datum n.id = data := by rw [Outputs.datum, hdata, Option.getD_some]
    rw [varsAfter_concat, outputsAfter_concat, hdatum] at ih
    rw [List.cons_append, List.map_cons, runCalls_cons registry hp hsplit
      (fun m hm => (hbefore m hm).isSome) title, hsem]
    dsimp only
    rw [ih, Option.map_map, List.append_assoc, List.singleton_append]
    rfl

end Calls

section Run

variable {graph : Graph} {registry : Registry} {program : Program} {outputs : Outputs}
  {sem : Invocation → StepResult}

/-- If all steps return their outputs, all are invoked and the outputs are returned. -/
theorem run_of_returns (hp : Sourced registry graph program)
    (title : String)
    (h : ∀ n ∈ program.nodes, Returns sem outputs n) :
    (Listing.ofProgram program title).run registry sem =
      some ⟨program.nodes.map (·.invocation outputs), .ok (outputsAfter outputs program.nodes)⟩ := by
  have hcalls := runCalls_append registry hp title [] program.nodes [] (by simp)
    (by simp) h
  rw [List.append_nil, List.nil_append] at hcalls
  rw [Listing.run, Listing.calls_ofProgram hp.toLayered]
  refine hcalls.trans ?_
  simp [runCalls]

/-- The first step that fails is the last that is invoked, and its error is returned. -/
theorem run_of_failure (hp : Sourced registry graph program)
    (title : String)
    {before after : List CompiledNode} {n : CompiledNode}
    (hsplit : program.nodes = before ++ n :: after) (hbefore : ∀ m ∈ before, Returns sem outputs m)
    {e : String} (he : sem (n.invocation outputs) = .failure e) :
    (Listing.ofProgram program title).run registry sem =
      some ⟨(before ++ [n]).map (·.invocation outputs), .error e⟩ := by
  have hcalls := runCalls_append registry hp title [] before (n :: after) hsplit
    (by simp) hbefore
  rw [List.nil_append, List.map_cons, runCalls_cons registry hp hsplit
    (fun m hm => (hbefore m hm).isSome) title, he] at hcalls
  rw [Listing.run, Listing.calls_ofProgram hp.toLayered, hsplit]
  refine hcalls.trans ?_
  simp

end Run

end Code

/-- Steps that call nothing and return what `sem` says. -/
structure Registry.Follows (registry : Registry) (sem : Invocation → StepResult) : Prop where
  silent : registry.Silent
  returns : ∀ d ∈ registry.descriptors, ∀ input ctx o, (d.step input ctx).ComesTo o →
    o = .returned (sem ⟨d.stepType, ctx.node, ctx.integrationId, input⟩)

namespace Executor

variable {x : Executor} {ids : RunIds} {graph : Graph} {program : Program} {R : Results}
  {sem : Invocation → StepResult}

/-- What a node has come to is what its step makes of the outputs. -/
theorem Complete.lookup_eq (hc : x.Complete ids program R) (hx : x.registry.Follows sem)
    (hp : Code.Sourced x.registry graph program) {n : CompiledNode}
    (hn : n ∈ program.nodes) (hid : n.id ∈ R.ids) :
    R.lookup n.id = some (sem (n.invocation R.outputs)) := by
  obtain ⟨r, hr⟩ := Results.mem_ids_iff.1 hid
  obtain ⟨o, hcomes, rfl⟩ := hc.comes n hn r hr
  obtain ⟨d, hd⟩ := hp.typed n hn
  rw [work, Registry.resolve, hd] at hcomes
  obtain rfl := hx.returns d (List.mem_of_find?_eq_some hd) _ _ o hcomes
  rw [hr, Registry.find?_stepType hd]
  rfl

theorem Complete.returns (hc : x.Complete ids program R) (hx : x.registry.Follows sem)
    (hp : Code.Sourced x.registry graph program) {n : CompiledNode}
    (hn : n ∈ program.nodes) (hs : R.Succeeded n.id) : Code.Returns sem R.outputs n := by
  obtain ⟨data, hdata⟩ := Results.succeeded_iff.1 hs
  have hsem := hc.lookup_eq hx hp hn hs.mem_ids
  refine ⟨data, Option.some.inj (hsem.symm.trans hdata), ?_⟩
  rw [Results.lookup_outputs hc.nodup, hdata]
  rfl

/-- What stands before the first failure has succeeded. -/
theorem Complete.succeeded_before (hc : x.Complete ids program R) (hp : program.Layered graph)
    {before after : List CompiledNode} (hsplit : program.nodes = before ++ after)
    (hbefore : ∀ m ∈ before, R.status m.id ≠ .error) : ∀ m ∈ before, R.Succeeded m.id := by
  intro m hm
  have hmem : m ∈ program.nodes := hsplit ▸ List.mem_append_left _ hm
  cases hs : R.status m.id with
  | success => exact hs
  | error => exact absurd hs (hbefore m hm)
  | running => exact absurd hs Results.status_ne_running
  | pending =>
    obtain ⟨a, ha, herror⟩ := (hc.pending_iff hp hmem).1 hs
    obtain ⟨p, q, rfl⟩ := List.append_of_mem hm
    rw [List.append_assoc, List.cons_append] at hsplit
    obtain ⟨k, hk, rfl, -⟩ := hp.before_of_upstream hsplit ha
    exact absurd herror (hbefore k (List.mem_append_left _ hk))

/-- If all nodes have succeeded, the outputs are those of all nodes in their order. -/
theorem Complete.outputs_eq (hc : x.Complete ids program R)
    (h : ∀ n ∈ program.nodes, R.Succeeded n.id) :
    R.outputs = Code.outputsAfter R.outputs program.nodes := by
  have hids : R.map (·.1) = program.nodes.map (·.id) := by
    refine hc.ids_eq.trans (congrArg _ (List.filter_eq_self.2 fun n hn => ?_))
    exact decide_eq_true (hc.ready n hn (h n hn).mem_ids)
  have hR : R = program.nodes.map fun n => (n.id, .success (R.outputs.datum n.id)) := by
    refine eq_map_of_keys (f := (·.1)) hids fun r hr n hn he => ?_
    obtain ⟨data, hdata⟩ := Results.succeeded_iff.1 (h n hn)
    have hlookup : R.outputs.lookup n.id = some data := by
      rw [Results.lookup_outputs hc.nodup, hdata]
      rfl
    have hr : R.lookup r.1 = some r.2 := Results.lookup_of_mem hc.nodup hr
    rw [he, hdata] at hr
    exact Prod.ext he ((Option.some.inj hr).symm.trans (by rw [Outputs.datum, hlookup]; rfl))
  calc R.outputs
      = Results.outputs (program.nodes.map fun n => (n.id, .success (R.outputs.datum n.id))) :=
        congrArg _ hR
    _ = Code.outputsAfter R.outputs program.nodes := List.foldl_map

/-- The steps that a run has started, in the order of the program. -/
def startedOn (program : Program) (R : Results) : List Invocation :=
  (program.nodes.filter fun n => n.Ready R).map (·.invocation R.outputs)

/-- Where no node has failed, generated code returns the outputs. -/
theorem Complete.run_eq_ok (hc : x.Complete ids program R) (hx : x.registry.Follows sem)
    (hp : Code.Sourced x.registry graph program) (title : String)
    (h : ∀ n ∈ program.nodes, R.status n.id ≠ .error) :
    (Code.Listing.ofProgram program title).run x.registry sem =
      some ⟨startedOn program R, .ok R.outputs⟩ := by
  have hall := hc.succeeded_before hp.toLayered (List.append_nil _).symm h
  have hstarted : startedOn program R = program.nodes.map (·.invocation R.outputs) :=
    congrArg _ <| List.filter_eq_self.2 fun n hn =>
      decide_eq_true (hc.ready n hn (hall n hn).mem_ids)
  have hrun := Code.run_of_returns hp title fun n hn =>
    hc.returns hx hp hn (hall n hn)
  rw [← hc.outputs_eq hall, ← hstarted] at hrun
  exact hrun

/-- Where a node has failed and none before it, generated code returns its error. -/
theorem Complete.run_eq_error (hc : x.Complete ids program R) (hx : x.registry.Follows sem)
    (hp : Code.Sourced x.registry graph program) (title : String)
    {before after : List CompiledNode} {n : CompiledNode}
    (hsplit : program.nodes = before ++ n :: after)
    (hbefore : ∀ m ∈ before, R.status m.id ≠ .error) (hn : R.status n.id = .error) :
    ∃ e more, sem (n.invocation R.outputs) = .failure e ∧
      startedOn program R = before.map (·.invocation R.outputs) ++ n.invocation R.outputs :: more ∧
      (Code.Listing.ofProgram program title).run x.registry sem =
        some ⟨(before ++ [n]).map (·.invocation R.outputs), .error e⟩ := by
  have hmem : n ∈ program.nodes := by simp [hsplit]
  have hid : n.id ∈ R.ids := by
    by_contra hnot
    rw [Results.status_eq_pending_iff.2 hnot] at hn
    cases hn
  have hall := hc.succeeded_before hp.toLayered hsplit hbefore
  have hmembefore : ∀ m ∈ before, m ∈ program.nodes := fun m hm =>
    hsplit ▸ List.mem_append_left _ hm
  have hlookup := hc.lookup_eq hx hp hmem hid
  cases he : sem (n.invocation R.outputs) with
  | success data => simp [Results.status, hlookup, he, StepResult.status] at hn
  | failure e =>
    refine ⟨e, (after.filter fun n => n.Ready R).map (·.invocation R.outputs), rfl, ?_,
      Code.run_of_failure hp title hsplit
        (fun m hm => hc.returns hx hp (hmembefore m hm) (hall m hm)) he⟩
    have hready : before.filter (fun n => n.Ready R) = before := List.filter_eq_self.2 fun m hm =>
      decide_eq_true (hc.ready m (hmembefore m hm) (hall m hm).mem_ids)
    have hhead : decide (n.Ready R) = true := decide_eq_true (hc.ready n hmem hid)
    rw [startedOn, hsplit, List.filter_append, hready, List.filter_cons, if_pos hhead, List.map_append,
      List.map_cons]

end Executor

/-- A run of generated code did what a run of the program did. -/
structure Code.Agrees (program : Program) (sem : Invocation → StepResult) (report : ExecutionReport)
    (started : List Invocation) (ran : Code.Ran) : Prop where
  /-- Steps are invoked as they were started, up to some point. -/
  invoked : ran.invoked <+: started
  complete : (∀ n ∈ program.nodes, report.nodes.lookup n.id ≠ some .error) →
    ran = ⟨started, .ok report.outputs⟩
  /-- The first node that has failed is the last that is invoked. -/
  failed : ∀ before n after, program.nodes = before ++ n :: after →
    (∀ m ∈ before, report.nodes.lookup m.id ≠ some .error) →
    report.nodes.lookup n.id = some .error →
    ∃ i e, started[before.length]? = some i ∧ i.node = n.id ∧ sem i = .failure e ∧
      ran = ⟨started.take (before.length + 1), .error e⟩

namespace Executor

variable {x : Executor} {ids : RunIds} {graph : Graph} {program : Program} {R : Results}
  {sem : Invocation → StepResult}

theorem Complete.agrees (hc : x.Complete ids program R) (hx : x.registry.Follows sem)
    (hp : Code.Sourced x.registry graph program) (title : String) :
    ∃ ran, (Code.Listing.ofProgram program title).run x.registry sem = some ran ∧
      Code.Agrees program sem (reportOf ids program R) (startedOn program R) ran := by
  have hstatus : ∀ n ∈ program.nodes, (reportOf ids program R).nodes.lookup n.id = some .error ↔
      R.status n.id = .error := by
    intro n hn
    have hid : n.id ∈ program.nodeIds := List.mem_map_of_mem hn
    rw [lookup_reportOf, and_iff_right hid]
  -- of whatever the code comes to, both cases say what it is
  have hagrees : ∀ ran, (Code.Listing.ofProgram program title).run x.registry sem = some ran →
      ran.invoked <+: startedOn program R →
      Code.Agrees program sem (reportOf ids program R) (startedOn program R) ran := by
    intro ran hran hinvoked
    refine ⟨hinvoked, fun hnone => ?_, fun before n after hsplit hbefore hn => ?_⟩
    · have hok := hc.run_eq_ok hx hp title fun n hn he =>
        hnone n hn ((hstatus n hn).2 he)
      exact Option.some.inj (hran.symm.trans hok)
    · have hmem : n ∈ program.nodes := by simp [hsplit]
      obtain ⟨e, more, he, hstarted, herror⟩ := hc.run_eq_error hx hp title hsplit
        (fun m hm hm' => hbefore m hm ((hstatus m (by simp [hsplit, hm])).2 hm'))
        ((hstatus n hmem).1 hn)
      refine ⟨n.invocation R.outputs, e, by simp [hstarted], rfl, he, ?_⟩
      rw [Option.some.inj (hran.symm.trans herror), hstarted]
      simp [List.take_append]
  cases hfind : program.nodes.find? (R.status ·.id = .error) with
  | none =>
    have hok := hc.run_eq_ok hx hp title fun n hn he =>
      List.find?_eq_none.1 hfind n hn (decide_eq_true he)
    exact ⟨_, hok, hagrees _ hok (List.prefix_refl _)⟩
  | some n =>
    obtain ⟨hn, before, after, hsplit, hbefore⟩ := List.find?_eq_some_iff_append.1 hfind
    obtain ⟨e, more, -, hstarted, herror⟩ := hc.run_eq_error hx hp title hsplit
      (fun m hm => by simpa using hbefore m hm) (of_decide_eq_true hn)
    refine ⟨_, herror, hagrees _ herror ?_⟩
    rw [hstarted]
    exact ⟨more, by simp⟩

end Executor

end Flowgraph
