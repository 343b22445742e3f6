import Flowgraph.Proofs.Action.Perform
import Flowgraph.Proofs.Executor.Drive
import Flowgraph.Proofs.Run.Overall
import Flowgraph.Proofs.Store.Rows
import Mathlib

/-! A run whose status nobody else writes, and one that is performed by itself, with steps that do
nothing but wait. Nobody stops it, and what the logs tell does not matter to it, so its report
follows from the results. -/

namespace Flowgraph

namespace RunStatus

theorem mostAdvanced_of_terminal {s : RunStatus} (hs : s.isTerminal = true) (l : RunStatus) :
    s.mostAdvanced l = s := by
  rcases isTerminal_iff.1 hs with rfl | rfl <;> cases l <;> rfl

end RunStatus

/-- No step makes calls of its own. -/
def Registry.Silent (registry : Registry) : Prop :=
  ∀ d ∈ registry.descriptors, ∀ input ctx, (d.step input ctx).Silent

/-- Nobody else writes the status of the execution. -/
structure Setting.Unattended (S : Setting) (execution : Uuid) : Prop where
  status : ∀ s st finished, ¬ S.others s (.updateStatus execution st finished)
  created : ∀ s w id, S.others s (.createExecution w) → S.issues s id → id ≠ execution

theorem Setting.alone_unattended (fails : Prop) (execution : Uuid) :
    (Setting.alone fails).Unattended execution :=
  ⟨fun _ _ _ h => h, fun _ _ _ h => h.elim⟩

namespace Executor

open Flowgraph.Action

variable {x : Executor} {ids : RunIds} {program : Program} {graph : Graph} {h : List Event}

theorem silent_work (hx : x.registry.Silent) (ids : RunIds) (n : CompiledNode)
    (input : Fields Json) : (x.work ids n input).Silent := by
  rw [work, Registry.resolve]
  cases hd : x.registry.find? n.stepType with
  | none => trivial
  | some d => exact hx d (List.mem_of_find?_eq_some hd) _ _

theorem silent_of_path (hx : x.registry.Silent) (hp : program.Layered graph) {i : Invocation}
    {w : Work} {next : Action ExecutionReport}
    (p : Action.Path [] (x.drive ids program) h (.spawn i w next)) : w.Silent := by
  have ho : x.Orderly ids program (h ++ [Event.started i w]) :=
    (p.ensures (ensures_drive hp)).2.here
  obtain ⟨n, hd, -⟩ := ho.allowed
  rw [hd.work_eq]
  exact silent_work hx ids n i.input

variable (ids) in
/-- Whoever answers the calls, a run that is performed takes one of its paths. -/
theorem perform_drive {σ : Type} {service : Service σ} {S : Setting} {store : σ → MemoryStore}
    {valid : σ → Prop} (hS : service.Backed S store valid) {s : σ} (hs : valid s)
    (hx : x.registry.Silent) (hp : program.Layered graph) :
    ∃ h, Action.Path [] (x.drive ids program) h
        (ending ((x.drive ids program).perform service (.new s)).1) ∧
      S.Runs (store s) (h.map .own)
        (store ((x.drive ids program).perform service (.new s)).2.state) ∧
      ((x.drive ids program).perform service (.new s)).2.started = starts h :=
  perform_path hS hs _ fun _ _ _ _ => silent_of_path hx hp

variable (ids) in
/-- A run that does not spend the greatest budget of retries comes to a report. -/
theorem perform_drive_done {σ : Type} {service : Service σ} {S : Setting} {store : σ → MemoryStore}
    {valid : σ → Prop} (hS : service.Backed S store valid) {s : σ} (hs : valid s)
    (hx : x.registry.Silent) (hp : program.Layered graph)
    (hmax : ∀ h s', S.Runs (store s) (h.map .own) s' → ¬ Exhausted x.config h) :
    ∃ report h s', ((x.drive ids program).perform service (.new s)).1 = some report ∧
      Action.Path [] (x.drive ids program) h (.done report) ∧
      S.Runs (store s) (h.map .own) s' ∧
      ((x.drive ids program).perform service (.new s)).2.started = starts h := by
  obtain ⟨h, hpath, hruns, hstarts⟩ := perform_drive ids hS hs hx hp
  cases hr : ((x.drive ids program).perform service (.new s)).1 with
  | none =>
    rw [hr] at hpath
    exact absurd (exhausted_of_path hp hpath) (hmax h _ hruns)
  | some report =>
    rw [hr] at hpath
    exact ⟨report, h, _, rfl, hpath, hruns, hstarts⟩

/-- An execution that nobody has ended or logged anything of. -/
structure Fresh (execution : Uuid) (s : MemoryStore) : Prop where
  unended : ∀ row ∈ s.tables.executions, row.id = execution → row.status.isTerminal = false
  unlogged : ∀ row ∈ s.tables.logs, row.execution ≠ execution

section

variable {S : Setting} {first s : MemoryStore} {l : List Entry}

/-- A final status on the row is one that the run has written. -/
theorem closed_of_runs (hS : S.Unattended ids.execution) (hf : Fresh ids.execution first)
    (hr : S.Runs first l s) (ho : x.Orderly ids program (own l)) :
    ∀ row ∈ s.tables.executions, row.id = ids.execution → row.status.isTerminal = false ∨
      ∃ r, .called (.updateStatus ids.execution row.status true) r ∈ own l := by
  refine hr.keeps (P := fun l s => x.Orderly ids program (own l) → ∀ row ∈ s.tables.executions,
    row.id = ids.execution → row.status.isTerminal = false ∨
      ∃ r, .called (.updateStatus ids.execution row.status true) r ∈ own l)
    (fun _ row hrow hid => Or.inl (hf.unended row hrow hid))
    (fun l e s s' _ ih hs ho row hrow hid => ?_) ho
  rw [own_append] at ho ⊢
  have hkept : row ∈ s.tables.executions → row.status.isTerminal = false ∨
      ∃ r, .called (.updateStatus ids.execution row.status true) r ∈ own l ++ own [e] :=
    fun hold => (ih ho.of_append row hold hid).imp_right fun ⟨r, hr⟩ =>
      ⟨r, List.mem_append_left _ hr⟩
  rcases hs.cases with ⟨rfl, -⟩ | ⟨c, r, rfl, ha⟩ | ⟨c, r, rfl, hother, ha⟩
  · exact hkept hrow
  · rw [own_cons_own, own_nil] at ho hkept ⊢
    rcases ha.effect.execution_origin hrow with hold | ⟨-, w, rfl⟩ |
      ⟨st, finished, _, rfl, rfl, -⟩
    · exact hkept hold
    · exact ho.allowed.elim
    · rw [hid] at ho ⊢
      cases finished with
      | true => exact Or.inr ⟨r, by simp⟩
      | false => exact Or.inl (by rw [ho.allowed.2 rfl]; rfl)
  · rcases ha.effect.execution_origin hrow with hold | ⟨hnew, w, rfl⟩ |
      ⟨st, finished, _, rfl, -, -⟩
    · exact hkept hold
    · exact absurd hid (hS.created s w row.id hother hnew)
    · rw [hid] at hother
      exact absurd hother (hS.status s st finished)

/-- What a run reads on its row is open, or it has written that itself. -/
theorem closed_of_read (hS : S.Unattended ids.execution) (hf : Fresh ids.execution first)
    (hr : S.Runs first l s) (ho : x.Orderly ids program (own l)) {before after : List Event}
    {row : ExecutionRow}
    (hh : own l = before ++ .called (.getExecution ids.execution) (.ok row) :: after) :
    row.status.isTerminal = false ∨
      ∃ r, .called (.updateStatus ids.execution row.status true) r ∈ before := by
  obtain ⟨l₁, l₂, s₁, s₂, rfl, rfl, hbefore, ha⟩ := hr.answered_at hh
  rw [own_append] at ho
  obtain ⟨hmem, hid⟩ := ha.effect.mem_of_readExecution
  exact closed_of_runs hS hf hbefore ho.of_append row hmem hid

end

variable (x ids program) in
/-- The results of a run that nobody has stopped: every node that is ready has one. -/
structure Complete (R : Results) : Prop extends x.Sound ids program R where
  ids_eq : R.ids = (program.nodes.filter fun n => n.Ready R).map (·.id)

/-- The nodes that are ready are those that have ended. -/
theorem Complete.mem_ids_iff {R : Results} (hc : x.Complete ids program R) {n : CompiledNode}
    (hn : n ∈ program.nodes) : n.id ∈ R.ids ↔ n.Ready R := by
  constructor
  · exact hc.ready n hn
  · intro hr
    rw [hc.ids_eq]
    exact List.mem_map_of_mem (List.mem_filter.2 ⟨hn, by simpa using hr⟩)

variable (ids program) in
/-- The report that results call for. -/
def reportOf (R : Results) : ExecutionReport where
  execution := ids.execution
  status := .derive (program.nodeIds.map R.status)
  nodes := program.nodeIds.map fun id => (id, R.status id)
  outputs := R.outputs

theorem eq_map_of_keys {α β κ : Type} {f : α → κ} {g : β → α} {l : List α} {m : List β}
    (h : l.map f = m.map fun b => f (g b)) (hinj : ∀ a ∈ l, ∀ b ∈ m, f a = f (g b) → a = g b) :
    l = m.map g := by
  induction l generalizing m with
  | nil => rw [List.map_eq_nil_iff.1 h.symm, List.map_nil]
  | cons a rest ih =>
    cases m with
    | nil => simp at h
    | cons b m =>
      rw [List.map_cons, List.map_cons, List.cons_eq_cons] at h
      rw [List.map_cons, hinj a List.mem_cons_self b List.mem_cons_self h.1,
        ih h.2 fun a ha b hb => hinj a (List.mem_cons_of_mem _ ha) b (List.mem_cons_of_mem _ hb)]

/-- The steps that were started are those of the nodes that are ready, each on the outputs of all
that the node refers to. -/
theorem Complete.starts_eq {R : Results} (hc : x.Complete ids program R)
    (hp : program.Layered graph) (ho : x.Orderly ids program h) (hR : (tally h).results = R)
    (hids : (starts h).map (·.node) = R.ids) :
    starts h = (program.nodes.filter fun n => n.Ready R).map (·.invocation R.outputs) := by
  subst hR
  refine eq_map_of_keys (f := (·.node)) (hids.trans hc.ids_eq) fun i hi n hn he => ?_
  obtain ⟨w, hw⟩ := mem_starts.1 hi
  obtain ⟨before, after, rfl⟩ := List.append_of_mem hw
  obtain ⟨m, hd, -⟩ := ho.allowed
  obtain rfl := hd.invocation_eq
  obtain rfl := Program.eq_of_id hp.nodup hd.mem (List.mem_of_mem_filter hn) he
  have hinput := (ho.of_append.sound hp).resolveInput_eq hp
    (results_grow (List.prefix_append before _)) hc.nodup hd.mem hd.ready
  exact congrArg (Invocation.mk m.stepType m.id m.integrationId) hinput

section

variable {R : Results}

/-- A node that was not started has a failed ancestor, where what is upstream of it ended. -/
theorem Complete.exists_error (hc : x.Complete ids program R) (hp : program.Layered graph) :
    ∀ n ∈ program.nodes, n.id ∉ R.ids → ∃ a, graph.Upstream a n.id ∧ R.status a = .error := by
  refine hp.induction fun n hn ih hpending => ?_
  rw [hc.mem_ids_iff hn, CompiledNode.Ready] at hpending
  push Not at hpending
  obtain ⟨d, hd, hfailed⟩ := hpending
  have hup : graph.Upstream d n.id := .single ((hp.mem_dependencies n hn d).1 hd)
  cases hs : R.status d with
  | error => exact ⟨d, hup, hs⟩
  | success => exact absurd hs hfailed
  | running => exact absurd hs Results.status_ne_running
  | pending =>
    obtain ⟨m, hm, rfl, -⟩ := hp.exists_of_upstream hn hup
    obtain ⟨a, ha, herror⟩ := ih m hm hup (Results.status_eq_pending_iff.1 hs)
    exact ⟨a, ha.trans hup, herror⟩

theorem Complete.pending_iff (hc : x.Complete ids program R) (hp : program.Layered graph)
    {n : CompiledNode} (hn : n ∈ program.nodes) :
    R.status n.id = .pending ↔ ∃ a, graph.Upstream a n.id ∧ R.status a = .error := by
  rw [Results.status_eq_pending_iff]
  constructor
  · exact hc.exists_error hp n hn
  · rintro ⟨a, ha, herror⟩ hid
    have hsuccess := hc.upstream hp hn ((hc.mem_ids_iff hn).1 hid) ha
    rw [Results.Succeeded, herror] at hsuccess
    exact absurd hsuccess (by decide)

theorem Complete.derive_eq (hc : x.Complete ids program R) (hp : program.Layered graph) :
    RunStatus.derive (program.nodeIds.map R.status) =
      if .error ∈ program.nodeIds.map R.status then .error else .success := by
  rw [RunStatus.derive]
  split
  · next herror => rw [if_pos (by simpa using herror)]
  · next hnone =>
    have hnone : .error ∉ program.nodeIds.map R.status := by simpa using hnone
    have hall : ∀ s ∈ program.nodeIds.map R.status, s = .success := by
      intro s hs
      obtain ⟨id, hid, rfl⟩ := List.mem_map.1 hs
      obtain ⟨n, hn, rfl⟩ := List.mem_map.1 hid
      cases hstatus : R.status n.id with
      | success => rfl
      | error => exact absurd (hstatus ▸ hs) hnone
      | running => exact absurd hstatus Results.status_ne_running
      | pending =>
        obtain ⟨a, ha, herror⟩ := (hc.pending_iff hp hn).1 hstatus
        obtain ⟨m, hm, rfl, -⟩ := hp.exists_of_upstream hn ha
        exact absurd (herror ▸ List.mem_map_of_mem (List.mem_map_of_mem hm)) hnone
    rw [if_pos (by simpa using hall), if_neg hnone]

/-- What the logs tell does not matter to a run whose results are complete: a node without a result is
left out because another one has failed. -/
theorem Complete.derivedStatus_eq (hc : x.Complete ids program R) (hp : program.Layered graph)
    {run : RunState} (hs : run.Shows program.nodeIds R [])
    (listed : Except StoreError (List LogRow)) :
    Tracker.derivedStatus run listed = .derive (program.nodeIds.map R.status) := by
  rw [hc.derive_eq hp, Tracker.derivedStatus, mergedStatuses, hs.snapshot, List.map_map]
  generalize hraise : (_ ∘ fun id => (id, R.status id)) = raise
  have hkept : ∀ id, (R.status id).isTerminal = true → raise id = R.status id := by
    intro id hfinal
    rw [← hraise, Function.comp]
    dsimp only
    split
    · exact RunStatus.mostAdvanced_of_terminal hfinal _
    · rfl
  split
  · next herror =>
    obtain ⟨id, hid, hstatus⟩ := List.mem_map.1 herror
    refine RunStatus.derive_eq_error_iff.2 (List.mem_map.2 ⟨id, hid, ?_⟩)
    rw [hkept id (by rw [hstatus]; rfl), hstatus]
  · next hnone =>
    have hplain := hc.derive_eq hp
    rw [if_neg hnone, RunStatus.derive_eq_success_iff] at hplain
    refine RunStatus.derive_eq_success_iff.2 fun s hs => ?_
    obtain ⟨id, hid, rfl⟩ := List.mem_map.1 hs
    have hstatus := hplain _ (List.mem_map_of_mem hid)
    rw [hkept id (by rw [hstatus]; rfl), hstatus]

end

/-- What a run comes to if nobody else writes its status, whatever part of its calls has failed. -/
theorem ended_unattended {S : Setting} {first s : MemoryStore} {l : List Entry}
    (hp : program.Layered graph) (hS : S.Unattended ids.execution)
    (hf : Fresh ids.execution first) (hr : S.Runs first l s)
    (ho : x.Orderly ids program (own l)) {report : ExecutionReport}
    (he : x.Ended ids program report (own l)) :
    x.Complete ids program (tally (own l)).results ∧
      report = reportOf ids program (tally (own l)).results ∧
      ∀ st r, .called (.updateStatus ids.execution st true) r ∈ own l → st = report.status := by
  have hids := he.reported.ids_eq ho
  obtain ⟨c, stopped, h₁, listed, reading, mid, hhalt, hmid, hh, rfl⟩ := he
  obtain ⟨done, todo, hdone, htodo, hb⟩ := hhalt.boundary
  obtain ⟨ht, hs⟩ := closing_eq hmid hh
  -- nobody stops the run, so no stage is left over
  have hu : Unstopped ids.execution h₁ := by
    intro row hrow
    obtain ⟨before, after, rfl⟩ := List.append_of_mem hrow
    rw [List.append_assoc, List.append_assoc, List.cons_append] at hh
    rcases closed_of_read hS hf hr ho hh with hopen | ⟨r, hu⟩
    · exact hopen
    · exact absurd (hb.fits _ (List.mem_append_left _ hu)) (by simp [Event.Fits])
  obtain rfl : stopped = false := hhalt.stopped.2 hu
  obtain rfl := htodo rfl
  rw [List.append_nil] at hdone
  rw [hdone, hp.flatMap_stageNodes] at hb
  have hcomplete : x.Complete ids program (tally (own l)).results :=
    ⟨ho.sound hp, by rw [← hids, hs, hb.started, ht]⟩
  have hderived := hcomplete.derivedStatus_eq hp (ht ▸ hb.shows) listed
  -- a final status that is written is the one that the run has derived
  have hwritten : ∀ st r, .called (.updateStatus ids.execution st true) r ∈ own l →
      st = Tracker.derivedStatus c.run listed := by
    intro st r hupdate
    rw [hh, List.append_assoc] at hupdate
    rcases List.mem_append.1 hupdate with hupdate | hupdate
    · exact absurd (hb.fits _ hupdate) (by simp [Event.Fits])
    · rcases List.mem_cons.1 hupdate with hupdate | hupdate
      · simp at hupdate
      · rcases List.mem_append.1 hupdate with hupdate | hupdate
        · have htry := hmid _ hupdate
          simpa [IsTry] using htry
        · simp at hupdate
  have hfinal : finalStatus (reading.toOption.map (·.status)) false
      (Tracker.derivedStatus c.run listed) = Tracker.derivedStatus c.run listed := by
    rcases reading with e | row
    · rfl
    rcases closed_of_read hS hf hr ho hh with hopen | ⟨r, hupdate⟩
    · simp [Except.toOption, finalStatus, hopen]
    · have hstatus : row.status = Tracker.derivedStatus c.run listed :=
        hwritten _ r (hh ▸ List.mem_append_left _ hupdate)
      simp [Except.toOption, finalStatus, hstatus]
  refine ⟨hcomplete, ?_, fun st r hupdate => (hwritten st r hupdate).trans hfinal.symm⟩
  rw [reportOf, hfinal, hderived, hb.shows.snapshot, hb.outputs, ht]

variable (ids) in
/-- A run on its own comes to the report of its results, and starts the nodes that are ready. -/
theorem perform_drive_alone {σ : Type} {service : Service σ} {fails : Prop}
    {store : σ → MemoryStore} {valid : σ → Prop} (hS : service.Backed (.alone fails) store valid)
    {s : σ} (hs : valid s) (hx : x.registry.Silent) (hp : program.Layered graph)
    (hf : Fresh ids.execution (store s))
    (hmax : ∀ h s', (Setting.alone fails).Runs (store s) (h.map .own) s' →
      ¬ Exhausted x.config h) :
    ∃ R, x.Complete ids program R ∧
      ((x.drive ids program).perform service (.new s)).1 = some (reportOf ids program R) ∧
      ((x.drive ids program).perform service (.new s)).2.started =
        (program.nodes.filter fun n => n.Ready R).map (·.invocation R.outputs) := by
  obtain ⟨report, h, s', hreport, hpath, hruns, hstarts⟩ := perform_drive_done ids hS hs hx hp hmax
  rw [← own_map h] at hpath hstarts
  have ho := orderly_of_path hp hpath
  have he := ended_of_path hp hpath
  obtain ⟨hcomplete, rfl, -⟩ :=
    ended_unattended hp (Setting.alone_unattended fails _) hf hruns ho he
  refine ⟨_, hcomplete, hreport, ?_⟩
  rw [hstarts]
  exact hcomplete.starts_eq hp ho rfl (he.reported.ids_eq ho)

end Executor

/-- Two nodes, the second of which takes up a value of the first. -/
def Graph.relay : Graph where
  nodes := [
    ⟨"first", "echo", some "A", [("value", .bool true)]⟩,
    ⟨"second", "echo", some "B", [("value", .string "\x7b\x7bA.value\x7d\x7d")]⟩]
  edges := [⟨"first", "second"⟩]

/-- Knows no step but the one that returns its input. -/
def Executor.echoing : Executor := ⟨⟨[Step.echoDescriptor]⟩, .default, .none⟩

/-- A single node whose step fails. -/
def Workflow.lone : Workflow :=
  ⟨.ofNat 1, .nil, "lone", ⟨[⟨"only", "broken", none, []⟩], []⟩, ⟨0, 0⟩⟩

/-- Knows no step but one that fails. -/
def Executor.failing : Executor where
  registry := ⟨[⟨"broken", [], fun _ _ => .done (.returned (.failure "out of order"))⟩]⟩
  config := ⟨0, .ofMillis 1⟩
  credentials := .none

theorem Executor.failing_silent : failing.registry.Silent := by
  intro d hd input ctx
  obtain rfl := List.mem_singleton.1 hd
  trivial

theorem Executor.lone_compiles : failing.compile Workflow.lone.graph =
    .ok ⟨[⟨"only", "only", "broken", 0, [], [], none⟩], [⟨0, ["only"]⟩]⟩ := by
  cbv

/-- A store in which the execution has been created. -/
def MemoryStore.opened (ids : RunIds) : MemoryStore :=
  ⟨⟨[], [⟨ids.execution, ids.workflow, .pending, ⟨0, 0⟩, none⟩], []⟩, false, 0⟩

theorem Executor.fresh_opened (ids : RunIds) : Fresh ids.execution (.opened ids) := by
  constructor
  · intro row hrow _
    obtain rfl := List.mem_singleton.1 hrow
    rfl
  · simp [MemoryStore.opened]

theorem Executor.relay_compiles : ∃ program, echoing.compile .relay = .ok program := by
  have hok : (echoing.compile .relay).isOk = true := by cbv
  exact Graph.compiles_of_isOk hok

theorem Executor.echoing_silent : echoing.registry.Silent := by
  intro d hd input ctx
  obtain rfl := List.mem_singleton.1 hd
  trivial

theorem Executor.not_exhausted {x : Executor}
    (hmax : x.config.maxLogRetries.toNat + 1 < UInt32.size) (h : List Event) :
    ¬ Exhausted x.config h :=
  fun he => Nat.ne_of_lt hmax he.1

end Flowgraph
