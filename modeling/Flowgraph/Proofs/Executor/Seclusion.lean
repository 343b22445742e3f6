import Flowgraph.Proofs.Executor.Audit
import Flowgraph.Proofs.Executor.Dataflow
import Flowgraph.Proofs.Executor.Faults
import Flowgraph.Proofs.Executor.Views

/-! A run that is left to itself, in a store that does not fail. What it comes to is determined by the
program: its report, the status on its row, and its log but for the identifiers and the times. -/

namespace Flowgraph

/-- Others leave the execution and its status alone, and no call fails. -/
def Setting.secluded (execution : Uuid) : Setting where
  fails := False
  issues s id := id ≠ execution ∧ ∀ row ∈ s.tables.logs, row.id ≠ id
  others s c := c.Leaves execution s ∧ ∀ st finished, c ≠ .updateStatus execution st finished

namespace Setting

variable (execution : Uuid)

theorem secluded_mints : (secluded execution).Mints execution :=
  ⟨fun _ _ h => h.1, fun _ _ h => h.2⟩

theorem secluded_reserves : (secluded execution).Reserves execution :=
  ⟨⟨fun _ _ h => h.1, fun _ _ _ h => h.1⟩, fun _ _ h => h.1⟩

theorem secluded_unattended : (secluded execution).Unattended execution :=
  ⟨fun _ st finished h => h.2 st finished rfl, fun _ _ _ _ h => h.1⟩

end Setting

namespace MemoryStore

variable {s s' : MemoryStore} {execution : Uuid}

/-- The execution is there, nobody has ended it or logged anything of it, and logs can be written. -/
structure Awaits (s : MemoryStore) (execution : Uuid) : Prop extends
    Executor.Fresh execution s where
  held : s.Holds execution
  writable : s.logWritesFail = false

theorem Awaits.serves (h : s.Awaits execution) : (Setting.secluded execution).Serves execution s :=
  ⟨id, h.writable, h.unlogged⟩

/-- The status that a reader of the row finds. -/
def status? (s : MemoryStore) (execution : Uuid) : Option RunStatus :=
  (s.tables.execution? execution).map (·.status)

theorem status?_eq (hh : s.Holds execution) {st : RunStatus}
    (hst : ∀ row ∈ s.tables.executions, row.id = execution → row.status = st) :
    s.status? execution = some st := by
  obtain ⟨row, hrow, hid⟩ := hh
  cases hfound : s.tables.execution? execution with
  | none => exact absurd hid (by simpa using List.find?_eq_none.1 hfound row hrow)
  | some found =>
    obtain ⟨hmem, hid⟩ := Tables.mem_of_execution? hfound
    rw [status?, hfound, Option.map_some, hst found hmem hid]

theorem execution?_of_updateStatus {supply supply' : Supply} {st : RunStatus} {finished : Bool}
    {e : StoreError}
    (h : s.answer supply (.updateStatus execution st finished) = (.error e, s', supply')) :
    s.tables.execution? execution = none := by
  simp only [answer] at h
  split at h
  · assumption
  · split at h
    · cases h
    · split at h <;> cases h

end MemoryStore

/-- The rows are the same but for their identifiers and the times. -/
structure LogRow.Alike (a b : LogRow) : Prop where
  same : a = { b with id := a.id, startedAt := a.startedAt, finishedAt := a.finishedAt }
  finished : a.finishedAt.isSome = b.finishedAt.isSome

/-- Both stores tell the same of an execution. -/
structure MemoryStore.Concurs (s s' : MemoryStore) (execution : Uuid) : Prop where
  status : s.status? execution = s'.status? execution
  logs : List.Forall₂ LogRow.Alike (s.tables.executionLogs execution)
    (s'.tables.executionLogs execution)

theorem forall₂_of_common {α β γ : Type} {P : α → β → Prop} {Q : α → γ → Prop} {R : β → γ → Prop}
    (hR : ∀ a b c, P a b → Q a c → R b c) {as : List α} {bs : List β} {cs : List γ}
    (hP : List.Forall₂ P as bs) (hQ : List.Forall₂ Q as cs) : List.Forall₂ R bs cs := by
  induction hP generalizing cs with
  | nil => cases hQ; exact .nil
  | cons hab _ ih => cases hQ with
    | cons hac hQ => exact .cons (hR _ _ _ hab hac) (ih hQ)

/-- Two rows that tell of one step are alike. -/
theorem LogRow.Tells.alike {graph : Graph} {report : ExecutionReport} {i : Invocation} {o : Outcome}
    {a b : LogRow} (hn : graph.ids.Nodup) (ha : a.Tells graph report i o)
    (hb : b.Tells graph report i o) : a.Alike b := by
  obtain ⟨n, hnode, hid, hname, htype⟩ := ha.node
  obtain ⟨n', hnode', hid', hname', htype'⟩ := hb.node
  obtain rfl : n = n' := List.inj_on_of_nodup_map hn hnode hnode' (hid.trans hid'.symm)
  have hexec := ha.execution.trans hb.execution.symm
  have hnid := ha.nodeId.trans hb.nodeId.symm
  have hinput := ha.input.trans hb.input.symm
  have houtcome : a.status = b.status ∧ a.output = b.output ∧ a.error = b.error := by
    have hshows := ha.outcome
    have hshows' := hb.outcome
    unfold LogRow.Shows at hshows hshows'
    rcases o with (_ | _) | _ <;> simp_all
  refine ⟨?_, ha.finished.trans hb.finished.symm⟩
  obtain ⟨hstatus, houtput, herror⟩ := houtcome
  cases a
  cases b
  simp_all

namespace Executor

open Flowgraph.Action

variable {x : Executor} {ids : RunIds} {program : Program} {graph : Graph}

theorem Came.unique (hx : x.registry.Silent) (hp : program.Layered graph) {i : Invocation}
    {o o' : Outcome} (h : x.Came ids program i o) (h' : x.Came ids program i o') : o = o' := by
  obtain ⟨n, hn, hid, ho⟩ := h
  obtain ⟨n', hn', hid', ho'⟩ := h'
  obtain rfl := Program.eq_of_id hp.nodup hn hn' (hid.trans hid'.symm)
  exact (silent_work hx ids n i.input).comesTo_unique ho ho'

/-- A run that has come to its end has asked for its row to be written a last time. -/
theorem ensures_closing (hp : program.Layered graph) :
    (x.drive ids program).Ensures (x.Orderly ids program) (Exhausted x.config)
      (fun _ h => ∃ st r, Event.called (.updateStatus ids.execution st true) r ∈ h) [] := by
  rw [drive_eq]
  refine Ensures.bind (ensures_traverse hp) ?_
  rintro out h₁ - ho₁ -
  have hkeep : ∀ listed h', Adds (IsTry (.updateStatus ids.execution
      (Tracker.derivedStatus out.1.run listed) true))
        (h₁ ++ [Event.called (.listLogs ids.execution) listed]) h' → x.Orderly ids program h' :=
    fun _ _ => ho₁.adds_refresh (by simp)
  have hrefresh : (Tracker.refreshStatus x.config ids.execution out.1.run true).Ensures
      (x.Orderly ids program) (Exhausted x.config)
      (fun _ h => ∃ st r, Event.called (.updateStatus ids.execution st true) r ∈ h) h₁ := by
    rw [Tracker.refreshStatus_eq]
    refine Ensures.bind (ensures_ask ho₁ fun listed => hkeep listed _ (.refl _ _)) ?_
    rintro listed _ - - rfl
    refine Ensures.bind (ensures_withRetry (hkeep listed)) ?_
    rintro r h₂ - ho₂ ⟨-, hreplied⟩
    refine ⟨ho₂, Tracker.derivedStatus out.1.run listed, ?_⟩
    rcases r with e | a
    · rcases hreplied.givenUp with hmem | ⟨l, e, -, -, hinfix⟩
      · exact ⟨_, hmem⟩
      · exact ⟨_, hinfix.subset (List.mem_append_right l (List.mem_singleton_self _))⟩
    · exact ⟨_, hreplied.of_ok a rfl⟩
  refine hrefresh.bind ?_
  rintro derived h₂ - ho₂ ⟨st, r, hmem⟩
  refine Ensures.bind (Tracker.ensures_persistedStatus ho₂ fun r => ho₂.snoc rfl) ?_
  rintro _ h₃ hgrow ho₃ -
  exact ⟨ho₃, st, r, hgrow.subset hmem⟩

section

variable {S : Setting} {first s : MemoryStore} {l : List Entry}

/-- A last write that a working store answers is on the row, unless the row was at its end before. -/
theorem status_of_last_write {execution : Uuid} {s' : MemoryStore} {st : RunStatus} {r}
    (hserves : ¬ S.fails) (hheld : s.Holds execution)
    (hclosed : ∀ found ∈ s.tables.executions, found.id = execution →
      found.status.isTerminal = true →
        ∀ row ∈ s.tables.executions, row.id = execution → row.status = st)
    (ha : S.Answers s (.updateStatus execution st true) r s') :
    ∀ row ∈ s'.tables.executions, row.id = execution → row.status = st := by
  intro row hrow hid
  rcases r with e | _ | _
  · obtain ⟨old, hold, holdid⟩ := hheld
    cases ha with
    | refused h => exact absurd h hserves
    | served _ h =>
      have hnone := List.find?_eq_none.1 (MemoryStore.execution?_of_updateStatus h) old hold
      exact absurd holdid (by simpa using hnone)
  · obtain ⟨found, hfound, hterm⟩ := ha.effect.terminal_of_closed
    obtain ⟨hmem, hfoundid⟩ := Tables.mem_of_execution? hfound
    rw [ha.effect.eq_of_closed] at hrow
    exact hclosed found hmem hfoundid hterm row hrow hid
  · exact ha.effect.status_of_updated.2 row hrow hid

/-- Once the run has asked for its row to be written a last time, the row carries the status. -/
theorem written_of_closing (hS : S.Unattended ids.execution) (hserves : ¬ S.fails)
    (hspare : S.Spares ids.execution) (hf : first.Awaits ids.execution) (hr : S.Runs first l s)
    (ho : x.Orderly ids program (own l)) {d : RunStatus} (hd : d.isTerminal = true)
    (hall : ∀ st r, .called (.updateStatus ids.execution st true) r ∈ own l → st = d)
    (hclosed : ∃ st r, .called (.updateStatus ids.execution st true) r ∈ own l) :
    ∀ row ∈ s.tables.executions, row.id = ids.execution → row.status = d := by
  refine hr.keeps (P := fun l s => x.Orderly ids program (own l) →
    (∀ st r, .called (.updateStatus ids.execution st true) r ∈ own l → st = d) →
    (∃ st r, .called (.updateStatus ids.execution st true) r ∈ own l) →
    ∀ row ∈ s.tables.executions, row.id = ids.execution → row.status = d)
    (fun _ _ h => by simp at h) (fun l e s s' hr ih hs ho hall hclosed => ?_)
    ho hall hclosed
  rw [own_append] at ho hall hclosed
  have ih := ih ho.of_append fun st r h => hall st r (List.mem_append_left _ h)
  -- a step that is not the last write itself comes after one
  have hbefore (hquiet : ∀ st r, e ≠ .own (.called (.updateStatus ids.execution st true) r)) :
      ∀ row ∈ s.tables.executions, row.id = ids.execution → row.status = d := by
    refine ih ?_
    obtain ⟨st, r, hmem⟩ := hclosed
    rcases List.mem_append.1 hmem with hmem | hmem
    · exact ⟨st, r, hmem⟩
    · exact absurd (List.mem_singleton.1 (mem_own.1 hmem)).symm (hquiet st r)
  rcases hs.cases with ⟨rfl, hquiet⟩ | ⟨c, r, rfl, ha⟩ | ⟨c, r, rfl, hother, ha⟩
  · exact hbefore fun st r => hquiet _ r
  · rw [own_cons_own, own_nil] at ho hall
    by_cases hlast : ∃ st, c = .updateStatus ids.execution st true
    · obtain ⟨st, rfl⟩ := hlast
      obtain rfl : st = d := hall st r (by simp)
      have hheld := hr.holds hspare (fun w r hmem => ho.of_append.not_deleted w r hmem) hf.held
      refine status_of_last_write hserves hheld (fun found hmem hid hterm => ih ?_) ha
      rcases closed_of_runs hS hf.toFresh hr ho.of_append found hmem hid with hopen | ⟨r, hr⟩
      · exact absurd hterm (by simp [hopen])
      · exact ⟨_, r, hr⟩
    · have hprior := hbefore fun st r' he => hlast ⟨st, (Event.called.inj (Entry.own.inj he)).1⟩
      intro row hrow hid
      rcases ha.effect.execution_origin hrow with hold | ⟨-, w, rfl⟩ |
        ⟨st, finished, old, rfl, -, hold, holdid, hopen⟩
      · exact hprior row hold hid
      · exact ho.allowed.elim
      · rw [hprior old hold (holdid.trans hid), hd] at hopen
        cases hopen
  · intro row hrow hid
    rcases ha.effect.execution_origin hrow with hold | ⟨hnew, w, rfl⟩ |
      ⟨st, finished, old, rfl, -, -, -, -⟩
    · exact hbefore (by rintro _ _ ⟨⟩) row hold hid
    · exact absurd hid (hS.created s w row.id hother hnew)
    · exact absurd (hid ▸ hother) (hS.status s st finished)

end

variable (x ids program graph) in
/-- What a run that is left to itself comes to, and leaves in the store. -/
structure Settled (report : ExecutionReport) (h : List Event) (s : MemoryStore) : Prop where
  complete : x.Complete ids program (tally h).results
  reported : report = reportOf ids program (tally h).results
  started : starts h = (program.nodes.filter fun n => n.Ready (tally h).results).map
    (·.invocation (tally h).results.outputs)
  status : s.status? ids.execution = some report.status
  audited : x.Audited ids program graph report h (s.tables.executionLogs ids.execution)

theorem settled_of_runs (hc : x.compile graph = .ok program) {first s : MemoryStore}
    {l : List Entry} {report : ExecutionReport} (hf : first.Awaits ids.execution)
    (hr : (Setting.secluded ids.execution).Runs first l s)
    (hpath : Action.Path [] (x.drive ids program) (own l) (.done report)) :
    x.Settled ids program graph report (own l) s := by
  have hp := Graph.compile_layered hc
  have ho := orderly_of_path hp hpath
  have he := ended_of_path hp hpath
  have hS := Setting.secluded_unattended ids.execution
  have hres := Setting.secluded_reserves ids.execution
  obtain ⟨hcomplete, hreport, hall⟩ := ended_unattended hp hS hf.toFresh hr ho he
  have hd : report.status.isTerminal = true := by
    rw [hreport, reportOf, hcomplete.derive_eq hp]
    split <;> rfl
  refine ⟨hcomplete, hreport, hcomplete.starts_eq hp ho rfl (he.reported.ids_eq ho), ?_,
    audited_of_runs hc hf.serves (Setting.secluded_mints _) hres hr hpath⟩
  exact MemoryStore.status?_eq (hr.holds hres.toSpares ho.not_deleted hf.held)
    (written_of_closing hS id hres.toSpares hf hr ho hd hall (hpath.ensures (ensures_closing hp)).2)

/-- Two runs of one execution, each left to itself, come to the same. -/
theorem Settled.concurs (hc : x.compile graph = .ok program) (hx : x.registry.Silent)
    {report report' : ExecutionReport} {h h' : List Event} {s s' : MemoryStore}
    (hs : x.Settled ids program graph report h s) (hs' : x.Settled ids program graph report' h' s') :
    report = report' ∧ s.Concurs s' ids.execution := by
  have hp := Graph.compile_layered hc
  have hresults := hs.complete.unique hx hp hs'.complete
  obtain rfl : report = report' := by rw [hs.reported, hs'.reported, hresults]
  refine ⟨rfl, hs.status.trans hs'.status.symm, ?_⟩
  have hstarts : starts h = starts h' := by rw [hs.started, hs'.started, hresults]
  have hends : ends h = ends h' := by
    have hcame := hs.audited.came
    have hcame' := hs'.audited.came
    rw [hstarts] at hcame
    have hunique : Relator.RightUnique (x.Came ids program) := fun _ _ _ => Came.unique hx hp
    exact hunique.forall₂ hcame hcame'
  have htells := hs.audited.tells
  have htells' := hs'.audited.tells
  rw [hstarts, hends] at htells
  have hn := (Graph.compile_eq_ok hc).1.nodup
  refine forall₂_of_common ?_ htells htells'
  exact fun _ _ _ ha hb => ha.alike hn hb

end Executor

/-- The identifier that comes after so many others. -/
def Supply.nth (supply : Supply) (k : Nat) : Uuid := (fresh ⟨supply.serial + k, supply.micros⟩).1

/-- So many identifiers are new to the store, and the one after them; no two are the same. -/
structure Supply.Lasts (supply : Supply) (n : Nat) (s : MemoryStore) (execution : Uuid) : Prop where
  other : ∀ k ≤ n, supply.nth k ≠ execution
  unused : ∀ k ≤ n, ∀ row ∈ s.tables.logs, row.id ≠ supply.nth k
  distinct : ∀ k ≤ n, ∀ j < k, supply.nth j ≠ supply.nth k

/-- A call that creates nothing uses up one identifier for each entry of a log. -/
theorem MemoryStore.serial_of_answer {s s' : MemoryStore} {supply supply' : Supply} {c : Call}
    {r : c.Reply} (hc : c.method ∉ [.createWorkflow, .createExecution])
    (h : s.answer supply c = (r, s', supply')) :
    supply'.serial = supply.serial + (entries [.called c r]).length := by
  cases c with
  | createWorkflow | createExecution => simp [Call.method] at hc
  | listWorkflows | listLogs => cases h; rfl
  | getWorkflow | workflowTeam | deleteWorkflow | getExecution =>
    simp only [answer] at h
    split at h <;> cases h <;> rfl
  | updateStatus =>
    simp only [answer] at h
    split at h
    · cases h; rfl
    · split at h
      · cases h; rfl
      · split at h <;> cases h <;> rfl
  | insertLog =>
    simp only [answer] at h
    split at h <;> cases h <;> rfl
  | completeLog =>
    simp only [answer] at h
    split at h
    · cases h; rfl
    · split at h <;> cases h <;> rfl

namespace Executor

open Flowgraph.Action

variable {x : Executor} {ids : RunIds} {program : Program} {graph : Graph} {w w' : World}
  {h : List Event} {n : Nat}

/-- Where a world without faults stands after what a run has done by itself. -/
structure Serving (ids : RunIds) (w : World) (h : List Event) (w' : World) : Prop where
  runs : (Setting.secluded ids.execution).Runs w.store (h.map .own) w'.store
  faults : w'.faults = []
  serial : w'.supply.serial = w.supply.serial + (entries h).length
  /-- Each entry of the log has got the identifier that was next. -/
  logs : w'.store.tables.logs.map (·.id) =
    w.store.tables.logs.map (·.id) ++ (List.range (entries h).length).map w.supply.nth

namespace Serving

theorem nil (hw : w.faults = []) : Serving ids w [] w :=
  ⟨.nil, hw, rfl, (List.append_nil _).symm⟩

/-- What is no call changes nothing. -/
theorem quiet {e : Event} (hs : Serving ids w h w') (he : ∀ c r, e ≠ .called c r) :
    Serving ids w (h ++ [e]) w' := by
  have hentries := entries_quiet he h
  exact ⟨List.map_append ▸ hs.runs.snoc (.quiet he), hs.faults, hentries ▸ hs.serial,
    hentries ▸ hs.logs⟩

/-- The clock moves nothing but the time. -/
theorem told (hs : Serving ids w h w') :
    Serving ids w (h ++ [Event.told (World.service.now w').1]) (World.service.now w').2 :=
  have hquiet := hs.quiet fun _ _ he => Event.noConfusion he
  ⟨hquiet.runs, hquiet.faults, hquiet.serial, hquiet.logs⟩

theorem fresh_eq (hs : Serving ids w h w') :
    w'.supply.fresh.1 = w.supply.nth (entries h).length := by
  rw [Supply.nth, ← hs.serial]
  rfl

/-- The identifier that is next has not been given out. -/
theorem issues (hs : Serving ids w h w') (hl : w.supply.Lasts n w.store ids.execution)
    (hn : (entries h).length ≤ n) :
    (Setting.secluded ids.execution).issues w'.store w'.supply.fresh.1 := by
  rw [hs.fresh_eq]
  refine ⟨hl.other _ hn, fun row hrow => ?_⟩
  have hid : row.id ∈ w'.store.tables.logs.map (·.id) := List.mem_map_of_mem hrow
  rw [hs.logs] at hid
  rcases List.mem_append.1 hid with hid | hid
  · obtain ⟨old, hold, holdid⟩ := List.mem_map.1 hid
    exact holdid ▸ hl.unused _ hn old hold
  · obtain ⟨k, hk, hid⟩ := List.mem_map.1 hid
    exact hid ▸ hl.distinct _ hn k (List.mem_range.1 hk)

theorem answer {c : Call} (hs : Serving ids w h w') (hl : w.supply.Lasts n w.store ids.execution)
    (hn : (entries h).length ≤ n)
    (ho : x.Orderly ids program (h ++ [Event.called c (World.service.answer w' c).1])) :
    Serving ids w (h ++ [Event.called c (World.service.answer w' c).1])
      (World.service.answer w' c).2 := by
  have hissues := hs.issues hl hn
  have hfresh := hs.fresh_eq
  obtain ⟨hruns, hfaults, hserial, hlogs⟩ := hs
  obtain ⟨store, faults, supply⟩ := w'
  obtain rfl : faults = [] := hfaults
  generalize hanswer : store.answer supply c = a
  obtain ⟨r, store', supply'⟩ := a
  have hworld : World.service.answer ⟨store, [], supply⟩ c = (r, ⟨store', [], supply'⟩) := by
    simp only [World.service, World.answer, Fault.consult, hanswer]
  rw [hworld] at ho ⊢
  have hkept : ∀ w, c ≠ .deleteWorkflow w := by
    rintro w rfl
    exact ho.not_deleted w r (by simp)
  have hmethod : c.method ∉ [.createWorkflow, .createExecution] := by
    have hallowed := ho.allowed
    cases c <;> first | exact hallowed.elim | simp [Call.method]
  have hnow := MemoryStore.serial_of_answer hmethod hanswer
  have heffect : store.tables.Effect (· = supply.fresh.1) c r store'.tables :=
    MemoryStore.effect_of_answer (by rfl) hanswer
  constructor
  case runs =>
    rw [List.map_append]
    exact hruns.snoc (.own (.served hissues hanswer))
  case faults => rfl
  case serial =>
    rw [entries_append, List.length_append, ← Nat.add_assoc, ← hserial]
    exact hnow
  case logs =>
    rw [entries_append, List.length_append]
    rcases heffect.log_ids hkept with ⟨hnone, hsame⟩ | ⟨entry, _, rfl, hone, hmore⟩
    · rw [hsame, hlogs, hnone]
      rfl
    · rw [hmore, hlogs, hone, hfresh, List.length_singleton, List.range_succ, List.map_append,
        List.append_assoc]
      rfl

end Serving

/-- As long as its identifiers last, a world without faults leaves a run to itself. -/
theorem serving_of_performs (hw : w.faults = []) (hl : w.supply.Lasts n w.store ids.execution)
    (hp : World.service.Performs w h w') (ho : x.Orderly ids program h)
    (hn : (entries h).length ≤ n) : Serving ids w h w' := by
  induction hp with
  | nil => exact .nil hw
  | now _ ih =>
    rw [entries_append, List.length_append] at hn
    exact (ih ho.of_append (Nat.le_of_add_right_le hn)).told
  | quiet he _ ih =>
    rw [entries_append, List.length_append] at hn
    exact (ih ho.of_append (Nat.le_of_add_right_le hn)).quiet he
  | call c _ ih =>
    rw [entries_append, List.length_append] at hn
    have hbefore := Nat.le_of_add_right_le hn
    exact (ih ho.of_append hbefore).answer hl hbefore ho

/-- A run that is performed by itself in a world without faults comes to what a run comes to that is
left to itself. -/
theorem perform_settled (hc : x.compile graph = .ok program) (hx : x.registry.Silent)
    (hw : w.faults = []) (hf : w.store.Awaits ids.execution)
    (hl : w.supply.Lasts program.nodes.length w.store ids.execution) :
    ∃ report p h, (x.drive ids program).perform World.service (.new w) = (some report, p) ∧
      x.Settled ids program graph report h p.state.store := by
  have hp := Graph.compile_layered hc
  obtain ⟨h, hpath, hperforms, -⟩ := perform_performs World.service w
    (x.drive ids program) fun _ _ _ _ => silent_of_path hx hp
  have hruns := (hperforms.runs World.backed_of_no_faults hw).1
  generalize hr : (x.drive ids program).perform World.service (.new w) = r at hpath hperforms hruns
  obtain ⟨report, p⟩ := r
  cases report with
  | none =>
    exact absurd (exhausted_of_path hp hpath) (not_exhausted_of_writable hruns hf.writable x.config)
  | some report =>
    have ho := orderly_of_path hp hpath
    -- there are no more entries than nodes
    have hserved : Served h := own_map h ▸ Setting.Serves.not_refused
      (S := .alone False) ⟨id, hf.writable, hf.unlogged⟩ hruns
    have hlen : (entries h).length ≤ program.nodes.length := by
      have hstarted := ((ended_of_path hp hpath).sublist hp).length_le
      rw [List.length_map, Program.nodeIds, List.length_map] at hstarted
      exact (paired_of_path hpath hserved).length_eq.trans_le hstarted
    have hsecluded := (serving_of_performs hw hl hperforms ho hlen).runs
    refine ⟨report, p, h, rfl, ?_⟩
    rw [← own_map h] at hpath ⊢
    exact settled_of_runs hc hf hsecluded hpath

end Executor

end Flowgraph
