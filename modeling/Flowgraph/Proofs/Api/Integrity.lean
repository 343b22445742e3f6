import Flowgraph.Proofs.Api.Process
import Flowgraph.Proofs.Executor.Driven
import Flowgraph.Proofs.Executor.Numbered
import Flowgraph.Proofs.Store.Parents

/-! Any number of requests over one store, each with the run that it starts. The store does not look
whether the workflow of a new execution or the execution of a new attempt is there. A row whose
parent is missing has been written after the parent was deleted, by a request that had seen it
before. -/

namespace Flowgraph

/-- A request with the run that it starts, or a call of a step that writes no new execution and no
new attempt. -/
inductive Caller
  | request (x : Executor) (r : Api.Request)
  | step (c : Call) (h : c.Plain)

def Caller.action : Caller → Action Unit
  | request x r => Api.process x r
  | step c _ => (Action.ask c).bind fun _ => .done ()

namespace Caller

variable {caller : Caller} {h : List Event} {rest : Action Unit}

/-- A step writes no new row. -/
theorem plain_of_step {c : Call} {e : Event} (hc : c.Plain)
    (p : Action.Path [] ((Action.ask c).bind fun _ => .done ()) (h ++ [e]) rest) :
    e.Asks Call.Plain := by
  have hasks : ((Action.ask c).bind fun _ => Action.done ()).Asks Call.Plain :=
    ⟨hc, fun _ => trivial⟩
  exact (p.ensures (hasks.ensures plain_nil)).here e (by simp)

theorem read {w : Uuid} {reply : (Call.createExecution w).Reply}
    (p : Action.Path [] caller.action (h ++ [Event.called (.createExecution w) reply]) rest) :
    ∃ id v, Event.called (.getWorkflow id) (.ok v) ∈ h ∧ v.id = w := by
  cases caller with
  | request x r => exact (Api.did_of_path (x := x) (r := r) p).read
  | step c hc => exact absurd rfl (plain_of_step hc p).1

theorem created {entry : LogEntry} {reply : (Call.insertLog entry).Reply}
    (p : Action.Path [] caller.action (h ++ [Event.called (.insertLog entry) reply]) rest) :
    ∃ w row, Event.called (.createExecution w) (.ok row) ∈ h ∧ row.id = entry.execution := by
  cases caller with
  | request x r => exact (Api.did_of_path (x := x) (r := r) p).created
  | step c hc => exact absurd rfl (plain_of_step hc p).2

end Caller

/-- Requests and steps, and the store that they find. -/
structure Traffic (ι : Type) where
  caller : ι → Caller
  first : MemoryStore
  linked : first.tables.Linked

namespace Traffic

section

variable {ι : Type} (traffic : Traffic ι)

def start : Moment ι := ⟨[], traffic.first⟩

/-- Calls may fail, and an execution is given an identifier of its own. -/
def setting (past : List (ι × Event)) : Setting where
  fails := True
  issues s id := ¬ s.tables.HasExecution id ∧
    ∀ i w row, (i, .called (.createExecution w) (.ok row)) ∈ past → row.id ≠ id
  others := fun _ _ => False

variable [DecidableEq ι]

/-- One of them takes a turn. -/
inductive Turn : Moment ι → Moment ι → Prop
  | take {m i e s} :
    (∃ rest, Action.Path [] (traffic.caller i).action (eventsOf i m.past ++ [e]) rest) →
    (setting m.past).Step m.store (.own e) s → Turn m ⟨m.past ++ [(i, e)], s⟩

/-- They can come there from the start. -/
def Reaches (m : Moment ι) : Prop := Relation.ReflTransGen traffic.Turn traffic.start m

end

section

variable {ι : Type}

/-- The execution has been created for a request that had read its workflow before somebody deleted
it. -/
def Late (past : List (ι × Event)) (row : ExecutionRow) : Prop :=
  ∃ i j v new, new.id = row.id ∧
    [(i, .called (.getWorkflow row.workflow) (.ok v)),
      (j, .called (.deleteWorkflow row.workflow) (.ok ())),
      (i, .called (.createExecution row.workflow) (.ok new))].Sublist past

/-- The attempt has been written for a run whose execution had been created before somebody deleted
the workflow. -/
def LateLog (past : List (ι × Event)) (log : LogRow) : Prop :=
  ∃ i j w row entry new, row.id = log.execution ∧ new.id = log.id ∧
    [(i, .called (.createExecution w) (.ok row)), (j, .called (.deleteWorkflow w) (.ok ())),
      (i, .called (.insertLog entry) (.ok new))].Sublist past

/-- What holds at every moment: what has been seen stands, or has been deleted since. -/
structure Kept (m : Moment ι) : Prop where
  read : ∀ i w v, (i, .called (.getWorkflow w) (.ok v)) ∈ m.past → v.id = w ∧
    (m.store.tables.HasWorkflow w ∨ ∃ j, [(i, .called (.getWorkflow w) (.ok v)),
      (j, .called (.deleteWorkflow w) (.ok ()))].Sublist m.past)
  created : ∀ i w row, (i, .called (.createExecution w) (.ok row)) ∈ m.past →
    m.store.tables.HasExecution row.id ∨ ∃ j, [(i, .called (.createExecution w) (.ok row)),
      (j, .called (.deleteWorkflow w) (.ok ()))].Sublist m.past
  owned : ∀ i w row, (i, .called (.createExecution w) (.ok row)) ∈ m.past →
    ∀ stood ∈ m.store.tables.executions, stood.id = row.id → stood.workflow = w
  executions : ∀ row ∈ m.store.tables.executions,
    m.store.tables.HasWorkflow row.workflow ∨ Late m.past row
  logs : ∀ log ∈ m.store.tables.logs,
    m.store.tables.HasExecution log.execution ∨ LateLog m.past log

variable {traffic : Traffic ι} {m m' : Moment ι} {i : ι} {e : Event} {s : MemoryStore}

theorem kept_start (traffic : Traffic ι) : Kept traffic.start :=
  ⟨by simp [start], by simp [start], by simp [start],
    fun row hrow => Or.inl (traffic.linked.executions row hrow),
    fun log hlog => Or.inl (traffic.linked.logs log hlog)⟩

theorem Late.grows {past : List (ι × Event)} {row : ExecutionRow} (h : Late past row)
    (p : ι × Event) : Late (past ++ [p]) row := by
  obtain ⟨i, j, v, new, hid, hsub⟩ := h
  exact ⟨i, j, v, new, hid, hsub.trans (List.sublist_append_left _ _)⟩

theorem LateLog.grows {past : List (ι × Event)} {log : LogRow} (h : LateLog past log)
    (p : ι × Event) : LateLog (past ++ [p]) log := by
  obtain ⟨i, j, w, row, entry, new, hrow, hnew, hsub⟩ := h
  exact ⟨i, j, w, row, entry, new, hrow, hnew, hsub.trans (List.sublist_append_left _ _)⟩

/-- What has been seen and is deleted now has been deleted since. -/
theorem deleted_now {past : List (ι × Event)} {p : ι × Event} (hp : p ∈ past) (q : ι × Event) :
    [p, q].Sublist (past ++ [q]) :=
  (List.singleton_sublist.2 hp).append (List.Sublist.refl [q])

theorem mem_past_append {past : List (ι × Event)} {p q : ι × Event} (hp : p ∈ past ++ [q]) :
    p ∈ past ∨ p = q :=
  (List.mem_append.1 hp).imp_right List.mem_singleton.1

section

variable (hm : Kept m) (hs : (setting m.past).Step m.store (.own e) s)

include hm hs

theorem Kept.read_turn {k : ι} {w : Uuid} {v : WorkflowRow}
    (hread : (k, .called (.getWorkflow w) (.ok v)) ∈ m.past ++ [(i, e)]) :
    v.id = w ∧ (s.tables.HasWorkflow w ∨ ∃ j, [(k, .called (.getWorkflow w) (.ok v)),
      (j, .called (.deleteWorkflow w) (.ok ()))].Sublist (m.past ++ [(i, e)])) := by
  rcases mem_past_append hread with hbefore | heq
  · obtain ⟨hid, hstood | ⟨j, hsub⟩⟩ := hm.read k w v hbefore
    · refine ⟨hid, (hs.has_workflow hstood).imp_right ?_⟩
      rintro rfl
      exact ⟨i, deleted_now hbefore _⟩
    · exact ⟨hid, Or.inr ⟨j, hsub.trans (List.sublist_append_left _ _)⟩⟩
  · obtain ⟨rfl, rfl⟩ := Prod.mk.inj heq
    cases hs with
    | quiet he => exact absurd rfl (he _ _)
    | own ha => exact ⟨ha.read_workflow.1, Or.inl ha.read_workflow.2⟩

theorem Kept.created_turn {k : ι} {w : Uuid} {row : ExecutionRow}
    (hcreated : (k, .called (.createExecution w) (.ok row)) ∈ m.past ++ [(i, e)]) :
    s.tables.HasExecution row.id ∨ ∃ j, [(k, .called (.createExecution w) (.ok row)),
      (j, .called (.deleteWorkflow w) (.ok ()))].Sublist (m.past ++ [(i, e)]) := by
  rcases mem_past_append hcreated with hbefore | heq
  · rcases hm.created k w row hbefore with hstood | ⟨j, hsub⟩
    · refine (hs.has_execution hstood).imp_right ?_
      rintro ⟨stood, hmem, hid, rfl⟩
      rw [hm.owned k w row hbefore stood hmem hid]
      exact ⟨i, deleted_now hbefore _⟩
    · exact Or.inr ⟨j, hsub.trans (List.sublist_append_left _ _)⟩
  · obtain ⟨rfl, rfl⟩ := Prod.mk.inj heq
    cases hs with
    | quiet he => exact absurd rfl (he _ _)
    | own ha => exact Or.inl ⟨row, ha.effect.of_created.2.2, rfl⟩

/-- An identifier is given out once, so the execution that carries it is of the workflow that it has
been created for. -/
theorem Kept.owned_turn {k : ι} {w : Uuid} {row : ExecutionRow}
    (hcreated : (k, .called (.createExecution w) (.ok row)) ∈ m.past ++ [(i, e)])
    {stood : ExecutionRow} (hstood : stood ∈ s.tables.executions) (hid : stood.id = row.id) :
    stood.workflow = w := by
  rcases hs.execution_of hstood with ⟨old, hold, hoid, howned, -⟩ | ⟨hnew, -, he⟩
  · rcases mem_past_append hcreated with hbefore | heq
    · exact howned.symm.trans (hm.owned k w row hbefore old hold (hoid.trans hid))
    · obtain ⟨rfl, rfl⟩ := Prod.mk.inj heq
      cases hs with
      | quiet he => exact absurd rfl (he _ _)
      | own ha => exact absurd ⟨old, hold, hoid.trans hid⟩ ha.effect.issued_of_created.1
  · rcases mem_past_append hcreated with hbefore | heq
    · exact absurd hid.symm (hnew.2 k w row hbefore)
    · obtain ⟨rfl, rfl⟩ := Prod.mk.inj heq
      exact (Call.createExecution.inj (Event.called.inj he).1).symm

variable [DecidableEq ι]

theorem Kept.executions_turn {rest : Action Unit} {caller : Caller}
    (p : Action.Path [] caller.action (eventsOf i m.past ++ [e]) rest) {row : ExecutionRow}
    (hrow : row ∈ s.tables.executions) :
    s.tables.HasWorkflow row.workflow ∨ Late (m.past ++ [(i, e)]) row := by
  rcases hs.execution_of hrow with ⟨old, hold, hid, howned, he⟩ | ⟨-, hworkflows, rfl⟩
  · rcases hm.executions old hold with hstood | ⟨k, j, v, new, hnew, hsub⟩
    · exact Or.inl ((hs.has_workflow (howned ▸ hstood)).resolve_right he)
    · rw [howned] at hsub
      have hlate : Late m.past row := ⟨k, j, v, new, hnew.trans hid, hsub⟩
      exact Or.inr (hlate.grows _)
  · obtain ⟨id, v, hread, hv⟩ := Caller.read p
    have hread := mem_past hread
    obtain ⟨hid, hstood | ⟨j, hsub⟩⟩ := hm.read i id v hread
    · obtain rfl := hid.symm.trans hv
      exact Or.inl (by rwa [Tables.HasWorkflow, hworkflows])
    · obtain rfl := hid.symm.trans hv
      exact Or.inr ⟨i, j, v, row, rfl, hsub.append (List.Sublist.refl [_])⟩

theorem Kept.logs_turn {rest : Action Unit} {caller : Caller}
    (p : Action.Path [] caller.action (eventsOf i m.past ++ [e]) rest) {log : LogRow}
    (hlog : log ∈ s.tables.logs) :
    s.tables.HasExecution log.execution ∨ LateLog (m.past ++ [(i, e)]) log := by
  rcases hs.log_of hlog with ⟨old, hold, hid, hof, he⟩ | ⟨hexecutions, entry, hof, rfl⟩
  · rcases hm.logs old hold with hstood | ⟨k, j, w, row, entry, new, hrow, hnew, hsub⟩
    · refine Or.inl ((hs.has_execution (hof ▸ hstood)).resolve_right ?_)
      rintro ⟨row, hrow, hid, hdeleted⟩
      exact he row hrow hid hdeleted
    · have hlate : LateLog m.past log :=
        ⟨k, j, w, row, entry, new, hrow.trans hof, hnew.trans hid, hsub⟩
      exact Or.inr (hlate.grows _)
  · obtain ⟨w, row, hcreated, hrow⟩ := Caller.created p
    have hcreated := mem_past hcreated
    rcases hm.created i w row hcreated with hstood | ⟨j, hsub⟩
    · rw [hrow, hof] at hstood
      exact Or.inl (by rwa [Tables.HasExecution, hexecutions])
    · exact Or.inr ⟨i, j, w, row, entry, log, hrow.trans hof, rfl,
        hsub.append (List.Sublist.refl [_])⟩

end

variable [DecidableEq ι]

theorem Kept.turn (hm : Kept m) (h : traffic.Turn m m') : Kept m' := by
  obtain ⟨⟨rest, p⟩, hs⟩ := h
  exact ⟨fun _ _ _ => hm.read_turn hs, fun _ _ _ => hm.created_turn hs,
    fun _ _ _ hcreated _ hstood => hm.owned_turn hs hcreated hstood,
    fun _ => hm.executions_turn hs p, fun _ => hm.logs_turn hs p⟩

theorem Reaches.kept (h : traffic.Reaches m) : Kept m := by
  induction h with
  | refl => exact kept_start traffic
  | tail _ hturn ih => exact ih.turn hturn

/-- What can be said of the rows at a moment. -/
structure Accounted (m : Moment ι) : Prop where
  executions : ∀ row ∈ m.store.tables.executions,
    m.store.tables.HasWorkflow row.workflow ∨ Late m.past row
  logs : ∀ log ∈ m.store.tables.logs,
    m.store.tables.HasExecution log.execution ∨ LateLog m.past log
  undeleted : (∀ i w, (i, .called (.deleteWorkflow w) (.ok ())) ∉ m.past) → m.store.tables.Linked

/-- Whatever turns requests, runs and steps take, a row whose parent is missing has been written
after the workflow was deleted, by a request or a run that had seen the parent before. -/
theorem dangling_late (h : traffic.Reaches m) : Accounted m := by
  have hkept := h.kept
  refine ⟨hkept.executions, hkept.logs, fun hnone => ⟨fun row hrow => ?_, fun log hlog => ?_⟩⟩
  · refine (hkept.executions row hrow).resolve_right ?_
    rintro ⟨i, j, v, new, -, hsub⟩
    exact hnone j row.workflow (hsub.subset (by simp))
  · refine (hkept.logs log hlog).resolve_right ?_
    rintro ⟨i, j, w, row, entry, new, -, -, hsub⟩
    exact hnone j w (hsub.subset (by simp))

/-- The executions so far carry the first identifiers. -/
structure Counted (traffic : Traffic ι) (n : Nat) (m : Moment ι) : Prop where
  reaches : traffic.Reaches m
  standing : ∀ row ∈ m.store.tables.executions, ∃ k < n, row.id = (Supply.fresh ⟨k, 0⟩).1
  created : ∀ i w row, (i, .called (.createExecution w) (.ok row)) ∈ m.past →
    ∃ k < n, row.id = (Supply.fresh ⟨k, 0⟩).1

theorem Counted.quiet {n : Nat} (hm : Counted traffic n m) (he : ∀ c r, e ≠ .called c r)
    (hmay : ∃ rest, Action.Path [] (traffic.caller i).action (eventsOf i m.past ++ [e]) rest) :
    Counted traffic n ⟨m.past ++ [(i, e)], m.store⟩ := by
  refine ⟨hm.reaches.tail (.take hmay (.quiet he)), hm.standing, fun j w row hcreated => ?_⟩
  rcases mem_past_append hcreated with hcreated | heq
  · exact hm.created j w row hcreated
  · exact absurd (Prod.mk.inj heq).2.symm (he _ _)

theorem Counted.answered {n : Nat} (hm : Counted traffic n m) (hn : n < 2 ^ 64) (c : Call)
    (hmay : ∃ rest, Action.Path [] (traffic.caller i).action
      (eventsOf i m.past ++ [Event.called c (m.store.answer ⟨n, 0⟩ c).1]) rest) :
    Counted traffic (n + 1) (m.answered i ⟨n, 0⟩ c) := by
  have hnew : ∀ {id : Uuid}, (∃ k < n, id = (Supply.fresh ⟨k, 0⟩).1) →
      id ≠ (Supply.fresh ⟨n, 0⟩).1 := by
    rintro _ ⟨k, hk, rfl⟩
    exact Supply.fresh_ne hk hn
  have hmore : ∀ {id : Uuid}, (∃ k < n, id = (Supply.fresh ⟨k, 0⟩).1) →
      ∃ k < n + 1, id = (Supply.fresh ⟨k, 0⟩).1 := by
    rintro id ⟨k, hk, hid⟩
    exact ⟨k, hk.trans n.lt_succ_self, hid⟩
  have heffect : m.store.tables.Effect (· = (Supply.fresh ⟨n, 0⟩).1) c
      (m.store.answer ⟨n, 0⟩ c).1 (m.answered i ⟨n, 0⟩ c).store.tables :=
    MemoryStore.effect_of_answer (by rfl) rfl
  refine ⟨hm.reaches.tail (.take hmay (.own (.served ⟨?_, fun j w row hcreated =>
    hnew (hm.created j w row hcreated)⟩ rfl))), fun row hrow => ?_, fun j w row hcreated => ?_⟩
  · rintro ⟨row, hrow, hid⟩
    exact hnew (hm.standing row hrow) hid
  · rcases heffect.execution_of hrow with ⟨old, hold, hid, -⟩ | ⟨hid, -⟩
    · exact hid ▸ hmore (hm.standing old hold)
    · exact ⟨n, n.lt_succ_self, hid⟩
  · rcases mem_past_append hcreated with hcreated | heq
    · exact hmore (hm.created j w row hcreated)
    · obtain ⟨rfl, hrow⟩ := Event.called.inj (Prod.mk.inj heq).2
      rw [← eq_of_heq hrow] at heffect
      exact ⟨n, n.lt_succ_self, heffect.issued_of_created⟩

end

section

open Api

/-- A workflow is run, and deleted meanwhile. -/
def overtaken : Traffic Bool where
  caller
    | true => .request .failing (about "POST" "/execute")
    | false => .request .failing (about "DELETE" "")
  first := ⟨⟨[⟨.ofNat 1, .nil, "lone", Workflow.lone.graph.toJson, ⟨0, 0⟩⟩], [], []⟩, false, 0⟩
  linked := ⟨by simp, by simp⟩

/-- The run writes an attempt when its execution is gone. -/
theorem overtaken_reaches : ∃ m, overtaken.Reaches m ∧
    ∃ log ∈ m.store.tables.logs, ¬ m.store.tables.HasExecution log.execution := by
  let v : WorkflowRow := ⟨.ofNat 1, .nil, "lone", Workflow.lone.graph.toJson, ⟨0, 0⟩⟩
  let row : ExecutionRow := ⟨(Supply.fresh ⟨1, 0⟩).1, .ofNat 1, .pending, .ofMicros 0, none⟩
  let t : Instant := .ofMicros 0
  let entry : LogEntry := ⟨row.id, "only", "only", "broken", .object [], t⟩
  let log := entry.row (Supply.fresh ⟨7, 0⟩).1
  let running : List Event := [
    .called (.getWorkflow (.ofNat 1)) (.ok v),
    .called (.createExecution (.ofNat 1)) (.ok row),
    .called (.listLogs row.id) (.ok []),
    .called (.updateStatus row.id .running false) (.error .notFound),
    .called (.getExecution row.id) (.error .notFound),
    .told t,
    .called (.insertLog entry) (.ok log)]
  let deleting : List Event := [
    .called (.getWorkflow (.ofNat 1)) (.ok v),
    .called (.deleteWorkflow (.ofNat 1)) (.ok ())]
  have hgraph : Graph.ofJson v.definition = .ok Workflow.lone.graph :=
    ok_of_toOption (by decide +kernel)
  have hrun : ∀ k, ∃ rest, Action.Path [] (overtaken.caller true).action (running.take k) rest := by
    have heq : (overtaken.caller true).action = _ := process_about ofRequest_execute
    rw [heq]
    have hpath : ∃ rest, Action.Path []
        ((perform .failing .nil (.execute (.ofNat 1))).bind conclude) running rest :=
      ⟨_, path_execute rfl hgraph Executor.lone_compiles (.call (.ok []) (.call (.error .notFound)
        (.call (.error .notFound) (.now t (.call (.ok log) .refl)))))⟩
    obtain ⟨rest, p⟩ := hpath
    exact fun k => p.before List.nil_prefix (List.take_prefix k running)
  have hdelete : ∀ k, ∃ rest,
      Action.Path [] (overtaken.caller false).action (deleting.take k) rest := by
    have heq : (overtaken.caller false).action = _ := process_about ofRequest_delete
    rw [heq]
    have p : Action.Path [] ((perform .failing .nil (.deleteWorkflow (.ofNat 1))).bind conclude)
      deleting _ := .call (.ok v) (.call (.ok ()) .refl)
    exact fun k => p.before List.nil_prefix (List.take_prefix k deleting)
  have h₀ : Counted overtaken 0 overtaken.start :=
    ⟨.refl, by simp [start, overtaken], by simp [start]⟩
  have h₁ := h₀.answered (i := true) (by decide) (.getWorkflow (.ofNat 1)) (hrun 1)
  have h₂ := h₁.answered (i := true) (by decide) (.createExecution (.ofNat 1)) (hrun 2)
  have h₃ := h₂.answered (i := false) (by decide) (.getWorkflow (.ofNat 1)) (hdelete 1)
  have h₄ := h₃.answered (i := false) (by decide) (.deleteWorkflow (.ofNat 1)) (hdelete 2)
  have h₅ := h₄.answered (i := true) (by decide) (.listLogs row.id) (hrun 3)
  have h₆ := h₅.answered (i := true) (by decide) (.updateStatus row.id .running false) (hrun 4)
  have h₇ := h₆.answered (i := true) (by decide) (.getExecution row.id) (hrun 5)
  have h₈ := h₇.quiet (i := true) (e := .told t) (fun _ _ => Event.noConfusion) (hrun 6)
  have h₉ := h₈.answered (i := true) (by decide) (.insertLog entry) (hrun 7)
  obtain ⟨m, hm, hstore⟩ : ∃ m, overtaken.Reaches m ∧
      m.store = ⟨⟨[], [], [log]⟩, false, 0⟩ := ⟨_, h₉.reaches, by decide +kernel⟩
  refine ⟨m, hm, log, by simp [hstore], ?_⟩
  rintro ⟨row, hrow, -⟩
  simp [hstore] at hrow

theorem overtaken_accounted :
    ∃ m, overtaken.Reaches m ∧ Accounted m ∧ ∃ log ∈ m.store.tables.logs, LateLog m.past log := by
  obtain ⟨m, hm, log, hlog, hdangling⟩ := overtaken_reaches
  have haccounted := dangling_late hm
  exact ⟨m, hm, haccounted, log, hlog, (haccounted.logs log hlog).resolve_left hdangling⟩

/-- The rows of a workflow that has been deleted can come back. -/
theorem not_always_linked :
    ¬ ∀ (traffic : Traffic Bool) (m : Moment Bool), traffic.Reaches m → m.store.tables.Linked := by
  intro h
  obtain ⟨m, hm, log, hlog, hdangling⟩ := overtaken_reaches
  exact hdangling ((h overtaken m hm).logs log hlog)

end

end Traffic

end Flowgraph
