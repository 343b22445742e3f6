import Flowgraph.Proofs.Database.Outcomes

/-! The store in memory beside a database with the same rows. A call that looks rows up or changes
them by name is answered alike and leaves the same rows, but for the status of an execution that is
not there: the store in memory refuses the call, and the database finds nothing to change. -/

namespace Flowgraph

open Database

/-- The calls that find rows by an identifier or by the node. -/
def Call.naming : List Call.Method :=
  [.getWorkflow, .deleteWorkflow, .getExecution, .updateStatus, .completeLog, .workflowTeam]

/-- The status is for an execution that is not there. -/
def Call.Misses (t : Tables) : Call → Prop
  | .updateStatus id _ _ => t.execution? id = none
  | _ => False

/-- The attempts at the node that is named were written in the order in which they started. -/
def Call.InOrder (t : Tables) : Call → Prop
  | .completeLog (.latest execution nodeId) _ =>
    (attempts t execution nodeId).Pairwise fun a b => a.startedAt.earlier b.startedAt = true
  | _ => True

/-- The answer of the store in memory and that of the database. -/
inductive Call.Alike (t : Tables) : (c : Call) → c.Reply → c.Reply → Prop
  | same {c : Call} {r : c.Reply} : ¬ c.Misses t → Alike t c r r
  | missing {id status finished} : t.execution? id = none →
    Alike t (.updateStatus id status finished) (.error .notFound) (.ok false)

theorem Call.Alike.of_eq {t : Tables} {c : Call} {memory database : c.Reply}
    (h : memory = database) (hm : ¬ c.Misses t) : c.Alike t memory database :=
  h ▸ .same hm

namespace Tables

/-- However the database arranges rows, it answers as the store in memory does and has the same rows
afterwards. -/
structure Concurs (t : Tables) (supply : Supply) (rejected : Nat) (c : Call) : Prop where
  answered : ∃ reply after, (queryFor supply c).1.Outcome t.contents reply after
  alike : ∀ reply after, (queryFor supply c).1.Outcome t.contents reply after →
    c.Alike t (MemoryStore.answer ⟨t, false, rejected⟩ supply c).1 (Database.answer reply c)
  kept : ∀ reply after, (queryFor supply c).1.Outcome t.contents reply after → c.InOrder t →
    after = (MemoryStore.answer ⟨t, false, rejected⟩ supply c).2.1.tables.contents

variable {t : Tables} {supply : Supply} {rejected : Nat}

theorem Concurs.of_iff {c : Call} {reply₀ : Reply} {after₀ : Contents}
    (h : ∀ {reply after}, (queryFor supply c).1.Outcome t.contents reply after ↔
      reply = reply₀ ∧ after = after₀)
    (ha : c.Alike t (MemoryStore.answer ⟨t, false, rejected⟩ supply c).1 (Database.answer reply₀ c))
    (hk : after₀ = (MemoryStore.answer ⟨t, false, rejected⟩ supply c).2.1.tables.contents) :
    t.Concurs supply rejected c where
  answered := ⟨reply₀, after₀, h.2 ⟨rfl, rfl⟩⟩
  alike reply after houtcome := by
    obtain ⟨rfl, rfl⟩ := h.1 houtcome
    exact ha
  kept reply after houtcome _ := by
    obtain ⟨rfl, rfl⟩ := h.1 houtcome
    exact hk

theorem first_workflow (ht : t.Storable) (id : Uuid) :
    (Reply.rows ((t.workflow? id).map fun w => w.cells.project workflowColumns).toList).first
        Row.workflow = (t.workflow? id).elim (.error .notFound) .ok := by
  cases hf : t.workflow? id with
  | none => rfl
  | some w => exact first_singleton (workflow_project (ht.created w (List.mem_of_find?_eq_some hf)))

theorem first_execution (ht : t.Storable) (id : Uuid) :
    (Reply.rows ((t.execution? id).map fun e => e.cells.project executionColumns).toList).first
        Row.execution = (t.execution? id).elim (.error .notFound) .ok := by
  cases hf : t.execution? id with
  | none => rfl
  | some e =>
    obtain ⟨hstart, hend⟩ := ht.begun e (List.mem_of_find?_eq_some hf)
    exact first_singleton (execution_project hstart hend)

theorem concurs_getWorkflow (ht : t.Storable) (id : Uuid) :
    t.Concurs supply rejected (.getWorkflow id) := by
  refine .of_iff (selects_byId WorkflowRow.value_id t.contents_workflows
    ht.workflows workflowColumns id) (.of_eq ?_ not_false) ?_
  · refine Eq.trans ?_ (first_workflow ht id).symm
    simp only [MemoryStore.answer]
    cases t.workflow? id <;> rfl
  · simp only [MemoryStore.answer]
    cases t.workflow? id <;> rfl

theorem concurs_workflowTeam (ht : t.Storable) (id : Uuid) :
    t.Concurs supply rejected (.workflowTeam id) := by
  refine .of_iff (selects_byId WorkflowRow.value_id t.contents_workflows
    ht.workflows workflowColumns id) (.of_eq ?_ not_false) ?_
  · refine Eq.trans ?_ (congrArg (Except.map WorkflowRow.team) (first_workflow ht id)).symm
    simp only [MemoryStore.answer]
    cases t.workflow? id <;> rfl
  · simp only [MemoryStore.answer]
    cases t.workflow? id <;> rfl

theorem concurs_getExecution (ht : t.Storable) (id : Uuid) :
    t.Concurs supply rejected (.getExecution id) := by
  refine .of_iff (selects_byId ExecutionRow.value_id t.contents_executions
    ht.executions executionColumns id) (.of_eq ?_ not_false) ?_
  · refine Eq.trans ?_ (first_execution ht id).symm
    simp only [MemoryStore.answer]
    cases t.execution? id <;> rfl
  · simp only [MemoryStore.answer]
    cases t.execution? id <;> rfl

theorem mustChange_affected (n : Nat) :
    (Reply.affected n).mustChange = if n = 0 then .error .notFound else .ok () := by
  cases n <;> rfl

theorem concurs_deleteWorkflow (ht : t.Storable) (id : Uuid) :
    t.Concurs supply rejected (.deleteWorkflow id) := by
  have hcount := Rows.countP_key ht.workflows id
  refine .of_iff (deletes_byId ht id) (.of_eq ?_ not_false) ?_
  · refine Eq.trans ?_ (mustChange_affected _).symm
    simp only [MemoryStore.answer, hcount]
    cases hf : t.workflow? id with
    | none => rw [workflow?] at hf; simp [hf]
    | some w => rw [workflow?] at hf; simp [hf]
  · simp only [MemoryStore.answer]
    cases hf : t.workflow? id with
    | none =>
      have hmissing : ¬ ∃ w ∈ t.workflows, w.id = id := by
        simpa [workflow?] using hf
      rw [if_neg hmissing]
    | some w =>
      rw [if_pos ⟨w, List.mem_of_find?_eq_some hf, by simpa using List.find?_some hf⟩]
      rfl

theorem changed_affected (n : Nat) : (Reply.affected n).changed = .ok (decide (0 < n)) := rfl

theorem concurs_updateStatus (ht : t.Storable) (id : Uuid) (status : RunStatus) (finished : Bool) :
    t.Concurs supply rejected (.updateStatus id status finished) := by
  have hcount := Rows.countP_key_and ht.executions id fun e => !e.status.isTerminal
  refine .of_iff (updates_status t status finished supply.now.1 id) ?_ ?_
  · rw [hcount]
    cases hf : t.execution? id with
    | none =>
      have hnone : t.executions.find? (·.id = id) = none := hf
      simp only [MemoryStore.answer, hf, hnone]
      exact .missing hf
    | some e =>
      have hsome : t.executions.find? (·.id = id) = some e := hf
      refine .of_eq ?_ (by simp [Call.Misses, hf])
      change _ = (Reply.affected _).changed
      rw [changed_affected, hsome]
      simp only [MemoryStore.answer, hf]
      cases hterm : e.status.isTerminal with
      | true => simp [hterm]
      | false => cases finished <;> simp [hterm]
  · cases hf : t.execution? id with
    | none =>
      rw [Rows.map_of_find?_eq_none hf]
      simp only [MemoryStore.answer, hf]
    | some e =>
      rw [Rows.map_of_find?_eq_some ht.executions hf]
      simp only [MemoryStore.answer, hf]
      cases e.status.isTerminal with
      | true => simp
      | false => cases finished <;> rfl

theorem concurs_completeRow (ht : t.Storable) (c : Completion) (id : Uuid) :
    t.Concurs supply rejected (.completeLog (.row id) c) := by
  have hcount := Rows.countP_key ht.logs id
  have hmemory := Rows.updateFirst?_eq (p := fun row : LogRow => row.id = id)
    (f := fun row => row.complete c) ht.logs
  refine .of_iff (completes_byId t c id) (.of_eq ?_ not_false) ?_
  · refine Eq.trans ?_ (mustChange_affected _).symm
    simp only [MemoryStore.answer, completeLog, hmemory, hcount]
    cases t.logs.find? (·.id = id) <;> rfl
  · simp only [MemoryStore.answer, completeLog, hmemory]
    cases hf : t.logs.find? (·.id = id) with
    | none =>
      have hkept := Rows.map_of_find?_eq_none (f := fun row => row.complete c) hf fun _ => true
      simp only [Bool.and_true, decide_eq_true_iff] at hkept
      rw [hkept]
      rfl
    | some row =>
      have hid : row.id = id := by simpa using List.find?_some hf
      subst hid
      rfl

/-- Of the attempts that are there, the store in memory completes the one that was written last. -/
theorem completeLog_latest (ht : t.Storable) (c : Completion) (execution : Uuid) (nodeId : String) :
    t.completeLog (.latest execution nodeId) c =
      (attempts t execution nodeId).getLast?.map fun last => { t with
        logs := t.logs.map fun (row : LogRow) =>
          if row.id = last.id then row.complete c else row } := by
  have hlast : t.logs.reverse.find? (fun row => row.execution = execution && row.nodeId = nodeId) =
      (attempts t execution nodeId).getLast? := by
    rw [← List.head?_filter, List.filter_reverse, List.head?_reverse]
    rfl
  rw [completeLog, Rows.updateLast?_eq ht.logs, hlast, Option.map_map]
  rfl

/-- It is the one that started last, if that is how they were written. -/
theorem getLast?_attempts (ht : t.Storable) {execution : Uuid} {nodeId : String} {last : LogRow}
    (hord : (attempts t execution nodeId).Pairwise fun a b =>
      a.startedAt.earlier b.startedAt = true)
    (hlast : last ∈ attempts t execution nodeId)
    (hlatest : ∀ row ∈ attempts t execution nodeId, micros row.startedAt ≤ micros last.startedAt) :
    (attempts t execution nodeId).getLast? = some last := by
  have hwhole : ∀ row ∈ attempts t execution nodeId, row.startedAt.Whole := fun row hrow =>
    (ht.logged row (List.mem_of_mem_filter hrow)).1
  obtain ⟨before, after, hsplit⟩ := List.append_of_mem hlast
  cases after with
  | nil => simp [hsplit]
  | cons next rest =>
    have hnext : next ∈ attempts t execution nodeId := by simp [hsplit]
    rw [hsplit] at hord
    have hlt := micros_lt (hwhole last hlast) (hwhole next hnext)
      ((List.pairwise_cons.1 (List.pairwise_append.1 hord).2.1).1 next List.mem_cons_self)
    exact absurd (hlatest next hnext) (by omega)

theorem concurs_completeLatest (ht : t.Storable) (c : Completion) (execution : Uuid)
    (nodeId : String) :
    t.Concurs supply rejected (.completeLog (.latest execution nodeId) c) := by
  have hmemory := completeLog_latest ht c execution nodeId
  refine ⟨exists_completes_latest t c execution nodeId, fun reply after h => .of_eq ?_ not_false,
    fun reply after h hord => ?_⟩
  · simp only [MemoryStore.answer, hmemory]
    rcases completes_latest ht.logs h with ⟨hnone, rfl, -⟩ | ⟨last, hlast, -, rfl, -⟩
    · rw [hnone]
      rfl
    · rw [List.getLast?_eq_some_getLast (List.ne_nil_of_mem hlast)]
      rfl
  · simp only [MemoryStore.answer, hmemory]
    rcases completes_latest ht.logs h with ⟨hnone, -, rfl⟩ | ⟨last, hlast, hlatest, -, rfl⟩
    · rw [hnone]
      rfl
    · rw [getLast?_attempts ht hord hlast hlatest]
      rfl

/-- Beside a database with the same rows, the store in memory answers every call that names rows as
the database does and changes the same rows in the same way. Only the status of an execution that is
not there is refused by the one, while the other finds nothing to change. -/
theorem memory_concurs (ht : t.Storable) (supply : Supply) (rejected : Nat) {c : Call}
    (hc : c.method ∈ Call.naming) : t.Concurs supply rejected c := by
  cases c with
  | getWorkflow id => exact concurs_getWorkflow ht id
  | deleteWorkflow id => exact concurs_deleteWorkflow ht id
  | getExecution id => exact concurs_getExecution ht id
  | updateStatus id status finished => exact concurs_updateStatus ht id status finished
  | completeLog target c =>
    cases target with
    | row id => exact concurs_completeRow ht c id
    | latest execution nodeId => exact concurs_completeLatest ht c execution nodeId
  | workflowTeam id => exact concurs_workflowTeam ht id
  | createWorkflow | listWorkflows | createExecution | insertLog | listLogs =>
    simp [Call.naming, Call.method] at hc

/-- An execution with two attempts at one node, the later of them open. -/
def retried : Tables where
  workflows := [⟨.ofNat 1, .ofNat 9, "retried", .object [], Cell.instant 0⟩]
  executions := [⟨.ofNat 2, .ofNat 1, .running, Cell.instant 1, none⟩]
  logs := [
    ⟨.ofNat 3, .ofNat 2, "a", "a", "echo", .error, .object [], none, some "late", Cell.instant 2,
      some (Cell.instant 3)⟩,
    ⟨.ofNat 4, .ofNat 2, "a", "a", "echo", .running, .object [], none, none, Cell.instant 4, none⟩]

theorem retried_storable : retried.Storable where
  workflows := by decide
  executions := by decide
  logs := by decide
  created := by simp [retried, Instant.Whole]
  begun := by simp [retried, Instant.Whole]
  logged := by simp [retried, Instant.Whole]

theorem retried_concurs : retried.Storable ∧
    (Call.completeLog (.latest (.ofNat 2) "a") ⟨.success, none, none, Cell.instant 5⟩).method ∈
      Call.naming ∧
    retried.Concurs ⟨0, 10⟩ 0
      (.completeLog (.latest (.ofNat 2) "a") ⟨.success, none, none, Cell.instant 5⟩) :=
  ⟨retried_storable, by decide, memory_concurs retried_storable _ _ (by decide)⟩

/-- For an execution that is not there the two stores answer a new status differently. -/
theorem not_always_alike : ¬ ∀ (t : Tables) (supply : Supply) (rejected : Nat) (c : Call),
    t.Storable → c.method ∈ Call.naming → ∀ reply after,
      (queryFor supply c).1.Outcome t.contents reply after →
        (MemoryStore.answer ⟨t, false, rejected⟩ supply c).1 = Database.answer reply c := by
  intro h
  have houtcome := (updates_status retried .running false (Instant.ofMicros 10) (.ofNat 5)).2
    ⟨rfl, rfl⟩
  have halike := h retried ⟨0, 10⟩ 0 (.updateStatus (.ofNat 5) .running false) retried_storable
    (by decide) _ _ houtcome
  cases halike

end Tables

end Flowgraph
