import Flowgraph.Proofs.Store.Logs
import Flowgraph.Proofs.Store.Owners
import Flowgraph.Proofs.Store.Parents

/-! What goes with a workflow that is deleted, and what stays. The tables are cleared one after the other,
and the logs by the executions as they stood before. -/

namespace Flowgraph

namespace Rows

variable {α : Type} [DecidableEq α]

/-- Of the rows those that satisfy `p` are kept, in their order and as often as they stood there. -/
structure Keeps (p : α → Prop) (rows kept : List α) : Prop where
  mem_iff : ∀ a, a ∈ kept ↔ a ∈ rows ∧ p a
  count : ∀ a ∈ kept, kept.count a = rows.count a
  sublist : kept.Sublist rows

variable {p : α → Prop} [DecidablePred p] {rows kept : List α}

theorem keeps_filter (p : α → Prop) [DecidablePred p] (rows : List α) :
    Keeps p rows (rows.filter p) := by
  refine ⟨fun a => by simp, fun a ha => ?_, List.filter_sublist⟩
  have hp := (List.mem_filter.1 ha).2
  exact List.count_filter hp

/-- That settles what is kept. -/
theorem Keeps.eq_filter (h : Keeps p rows kept) : kept = rows.filter p := by
  have hsub : kept.Sublist (rows.filter p) := by
    have hself : kept.filter p = kept :=
      List.filter_eq_self.2 fun a ha => decide_eq_true ((h.mem_iff a).1 ha).2
    rw [← hself]
    exact h.sublist.filter _
  refine hsub.eq_of_length (List.Perm.length_eq (List.perm_iff_count.2 fun a => ?_))
  by_cases ha : a ∈ kept
  · have hp : decide (p a) = true := decide_eq_true ((h.mem_iff a).1 ha).2
    rw [h.count a ha]
    exact (List.count_filter (p := fun b => decide (p b)) hp).symm
  · have ha' : a ∉ rows.filter p := fun hmem => ha ((h.mem_iff a).2 (by simpa using hmem))
    rw [List.count_eq_zero.2 ha, List.count_eq_zero.2 ha']

end Rows

namespace Tables

open Rows (Keeps keeps_filter)

variable {t : Tables} {id : Uuid}

/-- The execution is one of the workflow. -/
def RunOf (t : Tables) (id execution : Uuid) : Prop :=
  ∃ row ∈ t.executions, row.workflow = id ∧ row.id = execution

/-- Takes the row of a workflow out of its table. -/
def takeWorkflow (id : Uuid) : StateM Tables (Option WorkflowRow) :=
  modifyGet fun t => (t.workflow? id, { t with workflows := t.workflows.filter (·.id ≠ id) })

/-- Clears the executions of a workflow and then the logs. Which executions go has to be known before. -/
def clearRuns (id : Uuid) : StateM Tables Unit := do
  let gone := ((← get).executions.filter (·.workflow = id)).map (·.id)
  modify fun t => { t with executions := t.executions.filter (·.workflow ≠ id) }
  modify fun t => { t with logs := t.logs.filter (·.execution ∉ gone) }

/-- The deletion, table by table. What was changed before a refusal would stay. -/
def delete (id : Uuid) : ExceptT StoreError (StateM Tables) Unit := do
  match ← takeWorkflow id with
  | none => throw .notFound
  | some _ => clearRuns id

/-- The answer, and the tables afterwards. -/
def deleted (t : Tables) (id : Uuid) : Except StoreError Unit × Tables :=
  Id.run ((delete id).run.run t)

theorem workflow?_eq_none_iff : t.workflow? id = none ↔ ¬ t.HasWorkflow id := by
  simp [workflow?, HasWorkflow]

theorem runOf_iff {execution : Uuid} : t.RunOf id execution ↔
    execution ∈ (t.executions.filter (·.workflow = id)).map (·.id) := by
  simp [RunOf, and_assoc]

theorem deleted_eq (t : Tables) (id : Uuid) : t.deleted id =
    match t.workflow? id with
    | none => (.error .notFound, { t with workflows := t.workflows.filter (·.id ≠ id) })
    | some _ => (.ok (), t.removeWorkflow id) := by
  have htaken : t.deleted id = Id.run (StateT.run (ExceptT.run
      (match t.workflow? id with
      | none => throw .notFound
      | some _ => (clearRuns id : ExceptT StoreError (StateM Tables) Unit)))
      { t with workflows := t.workflows.filter (·.id ≠ id) }) := rfl
  rw [htaken]
  cases t.workflow? id with
  | none => rfl
  | some row => rfl

/-- What goes with a workflow and what stays, and what reading finds of either. -/
structure Cascade (t : Tables) (id : Uuid) (t' : Tables) : Prop where
  workflows : Keeps (fun row => row.id ≠ id) t.workflows t'.workflows
  executions : Keeps (fun row => row.workflow ≠ id) t.executions t'.executions
  logs : Keeps (fun row => ¬ t.RunOf id row.execution) t.logs t'.logs
  workflowGone : t'.workflow? id = none
  workflowStays : ∀ w ≠ id, t'.workflow? w = t.workflow? w
  executionGone : t.Keyed → ∀ e row, t.execution? e = some row → row.workflow = id →
    t'.execution? e = none
  executionStays : ∀ e row, t.execution? e = some row → row.workflow ≠ id →
    t'.execution? e = some row
  logsGone : ∀ e, t.RunOf id e → t'.executionLogs e = []
  logsStay : ∀ e, ¬ t.RunOf id e → t'.executionLogs e = t.executionLogs e
  /-- No execution is left without its workflow by this, and no attempt without its execution. -/
  linked : t.Linked → t'.Linked

section Remove

variable (t id)

theorem keeps_logs : Keeps (fun row => ¬ t.RunOf id row.execution) t.logs
    (t.removeWorkflow id).logs := by
  simp only [runOf_iff]
  exact keeps_filter _ t.logs

theorem workflow?_removeWorkflow (w : Uuid) :
    (t.removeWorkflow id).workflow? w = if w = id then none else t.workflow? w := by
  unfold workflow? removeWorkflow
  rw [List.find?_filter]
  split
  · next hw =>
    subst hw
    simp
  · next hw =>
    refine List.find?_congr fun row _ => ?_
    by_cases hrow : row.id = w
    · simp [hrow, hw]
    · simp [hrow]

variable {t id}

theorem execution?_removeWorkflow {e : Uuid} {row : ExecutionRow} (h : t.execution? e = some row)
    (hw : row.workflow ≠ id) : (t.removeWorkflow id).execution? e = some row := by
  obtain ⟨he, before, after, hrows, hbefore⟩ := List.find?_eq_some_iff_append.1 h
  unfold execution? removeWorkflow
  rw [List.find?_filter, List.find?_eq_some_iff_append]
  refine ⟨by simpa [hw] using he, before, after, hrows, fun a ha => ?_⟩
  have hne : a.id ≠ e := by simpa using hbefore a ha
  simp [hne]

theorem execution?_removeWorkflow_of_keyed (hk : t.Keyed) {e : Uuid} {row : ExecutionRow}
    (h : t.execution? e = some row) (hw : row.workflow = id) :
    (t.removeWorkflow id).execution? e = none := by
  refine Option.eq_none_iff_forall_ne_some.2 fun row' h' => ?_
  obtain ⟨hmem, he⟩ := mem_of_execution? h'
  obtain ⟨hmem, hw'⟩ := List.mem_filter.1 hmem
  have hsame := hk.executions row' hmem
  rw [he, h] at hsame
  obtain rfl := Option.some.inj hsame
  simp [hw] at hw'

theorem executionLogs_removeWorkflow_of_runOf {e : Uuid} (h : t.RunOf id e) :
    (t.removeWorkflow id).executionLogs e = [] := by
  refine List.filter_eq_nil_iff.2 fun row hrow => ?_
  have hstays := (((keeps_logs t id).mem_iff row).1 hrow).2
  have hne : row.execution ≠ e := by
    rintro rfl
    exact hstays h
  simpa using hne

theorem executionLogs_removeWorkflow {e : Uuid} (h : ¬ t.RunOf id e) :
    (t.removeWorkflow id).executionLogs e = t.executionLogs e := by
  have heffect : t.Effect (fun _ => False) (.deleteWorkflow id) (.ok ()) (t.removeWorkflow id) :=
    .deletedWorkflow
  refine heffect.executionLogs_eq ?_ (by rintro _ ⟨⟩) (by rintro _ _ ⟨⟩)
  rintro w hcall row hrow hid rfl
  obtain rfl := Call.deleteWorkflow.inj hcall
  exact h ⟨row, hrow, rfl, hid⟩

theorem Linked.removeWorkflow (h : t.Linked) : (t.removeWorkflow id).Linked := by
  constructor
  · intro row hrow
    obtain ⟨hmem, hw⟩ := List.mem_filter.1 hrow
    obtain ⟨w, hwmem, hwid⟩ := h.executions row hmem
    exact ⟨w, List.mem_filter.2 ⟨hwmem, by simpa [hwid] using hw⟩, hwid⟩
  · intro log hlog
    obtain ⟨hmem, hrun⟩ := ((keeps_logs t id).mem_iff log).1 hlog
    obtain ⟨row, hrow, hid⟩ := h.logs log hmem
    have hw : row.workflow ≠ id := fun hw => hrun ⟨row, hrow, hw, hid⟩
    exact ⟨row, List.mem_filter.2 ⟨hrow, by simpa using hw⟩, hid⟩

end Remove

theorem cascade_removeWorkflow (t : Tables) (id : Uuid) : t.Cascade id (t.removeWorkflow id) where
  workflows := keeps_filter _ _
  executions := keeps_filter _ _
  logs := keeps_logs t id
  workflowGone := (workflow?_removeWorkflow t id id).trans (if_pos rfl)
  workflowStays := fun w hw => (workflow?_removeWorkflow t id w).trans (if_neg hw)
  executionGone := fun hk _ _ => execution?_removeWorkflow_of_keyed hk
  executionStays := fun _ _ => execution?_removeWorkflow
  logsGone := fun _ => executionLogs_removeWorkflow_of_runOf
  logsStay := fun _ => executionLogs_removeWorkflow
  linked := Linked.removeWorkflow

/-- Nothing else goes and stays so. -/
theorem cascade_iff {u : Tables} : t.Cascade id u ↔ u = t.removeWorkflow id := by
  constructor
  · intro h
    have hremoved := cascade_removeWorkflow t id
    obtain ⟨workflows, executions, logs⟩ := u
    obtain rfl : workflows = (t.removeWorkflow id).workflows := h.workflows.eq_filter
    obtain rfl : executions = (t.removeWorkflow id).executions := h.executions.eq_filter
    obtain rfl : logs = (t.removeWorkflow id).logs := by
      classical exact h.logs.eq_filter.trans hremoved.logs.eq_filter.symm
    rfl
  · rintro rfl
    exact cascade_removeWorkflow t id

end Tables

namespace MemoryStore

/-- With a workflow go its executions and their logs and nothing else. Where there is no such workflow the
store says so and stays as it is. -/
theorem deleteWorkflow_cascades (s : MemoryStore) (supply : Supply) (id : Uuid) :
    (s.tables.HasWorkflow id → ∃ t', (∀ u, s.tables.Cascade id u ↔ u = t') ∧
      s.answer supply (.deleteWorkflow id) = (.ok (), s.withTables t', supply) ∧
      s.tables.deleted id = (.ok (), t')) ∧
    (¬ s.tables.HasWorkflow id →
      s.answer supply (.deleteWorkflow id) = (.error .notFound, s, supply) ∧
      s.tables.deleted id = (.error .notFound, s.tables)) := by
  constructor
  · intro h
    obtain ⟨row, hrow⟩ := Option.ne_none_iff_exists'.1 (mt Tables.workflow?_eq_none_iff.1 (not_not_intro h))
    refine ⟨s.tables.removeWorkflow id, fun u => Tables.cascade_iff, ?_, ?_⟩
    · simp only [answer, hrow]
    · simp only [Tables.deleted_eq, hrow]
  · intro h
    have hnone := Tables.workflow?_eq_none_iff.2 h
    refine ⟨by simp only [answer, hnone], ?_⟩
    -- no row is taken away where there is none
    have hrows : s.tables.workflows.filter (·.id ≠ id) = s.tables.workflows := by
      refine List.filter_eq_self.2 fun row hrow => decide_eq_true fun hid => ?_
      exact h ⟨row, hrow, hid⟩
    simp only [Tables.deleted_eq, hnone, hrows]

/-- Two workflows, each with an execution that has made one attempt. -/
def twoWorkflows : MemoryStore :=
  let attempt (id execution : Nat) : LogRow :=
    ⟨.ofNat id, .ofNat execution, "a", "a", "echo", .running, .null, none, none, .ofMicros 0, none⟩
  let tables : Tables :=
    { workflows := [⟨.ofNat 1, .ofNat 9, "first", .null, .ofMicros 0⟩,
        ⟨.ofNat 2, .ofNat 9, "second", .null, .ofMicros 0⟩]
      executions := [⟨.ofNat 3, .ofNat 1, .running, .ofMicros 0, none⟩,
        ⟨.ofNat 4, .ofNat 2, .running, .ofMicros 0, none⟩]
      logs := [attempt 5 3, attempt 6 4] }
  empty.withTables tables

theorem twoWorkflows_delete_first : ∃ t', (∀ u, twoWorkflows.tables.Cascade (.ofNat 1) u ↔ u = t') ∧
    t'.logs.length = 1 ∧ (twoWorkflows.withTables t').tables.workflow? (.ofNat 1) = none ∧
    (twoWorkflows.withTables t').answer ⟨0, 0⟩ (.deleteWorkflow (.ofNat 1)) =
      (.error .notFound, twoWorkflows.withTables t', ⟨0, 0⟩) := by
  have hfirst : twoWorkflows.tables.HasWorkflow (.ofNat 1) := ⟨_, List.mem_cons_self, rfl⟩
  obtain ⟨t', hcascade, -, -⟩ := (deleteWorkflow_cascades twoWorkflows ⟨0, 0⟩ (.ofNat 1)).1 hfirst
  have hgone := ((hcascade t').2 rfl).workflowGone
  have hlogs : t'.logs.length = 1 := by
    rw [← (hcascade _).1 (twoWorkflows.tables.cascade_removeWorkflow (.ofNat 1))]
    decide +kernel
  refine ⟨t', hcascade, hlogs, hgone, ?_⟩
  exact ((deleteWorkflow_cascades (twoWorkflows.withTables t') ⟨0, 0⟩ (.ofNat 1)).2
    (Tables.workflow?_eq_none_iff.1 hgone)).1

end MemoryStore

end Flowgraph
