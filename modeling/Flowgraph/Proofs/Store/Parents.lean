import Flowgraph.Proofs.Store.Rows

/-! Rows and the rows that they refer to: the workflow of an execution and the execution of an
attempt. The store looks for neither when it writes a row. -/

namespace Flowgraph

namespace Tables

def HasWorkflow (t : Tables) (id : Uuid) : Prop := ∃ row ∈ t.workflows, row.id = id

def HasExecution (t : Tables) (id : Uuid) : Prop := ∃ row ∈ t.executions, row.id = id

/-- Every execution has its workflow, and every attempt its execution. -/
structure Linked (t : Tables) : Prop where
  executions : ∀ row ∈ t.executions, t.HasWorkflow row.workflow
  logs : ∀ log ∈ t.logs, t.HasExecution log.execution

theorem HasWorkflow.put {t : Tables} {id : Uuid} (h : t.HasWorkflow id) (row : WorkflowRow) :
    (t.putWorkflow row).HasWorkflow id := by
  obtain ⟨old, hold, rfl⟩ := h
  unfold putWorkflow HasWorkflow
  cases hput : Rows.updateFirst? (·.id = row.id) (fun _ => row) t.workflows with
  | none => exact ⟨old, List.mem_append_left _ hold, rfl⟩
  | some rows =>
    obtain ⟨before, a, after, hrows, ha, rfl⟩ := Rows.updateFirst?_eq_some hput
    have ha : a.id = row.id := by simpa using ha
    rw [hrows] at hold
    rcases List.mem_append.1 hold with hold | hold
    · exact ⟨old, List.mem_append_left _ hold, rfl⟩
    · rcases List.mem_cons.1 hold with rfl | hold
      · exact ⟨row, by simp, ha.symm⟩
      · exact ⟨old, by simp [hold], rfl⟩

namespace Effect

variable {t t' : Tables} {issues : Uuid → Prop} {c : Call} {r : c.Reply}

/-- A workflow goes only when it is deleted. -/
theorem has_workflow (he : t.Effect issues c r t') {id : Uuid} (h : t.HasWorkflow id) :
    t'.HasWorkflow id ∨ Event.called c r = .called (.deleteWorkflow id) (.ok ()) := by
  cases he with
  | failed | read | createdExecution | readExecution | updated | closed | inserted | listed =>
    exact Or.inl h
  | createdWorkflow row => exact Or.inl (h.put row)
  | completed hc =>
    obtain ⟨_, _, _, -, -, rfl⟩ := completeLog_eq_some hc
    exact Or.inl h
  | @deletedWorkflow w =>
    obtain ⟨row, hrow, rfl⟩ := h
    by_cases hw : row.id = w
    · exact Or.inr (by rw [hw])
    · exact Or.inl ⟨row, List.mem_filter.2 ⟨hrow, by simpa using hw⟩, rfl⟩

/-- An execution that stands afterwards has stood before, of a workflow that has not been deleted
just now, or it has been created just now. -/
theorem execution_of (he : t.Effect issues c r t') {row : ExecutionRow}
    (hrow : row ∈ t'.executions) :
    (∃ old ∈ t.executions, old.id = row.id ∧ old.workflow = row.workflow ∧
      Event.called c r ≠ .called (.deleteWorkflow row.workflow) (.ok ())) ∨
    (issues row.id ∧ t'.workflows = t.workflows ∧
      Event.called c r = .called (.createExecution row.workflow) (.ok row)) := by
  cases he with
  | failed | readExecution | closed | listed | inserted => exact Or.inl ⟨row, hrow, rfl, rfl, by rintro ⟨⟩⟩
  | read hc =>
    refine Or.inl ⟨row, hrow, rfl, rfl, fun he => ?_⟩
    obtain ⟨rfl, -⟩ := Event.called.inj he
    simp [Call.method] at hc
  | createdWorkflow => exact Or.inl ⟨row, hrow, rfl, rfl, by rintro ⟨⟩⟩
  | deletedWorkflow =>
    obtain ⟨hrow, hw⟩ := List.mem_filter.1 hrow
    refine Or.inl ⟨row, hrow, rfl, rfl, fun he => ?_⟩
    obtain ⟨hc, -⟩ := Event.called.inj he
    obtain rfl := Call.deleteWorkflow.inj hc
    simp at hw
  | createdExecution new hid hw hs =>
    rcases List.mem_append.1 hrow with hrow | hrow
    · exact Or.inl ⟨row, hrow, rfl, rfl, by rintro ⟨⟩⟩
    · obtain rfl := List.mem_singleton.1 hrow
      subst hw
      exact Or.inr ⟨hid, rfl, rfl⟩
  | updated finishedAt hold hopen =>
    rcases mem_setExecution hrow with ⟨hrow, -⟩ | rfl
    · exact Or.inl ⟨row, hrow, rfl, rfl, by rintro ⟨⟩⟩
    · exact Or.inl ⟨_, (mem_of_execution? hold).1, rfl, rfl, by rintro ⟨⟩⟩
  | completed hc =>
    obtain ⟨_, _, _, -, -, rfl⟩ := completeLog_eq_some hc
    exact Or.inl ⟨row, hrow, rfl, rfl, by rintro ⟨⟩⟩

/-- An attempt that stands afterwards has stood before, of an execution whose workflow has not been
deleted just now, or it has been written just now. -/
theorem log_of (he : t.Effect issues c r t') {log : LogRow} (hlog : log ∈ t'.logs) :
    (∃ old ∈ t.logs, old.id = log.id ∧ old.execution = log.execution ∧
      ∀ row ∈ t.executions, row.id = log.execution →
        Event.called c r ≠ .called (.deleteWorkflow row.workflow) (.ok ())) ∨
    (t'.executions = t.executions ∧ ∃ entry, entry.execution = log.execution ∧
      Event.called c r = .called (.insertLog entry) (.ok log)) := by
  cases he with
  | failed | readExecution | closed | listed => exact Or.inl ⟨log, hlog, rfl, rfl, by rintro _ _ _ ⟨⟩⟩
  | read hc =>
    refine Or.inl ⟨log, hlog, rfl, rfl, fun row _ _ he => ?_⟩
    obtain ⟨rfl, -⟩ := Event.called.inj he
    simp [Call.method] at hc
  | createdWorkflow | createdExecution | updated => exact Or.inl ⟨log, hlog, rfl, rfl, by rintro _ _ _ ⟨⟩⟩
  | deletedWorkflow =>
    obtain ⟨hlog, hgone⟩ := List.mem_filter.1 hlog
    refine Or.inl ⟨log, hlog, rfl, rfl, fun row hrow hid he => ?_⟩
    obtain ⟨hc, -⟩ := Event.called.inj he
    obtain rfl := Call.deleteWorkflow.inj hc
    simp only [List.mem_map, List.mem_filter, decide_eq_true_eq, not_exists, not_and] at hgone
    exact hgone row ⟨hrow, rfl⟩ hid
  | inserted id =>
    rcases List.mem_append.1 hlog with hlog | hlog
    · exact Or.inl ⟨log, hlog, rfl, rfl, by rintro _ _ _ ⟨⟩⟩
    · obtain rfl := List.mem_singleton.1 hlog
      exact Or.inr ⟨rfl, _, rfl, rfl⟩
  | completed hc =>
    obtain ⟨before, old, after, hlogs, -, rfl⟩ := completeLog_eq_some hc
    rcases List.mem_append.1 hlog with hlog | hlog
    · exact Or.inl ⟨log, by simp [hlogs, hlog], rfl, rfl, by rintro _ _ _ ⟨⟩⟩
    · rcases List.mem_cons.1 hlog with rfl | hlog
      · exact Or.inl ⟨old, by simp [hlogs], rfl, rfl, by rintro _ _ _ ⟨⟩⟩
      · exact Or.inl ⟨log, by simp [hlogs, hlog], rfl, rfl, by rintro _ _ _ ⟨⟩⟩

/-- An execution goes only when its workflow is deleted. -/
theorem execution_stays (he : t.Effect issues c r t') {id : Uuid} (h : t.HasExecution id) :
    t'.HasExecution id ∨ ∃ row ∈ t.executions, row.id = id ∧
      Event.called c r = .called (.deleteWorkflow row.workflow) (.ok ()) := by
  by_cases hc : ∃ w, c = .deleteWorkflow w
  · obtain ⟨w, rfl⟩ := hc
    cases he with
    | failed => exact Or.inl h
    | read hc => simp [Call.method] at hc
    | deletedWorkflow =>
      obtain ⟨row, hrow, rfl⟩ := h
      by_cases hw : row.workflow = w
      · exact Or.inr ⟨row, hrow, rfl, by rw [hw]⟩
      · exact Or.inl ⟨row, List.mem_filter.2 ⟨hrow, by simpa using hw⟩, rfl⟩
  · exact Or.inl (he.has_execution (fun w hw => absurd ⟨w, hw⟩ hc) h)

end Effect

end Tables

namespace Setting.Step

variable {S : Setting} {s s' : MemoryStore} {e : Event}

theorem effect (hs : S.Step s (.own e) s') :
    (s' = s ∧ ∀ c r, e ≠ .called c r) ∨
      ∃ c r, e = .called c r ∧ s.tables.Effect (S.issues s) c r s'.tables := by
  cases hs with
  | quiet he => exact Or.inl ⟨rfl, he⟩
  | own ha => exact Or.inr ⟨_, _, rfl, ha.effect⟩

theorem has_workflow (hs : S.Step s (.own e) s') {id : Uuid} (h : s.tables.HasWorkflow id) :
    s'.tables.HasWorkflow id ∨ e = .called (.deleteWorkflow id) (.ok ()) := by
  rcases hs.effect with ⟨rfl, -⟩ | ⟨c, r, rfl, he⟩
  · exact Or.inl h
  · exact he.has_workflow h

theorem has_execution (hs : S.Step s (.own e) s') {id : Uuid} (h : s.tables.HasExecution id) :
    s'.tables.HasExecution id ∨ ∃ row ∈ s.tables.executions, row.id = id ∧
      e = .called (.deleteWorkflow row.workflow) (.ok ()) := by
  rcases hs.effect with ⟨rfl, -⟩ | ⟨c, r, rfl, he⟩
  · exact Or.inl h
  · exact he.execution_stays h

theorem execution_of (hs : S.Step s (.own e) s') {row : ExecutionRow}
    (hrow : row ∈ s'.tables.executions) :
    (∃ old ∈ s.tables.executions, old.id = row.id ∧ old.workflow = row.workflow ∧
      e ≠ .called (.deleteWorkflow row.workflow) (.ok ())) ∨
    (S.issues s row.id ∧ s'.tables.workflows = s.tables.workflows ∧
      e = .called (.createExecution row.workflow) (.ok row)) := by
  rcases hs.effect with ⟨rfl, hq⟩ | ⟨c, r, rfl, he⟩
  · exact Or.inl ⟨row, hrow, rfl, rfl, hq _ _⟩
  · exact he.execution_of hrow

theorem log_of (hs : S.Step s (.own e) s') {log : LogRow} (hlog : log ∈ s'.tables.logs) :
    (∃ old ∈ s.tables.logs, old.id = log.id ∧ old.execution = log.execution ∧
      ∀ row ∈ s.tables.executions, row.id = log.execution →
        e ≠ .called (.deleteWorkflow row.workflow) (.ok ())) ∨
    (s'.tables.executions = s.tables.executions ∧ ∃ entry, entry.execution = log.execution ∧
      e = .called (.insertLog entry) (.ok log)) := by
  rcases hs.effect with ⟨rfl, hq⟩ | ⟨c, r, rfl, he⟩
  · exact Or.inl ⟨log, hlog, rfl, rfl, fun _ _ _ => hq _ _⟩
  · exact he.log_of hlog

end Setting.Step

/-- A workflow that is read stands in the store. -/
theorem Setting.Answers.read_workflow {S : Setting} {s s' : MemoryStore} {id : Uuid}
    {v : WorkflowRow} (ha : S.Answers s (.getWorkflow id) (.ok v) s') :
    v.id = id ∧ s'.tables.HasWorkflow id := by
  cases ha with
  | served _ h =>
    simp only [MemoryStore.answer] at h
    cases hv : s.tables.workflow? id with
    | none => simp [hv] at h
    | some found =>
      rw [hv] at h
      cases h
      have hid : v.id = id := by simpa using List.find?_some hv
      exact ⟨hid, v, List.mem_of_find?_eq_some hv, hid⟩

end Flowgraph
