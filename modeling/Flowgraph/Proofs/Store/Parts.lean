import Flowgraph.Proofs.Store.Parents
import Mathlib.Data.List.Find

/-! A part of the rows of a store, given by identifiers. Calls that keep away from these rows are
answered as if they were not there, and leave them as they are. -/

namespace Flowgraph

/-- Identifiers of workflows, of executions and of log rows. -/
structure Region where
  workflows : List Uuid
  executions : List Uuid
  logs : List Uuid

namespace Region

def append (o o' : Region) : Region :=
  ⟨o.workflows ++ o'.workflows, o.executions ++ o'.executions, o.logs ++ o'.logs⟩

structure Lacks (o : Region) (id : Uuid) : Prop where
  workflow : id ∉ o.workflows
  execution : id ∉ o.executions
  log : id ∉ o.logs

end Region

namespace Rows

variable {α : Type} {p q r : α → Bool} {f : α → α} {l l' : List α}

theorem find?_filter_of_imp (h : ∀ a ∈ l, p a = true → q a = true) :
    (l.filter q).find? p = l.find? p := by
  rw [List.find?_filter]
  refine List.find?_congr fun a ha => ?_
  cases hp : p a with
  | true => simp [h a ha hp]
  | false => simp

/-- To replace a row that stays in a part is to replace it in the part. -/
theorem updateFirst?_filter (h : ∀ a ∈ l, p a = true → q a = true)
    (hf : ∀ a ∈ l, p a = true → q (f a) = true) :
    updateFirst? p f (l.filter q) = (updateFirst? p f l).map (List.filter q) := by
  induction l with
  | nil => rfl
  | cons a rest ih =>
    have ih := ih (fun b hb => h b (List.mem_cons_of_mem _ hb))
      fun b hb => hf b (List.mem_cons_of_mem _ hb)
    cases hp : p a with
    | true =>
      have hq := h a List.mem_cons_self hp
      have hqf := hf a List.mem_cons_self hp
      simp [updateFirst?, hp, hq, hqf]
    | false =>
      cases hq : q a with
      | true => simp [updateFirst?, hp, hq, ih, Function.comp_def]
      | false =>
        have hskip : ∀ m : List α, (a :: m).filter q = m.filter q := fun m => by simp [hq]
        simp [updateFirst?, hp, hq, ih, Function.comp_def]

theorem updateLast?_filter (h : ∀ a ∈ l, p a = true → q a = true)
    (hf : ∀ a ∈ l, p a = true → q (f a) = true) :
    updateLast? p f (l.filter q) = (updateLast? p f l).map (List.filter q) := by
  have hr := updateFirst?_filter (l := l.reverse) (fun a ha => h a (List.mem_reverse.1 ha))
    fun a ha => hf a (List.mem_reverse.1 ha)
  rw [updateLast?, ← List.filter_reverse, hr, updateLast?, Option.map_map, Option.map_map]
  congr 1
  funext m
  exact (List.filter_reverse ..).symm

/-- Rows elsewhere stay as they are. -/
theorem filter_replaced {before after : List α} {a b : α} (ha : r a = false) (hb : r b = false) :
    (before ++ b :: after).filter r = (before ++ a :: after).filter r := by
  simp [ha, hb]

end Rows

namespace Tables

variable (o : Region) (t : Tables)

/-- The rows of the part. -/
def only : Tables where
  workflows := t.workflows.filter (·.id ∈ o.workflows)
  executions := t.executions.filter (·.id ∈ o.executions)
  logs := t.logs.filter (·.execution ∈ o.executions)

/-- All other rows. -/
def without : Tables where
  workflows := t.workflows.filter (·.id ∉ o.workflows)
  executions := t.executions.filter (·.id ∉ o.executions)
  logs := t.logs.filter (·.execution ∉ o.executions)

@[simp] theorem only_workflows :
    (t.only o).workflows = t.workflows.filter (·.id ∈ o.workflows) := rfl

@[simp] theorem only_executions :
    (t.only o).executions = t.executions.filter (·.id ∈ o.executions) := rfl

@[simp] theorem only_logs : (t.only o).logs = t.logs.filter (·.execution ∈ o.executions) := rfl

@[simp] theorem without_workflows :
    (t.without o).workflows = t.workflows.filter (·.id ∉ o.workflows) := rfl

@[simp] theorem without_executions :
    (t.without o).executions = t.executions.filter (·.id ∉ o.executions) := rfl

@[simp] theorem without_logs :
    (t.without o).logs = t.logs.filter (·.execution ∉ o.executions) := rfl

/-- The part holds no workflow of the team and all others, with their executions and logs. -/
structure Parted (team : Uuid) : Prop where
  workflows : ∀ row ∈ t.workflows, row.id ∈ o.workflows ↔ row.team ≠ team
  executions : ∀ row ∈ t.executions, row.id ∈ o.executions ↔ row.workflow ∈ o.workflows
  logs : ∀ log ∈ t.logs, log.execution ∈ o.executions → log.id ∈ o.logs

end Tables

/-- The store with the rows outside the part, and nothing else. -/
def MemoryStore.without (o : Region) (s : MemoryStore) : MemoryStore :=
  ⟨s.tables.without o, false, 0⟩

/-- The call is one of the team and names nothing in the part. -/
def Call.Avoids (o : Region) (team : Uuid) : Call → Prop
  | .createWorkflow owner _ _ => owner = team
  | .getWorkflow id => id ∉ o.workflows
  | .listWorkflows owner => owner = team
  | .deleteWorkflow id => id ∉ o.workflows
  | .createExecution workflow => workflow ∉ o.workflows
  | .getExecution id => id ∉ o.executions
  | .updateStatus id _ _ => id ∉ o.executions
  | .insertLog entry => entry.execution ∉ o.executions
  | .completeLog (.row id) _ => id ∉ o.logs
  | .completeLog (.latest execution _) _ => execution ∉ o.executions
  | .listLogs execution => execution ∉ o.executions
  | .workflowTeam workflow => workflow ∉ o.workflows

namespace Tables

variable {o : Region} {t : Tables} {team : Uuid}

theorem mem_of_workflow? {id : Uuid} {row : WorkflowRow} (h : t.workflow? id = some row) :
    row ∈ t.workflows ∧ row.id = id :=
  ⟨List.mem_of_find?_eq_some h, by simpa using List.find?_some h⟩

theorem workflow?_without {id : Uuid} (h : id ∉ o.workflows) :
    (t.without o).workflow? id = t.workflow? id :=
  Rows.find?_filter_of_imp fun row _ hid => by simpa [of_decide_eq_true hid] using h

theorem execution?_without {id : Uuid} (h : id ∉ o.executions) :
    (t.without o).execution? id = t.execution? id :=
  Rows.find?_filter_of_imp fun row _ hid => by simpa [of_decide_eq_true hid] using h

theorem workflow?_only {id : Uuid} (h : id ∈ o.workflows) :
    (t.only o).workflow? id = t.workflow? id :=
  Rows.find?_filter_of_imp fun row _ hid => by simpa [of_decide_eq_true hid] using h

theorem execution?_only {id : Uuid} (h : id ∈ o.executions) :
    (t.only o).execution? id = t.execution? id :=
  Rows.find?_filter_of_imp fun row _ hid => by simpa [of_decide_eq_true hid] using h

/-- Where the part is the same, the same is found in it. -/
theorem workflow?_of_only {t' : Tables} {id : Uuid} (hsame : t.only o = t'.only o)
    (h : id ∈ o.workflows) : t.workflow? id = t'.workflow? id := by
  rw [← workflow?_only h, hsame, workflow?_only h]

theorem execution?_of_only {t' : Tables} {id : Uuid} (hsame : t.only o = t'.only o)
    (h : id ∈ o.executions) : t.execution? id = t'.execution? id := by
  rw [← execution?_only h, hsame, execution?_only h]

section Put

variable {row : WorkflowRow} (h : row.id ∉ o.workflows)

include h

theorem putWorkflow_without : (t.putWorkflow row).without o = (t.without o).putWorkflow row := by
  have hput := Rows.updateFirst?_filter (l := t.workflows) (p := (·.id = row.id))
    (q := (·.id ∉ o.workflows)) (f := fun _ => row)
    (fun a _ ha => by simpa [of_decide_eq_true ha] using h) fun _ _ _ => by simpa using h
  unfold putWorkflow without
  simp only [hput]
  cases Rows.updateFirst? (·.id = row.id) (fun _ => row) t.workflows with
  | none => simp [h]
  | some rows => rfl

theorem putWorkflow_only : (t.putWorkflow row).only o = t.only o := by
  unfold putWorkflow only
  congr 1
  cases hput : Rows.updateFirst? (·.id = row.id) (fun _ => row) t.workflows with
  | none => simp [h]
  | some rows =>
    obtain ⟨before, a, after, hrows, ha, rfl⟩ := Rows.updateFirst?_eq_some hput
    have ha : a.id = row.id := by simpa using ha
    rw [hrows]
    exact Rows.filter_replaced (by simpa [ha] using h) (by simpa using h)

end Put

theorem mem_putWorkflow {row row' : WorkflowRow} (h : row' ∈ (t.putWorkflow row).workflows) :
    row' ∈ t.workflows ∨ row' = row := by
  unfold putWorkflow at h
  cases hput : Rows.updateFirst? (·.id = row.id) (fun _ => row) t.workflows with
  | none => simpa [hput] using h
  | some rows =>
    obtain ⟨before, old, after, hrows, -, rfl⟩ := Rows.updateFirst?_eq_some hput
    rw [hput] at h
    rcases List.mem_append.1 h with h | h
    · exact Or.inl (by simp [hrows, h])
    · exact (List.mem_cons.1 h).elim Or.inr fun h => Or.inl (by simp [hrows, h])

section Remove

variable {id : Uuid} (hp : t.Parted o team) (h : id ∉ o.workflows)

include hp h

/-- The executions of a workflow lie where the workflow lies. -/
theorem Parted.filter_executions :
    (t.executions.filter (·.id ∉ o.executions)).filter (·.workflow = id) =
      t.executions.filter (·.workflow = id) := by
  rw [List.filter_filter]
  refine List.filter_congr fun row hrow => ?_
  by_cases hw : row.workflow = id
  · have hid : row.id ∉ o.executions := fun hid => h (hw ▸ (hp.executions row hrow).1 hid)
    simp [hw, hid]
  · simp [hw]

theorem removeWorkflow_without :
    (t.removeWorkflow id).without o = (t.without o).removeWorkflow id := by
  unfold removeWorkflow without
  simp only [hp.filter_executions h]
  congr 1
  · exact List.filter_comm ..
  · exact List.filter_comm ..
  · exact List.filter_comm ..

theorem removeWorkflow_only : (t.removeWorkflow id).only o = t.only o := by
  unfold removeWorkflow only
  simp only [List.filter_filter, mk.injEq]
  refine ⟨List.filter_congr fun row _ => ?_, List.filter_congr fun row hrow => ?_,
    List.filter_congr fun log _ => ?_⟩
  · by_cases hid : row.id ∈ o.workflows
    · have hne : row.id ≠ id := fun heq => h (heq ▸ hid)
      simp [hid, hne]
    · simp [hid]
  · by_cases hid : row.id ∈ o.executions
    · have hne : row.workflow ≠ id := fun heq => h (heq ▸ (hp.executions row hrow).1 hid)
      simp [hid, hne]
    · simp [hid]
  · by_cases hex : log.execution ∈ o.executions
    · have hstays : log.execution ∉
          (t.executions.filter (·.workflow = id)).map (·.id) := by
        intro hgone
        obtain ⟨row, hrow, hid⟩ := List.mem_map.1 hgone
        obtain ⟨hrow, hw⟩ := List.mem_filter.1 hrow
        rw [← hid] at hex
        exact h (of_decide_eq_true hw ▸ (hp.executions row hrow).1 hex)
      simp [hex, hstays]
    · simp [hex]

end Remove

theorem setExecution_without (row : ExecutionRow) :
    (t.setExecution row).without o = (t.without o).setExecution row := by
  unfold setExecution without
  simp only [List.filter_map, mk.injEq, true_and, and_true]
  congr 1
  refine List.filter_congr fun r _ => ?_
  by_cases hid : r.id = row.id <;> simp [hid]

theorem setExecution_only {row : ExecutionRow} (h : row.id ∉ o.executions) :
    (t.setExecution row).only o = t.only o := by
  unfold setExecution only
  simp only [List.filter_map, mk.injEq, true_and, and_true]
  rw [List.filter_congr (q := fun r => decide (r.id ∈ o.executions)) fun r _ => by
    by_cases hid : r.id = row.id <;> simp [hid]]
  refine (List.map_congr_left fun r hr => if_neg ?_).trans (List.map_id _)
  rintro heq
  have hr := (List.mem_filter.1 hr).2
  exact h (heq ▸ of_decide_eq_true hr)

theorem executionLogs_without {execution : Uuid} (h : execution ∉ o.executions) :
    (t.without o).executionLogs execution = t.executionLogs execution := by
  unfold executionLogs without
  rw [List.filter_filter]
  refine List.filter_congr fun log _ => ?_
  by_cases hex : log.execution = execution <;> simp [hex, h]

/-- No row of the team lies in the part. -/
theorem Parted.teamWorkflows_without (hp : t.Parted o team) :
    (t.without o).teamWorkflows team = t.teamWorkflows team := by
  unfold teamWorkflows without
  rw [List.filter_filter]
  congr 1
  refine List.filter_congr fun row hrow => ?_
  by_cases hteam : row.team = team
  · have hid : row.id ∉ o.workflows := fun hid => (hp.workflows row hrow).1 hid hteam
    simp [hteam, hid]
  · simp [hteam]

/-- A row that a call completes lies outside. -/
theorem Parted.completes (hp : t.Parted o team) {target : LogTarget} {c : Completion}
    (h : (Call.completeLog target c).Avoids o team) {log : LogRow} (hlog : log ∈ t.logs)
    (hm : target.Matches log) : log.execution ∉ o.executions := by
  cases target with
  | row id => exact fun hex => h (hm ▸ hp.logs log hlog hex)
  | latest execution node => exact hm.1 ▸ h

theorem Parted.completeLog_without (hp : t.Parted o team) {target : LogTarget} {c : Completion}
    (h : (Call.completeLog target c).Avoids o team) :
    (t.without o).completeLog target c = (t.completeLog target c).map (Tables.without o) := by
  have hout : ∀ {target}, (Call.completeLog target c).Avoids o team → ∀ log ∈ t.logs,
      target.Matches log → decide (log.execution ∉ o.executions) = true :=
    fun h log hlog hm => decide_eq_true (hp.completes h hlog hm)
  cases target with
  | row id =>
    have hid : ∀ log ∈ t.logs, decide (log.id = id) = true →
        decide (log.execution ∉ o.executions) = true :=
      fun log hlog hid => hout h log hlog (by simpa [LogTarget.Matches] using hid)
    have hfilter := Rows.updateFirst?_filter (f := (·.complete c)) hid hid
    unfold completeLog without
    simp only [hfilter, Option.map_map]
    rfl
  | latest execution node =>
    have hm : ∀ log ∈ t.logs, (decide (log.execution = execution) &&
        decide (log.nodeId = node)) = true → decide (log.execution ∉ o.executions) = true :=
      fun log hlog hm => hout h log hlog (by simpa [LogTarget.Matches] using hm)
    have hfilter := Rows.updateLast?_filter (f := (·.complete c)) hm hm
    unfold completeLog without
    simp only [hfilter, Option.map_map]
    rfl

theorem Parted.completeLog_only (hp : t.Parted o team) {t' : Tables} {target : LogTarget}
    {c : Completion} (h : (Call.completeLog target c).Avoids o team)
    (hc : t.completeLog target c = some t') : t'.only o = t.only o := by
  obtain ⟨before, log, after, hlogs, hm, rfl⟩ := completeLog_eq_some hc
  have hex : log.execution ∉ o.executions := hp.completes h (by simp [hlogs]) hm
  unfold only
  congr 1
  rw [hlogs]
  exact Rows.filter_replaced (decide_eq_false hex) (decide_eq_false hex)

end Tables

namespace MemoryStore

variable {o : Region} {team : Uuid} {s : MemoryStore} {c : Call} {supply : Supply}

/-- Logs can be written, and the part is one of the workflows that are not the team's. -/
structure Parted (o : Region) (team : Uuid) (s : MemoryStore) : Prop where
  tables : s.tables.Parted o team
  writable : s.logWritesFail = false

/-- A workflow that stands after a call has stood before, or has been created just now. -/
theorem workflow_of_answer {row : WorkflowRow}
    (hrow : row ∈ (s.answer supply c).2.1.tables.workflows) :
    row ∈ s.tables.workflows ∨
      row.id = supply.fresh.1 ∧
        ∃ name definition, c = .createWorkflow row.team name definition := by
  by_cases hc : ∃ owner name definition, c = .createWorkflow owner name definition
  · obtain ⟨owner, name, definition, rfl⟩ := hc
    rcases Tables.mem_putWorkflow hrow with hrow | rfl
    · exact Or.inl hrow
    · exact Or.inr ⟨rfl, name, definition, rfl⟩
  · refine Or.inl ?_
    obtain ⟨r, s', supply', hr⟩ : ∃ r s' supply', s.answer supply c = (r, s', supply') :=
      ⟨_, _, _, rfl⟩
    have heffect : s.tables.Effect (fun _ => True) c r s'.tables := effect_of_answer trivial hr
    rw [hr] at hrow
    generalize s'.tables = t' at heffect hrow
    cases heffect with
    | createdWorkflow => exact absurd ⟨_, _, _, rfl⟩ hc
    | deletedWorkflow => exact List.mem_of_mem_filter hrow
    | completed hc =>
      obtain ⟨_, _, _, -, -, rfl⟩ := Tables.completeLog_eq_some hc
      exact hrow
    | failed | read | createdExecution | readExecution | updated | closed | inserted | listed =>
      exact hrow

section

variable (hs : s.Parted o team) (hc : c.Avoids o team) (hf : o.Lacks supply.fresh.1)

include hs hc hf

/-- A call that avoids the part is answered as if the part were not there. -/
theorem answer_without : (s.without o).answer supply c =
    ((s.answer supply c).1, (s.answer supply c).2.1.without o, (s.answer supply c).2.2) := by
  cases c with
  | createWorkflow owner name definition =>
    simp only [answer, without, withTables]
    rw [Tables.putWorkflow_without]
    exact hf.workflow
  | getWorkflow id =>
    simp only [answer, without, Tables.workflow?_without hc]
    cases s.tables.workflow? id <;> rfl
  | workflowTeam id =>
    simp only [answer, without, Tables.workflow?_without hc]
    cases s.tables.workflow? id <;> rfl
  | listWorkflows owner =>
    obtain rfl : owner = team := hc
    simp only [answer, without, hs.tables.teamWorkflows_without]
  | deleteWorkflow id =>
    simp only [answer, without, Tables.workflow?_without hc]
    cases s.tables.workflow? id with
    | none => rfl
    | some _ => simp only [withTables, Tables.removeWorkflow_without hs.tables hc]
  | createExecution workflow =>
    simp only [answer, without, withTables]
    simp [Tables.without, hf.execution]
  | getExecution id =>
    simp only [answer, without, Tables.execution?_without hc]
    cases s.tables.execution? id <;> rfl
  | updateStatus id status finished =>
    simp only [answer, without, Tables.execution?_without hc]
    cases s.tables.execution? id with
    | none => rfl
    | some row =>
      dsimp only
      split
      · rfl
      · split <;> simp only [withTables, Tables.setExecution_without]
  | insertLog entry =>
    have hex : entry.execution ∉ o.executions := hc
    simp only [answer, hs.writable, without, withTables]
    simp [Tables.without, LogEntry.row, hex]
  | completeLog target completion =>
    simp only [answer, hs.writable, without, hs.tables.completeLog_without hc]
    cases s.tables.completeLog target completion <;> rfl
  | listLogs execution =>
    simp only [answer, without, Tables.executionLogs_without hc]

/-- Its rows stay as they are. -/
theorem answer_only : (s.answer supply c).2.1.tables.only o = s.tables.only o := by
  cases c with
  | createWorkflow owner name definition => exact Tables.putWorkflow_only hf.workflow
  | listWorkflows | listLogs => rfl
  | getWorkflow id | workflowTeam id =>
    simp only [answer]
    cases s.tables.workflow? id <;> rfl
  | deleteWorkflow id =>
    simp only [answer]
    cases s.tables.workflow? id with
    | none => rfl
    | some _ => exact Tables.removeWorkflow_only hs.tables hc
  | createExecution workflow =>
    simp [answer, withTables, Tables.only, hf.execution]
  | getExecution id =>
    simp only [answer]
    cases s.tables.execution? id <;> rfl
  | updateStatus id status finished =>
    simp only [answer]
    cases hrow : s.tables.execution? id with
    | none => rfl
    | some row =>
      have hid : row.id ∉ o.executions := (Tables.mem_of_execution? hrow).2 ▸ hc
      dsimp only
      split
      · rfl
      · split <;> exact Tables.setExecution_only hid
  | insertLog entry =>
    have hex : entry.execution ∉ o.executions := hc
    simp [answer, hs.writable, withTables, Tables.only, LogEntry.row, hex]
  | completeLog target completion =>
    simp only [answer, hs.writable]
    cases hlogs : s.tables.completeLog target completion with
    | none => rfl
    | some tables => exact hs.tables.completeLog_only hc hlogs

/-- They are no rows of the team. -/
theorem answer_parted : (s.answer supply c).2.1.Parted o team := by
  have heffect : s.tables.Effect (· = supply.fresh.1) c (s.answer supply c).1
      (s.answer supply c).2.1.tables := effect_of_answer (by rfl) rfl
  refine ⟨⟨fun row hrow => ?_, fun row hrow => ?_, fun log hlog hex => ?_⟩,
    (writable_of_answer hs.writable rfl).1⟩
  · rcases workflow_of_answer hrow with hrow | ⟨hid, name, definition, rfl⟩
    · exact hs.tables.workflows row hrow
    · exact iff_of_false (hid ▸ hf.workflow) (not_not_intro hc)
  · rcases heffect.execution_of hrow with ⟨old, hold, hid, hw, -⟩ | ⟨hid, -, he⟩
    · exact hid ▸ hw ▸ hs.tables.executions old hold
    · obtain ⟨rfl, -⟩ := Event.called.inj he
      exact iff_of_false (hid ▸ hf.execution) hc
  · rcases heffect.log_of hlog with ⟨old, hold, hid, hof, -⟩ | ⟨-, entry, hof, he⟩
    · exact hid ▸ hs.tables.logs old hold (hof ▸ hex)
    · obtain ⟨rfl, -⟩ := Event.called.inj he
      exact absurd (hof ▸ hex) hc

end

end MemoryStore

end Flowgraph
