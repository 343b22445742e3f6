import Flowgraph.Proofs.Store.Trace

/-! What one call makes of the rows of a store. A row that stands after the call stood before it
or is what the call has written, and a row goes only with its workflow. -/

namespace Flowgraph

/-- The target names the row. -/
def LogTarget.Matches (row : LogRow) : LogTarget → Prop
  | .row id => row.id = id
  | .latest execution nodeId => row.execution = execution ∧ row.nodeId = nodeId

/-- Of all rows this is the one that the target stands for. -/
def LogTarget.Picks (before : List LogRow) (row : LogRow) (after : List LogRow) : LogTarget → Prop
  | .row id => row.id = id ∧ ∀ r ∈ before, r.id ≠ id
  | .latest execution nodeId => (row.execution = execution ∧ row.nodeId = nodeId) ∧
      ∀ r ∈ after, ¬ (r.execution = execution ∧ r.nodeId = nodeId)

theorem LogTarget.Picks.matches {before after : List LogRow} {row : LogRow} {target : LogTarget}
    (h : target.Picks before row after) : target.Matches row := by
  cases target with
  | row | latest => exact h.1

namespace Rows

variable {α : Type} {p : α → Bool} {f : α → α}

/-- The first row that fits has been replaced. -/
theorem updateFirst?_first {l l' : List α} (h : updateFirst? p f l = some l') :
    ∃ before a after, l = before ++ a :: after ∧ p a = true ∧ (∀ b ∈ before, p b = false) ∧
      l' = before ++ f a :: after := by
  induction l generalizing l' with
  | nil => simp [updateFirst?] at h
  | cons b rest ih =>
    rw [updateFirst?] at h
    split at h
    · next hb =>
      obtain rfl := Option.some.inj h
      exact ⟨[], b, rest, rfl, hb, by simp, rfl⟩
    · next hb =>
      obtain ⟨m, hm, rfl⟩ := Option.map_eq_some_iff.1 h
      obtain ⟨before, a, after, rfl, ha, hbefore, rfl⟩ := ih hm
      exact ⟨b :: before, a, after, rfl, ha, by simpa using ⟨by simpa using hb, hbefore⟩, rfl⟩

theorem updateLast?_last {l l' : List α} (h : updateLast? p f l = some l') :
    ∃ before a after, l = before ++ a :: after ∧ p a = true ∧ (∀ b ∈ after, p b = false) ∧
      l' = before ++ f a :: after := by
  obtain ⟨m, hm, rfl⟩ := Option.map_eq_some_iff.1 h
  obtain ⟨before, a, after, hl, ha, hbefore, rfl⟩ := updateFirst?_first hm
  refine ⟨after.reverse, a, before.reverse, ?_, ha, by simpa using hbefore, by simp⟩
  simpa using congrArg List.reverse hl

/-- One row has taken the place of another one. -/
theorem updateFirst?_eq_some {l l' : List α} (h : updateFirst? p f l = some l') :
    ∃ before a after, l = before ++ a :: after ∧ p a = true ∧ l' = before ++ f a :: after := by
  obtain ⟨before, a, after, hl, ha, -, hl'⟩ := updateFirst?_first h
  exact ⟨before, a, after, hl, ha, hl'⟩

end Rows

namespace Tables

theorem completeLog_picks {t t' : Tables} {target : LogTarget} {c : Completion}
    (h : t.completeLog target c = some t') :
    ∃ before row after, t.logs = before ++ row :: after ∧ target.Picks before row after ∧
      t' = { t with logs := before ++ row.complete c :: after } := by
  cases target with
  | row id =>
    obtain ⟨logs, hlogs, rfl⟩ := Option.map_eq_some_iff.1 h
    obtain ⟨before, row, after, hl, hrow, hbefore, rfl⟩ := Rows.updateFirst?_first hlogs
    exact ⟨before, row, after, hl, ⟨by simpa using hrow, by simpa using hbefore⟩, rfl⟩
  | latest e n =>
    obtain ⟨logs, hlogs, rfl⟩ := Option.map_eq_some_iff.1 h
    obtain ⟨before, row, after, hl, hrow, hafter, rfl⟩ := Rows.updateLast?_last hlogs
    exact ⟨before, row, after, hl, ⟨by simpa using hrow, by simpa using hafter⟩, rfl⟩

theorem completeLog_eq_some {t t' : Tables} {target : LogTarget} {c : Completion}
    (h : t.completeLog target c = some t') :
    ∃ before row after, t.logs = before ++ row :: after ∧ target.Matches row ∧
      t' = { t with logs := before ++ row.complete c :: after } := by
  obtain ⟨before, row, after, hl, hp, ht⟩ := completeLog_picks h
  exact ⟨before, row, after, hl, hp.matches, ht⟩

theorem mem_of_execution? {t : Tables} {id : Uuid} {row : ExecutionRow}
    (h : t.execution? id = some row) : row ∈ t.executions ∧ row.id = id :=
  ⟨List.mem_of_find?_eq_some h, by simpa using List.find?_some h⟩

theorem mem_setExecution {t : Tables} {row row' : ExecutionRow}
    (h : row' ∈ (t.setExecution row).executions) :
    (row' ∈ t.executions ∧ row'.id ≠ row.id) ∨ row' = row := by
  obtain ⟨r, hr, rfl⟩ := List.mem_map.1 h
  by_cases hid : r.id = row.id
  · exact Or.inr (if_pos hid)
  · rw [if_neg hid]
    exact Or.inl ⟨hr, hid⟩

end Tables

/-- All that a call can make of the tables, when only some identifiers may be given out. -/
inductive Tables.Effect (t : Tables) (issues : Uuid → Prop) : (c : Call) → c.Reply → Tables → Prop
  | failed {c} {e : StoreError} : Effect t issues c (.error e) t
  | read {c : Call} {r : c.Reply} : c.method ∈ [.getWorkflow, .listWorkflows, .workflowTeam] →
    Effect t issues c r t
  | createdWorkflow {team name definition} (row) :
    Effect t issues (.createWorkflow team name definition) (.ok row) (t.putWorkflow row)
  | deletedWorkflow {w} : Effect t issues (.deleteWorkflow w) (.ok ()) (t.removeWorkflow w)
  | createdExecution {w} (row) : issues row.id → row.workflow = w → row.status = .pending →
    Effect t issues (.createExecution w) (.ok row)
      { t with executions := t.executions ++ [row] }
  | readExecution {e row} : t.execution? e = some row →
    Effect t issues (.getExecution e) (.ok row) t
  | updated {e st finished row} (finishedAt) : t.execution? e = some row →
    row.status.isTerminal = false →
    Effect t issues (.updateStatus e st finished) (.ok true)
      (t.setExecution { row with status := st, finishedAt })
  | closed {e st finished row} : t.execution? e = some row → row.status.isTerminal = true →
    Effect t issues (.updateStatus e st finished) (.ok false) t
  | inserted {entry} (id) : issues id →
    Effect t issues (.insertLog entry) (.ok (entry.row id))
      { t with logs := t.logs ++ [entry.row id] }
  | completed {target c t'} : t.completeLog target c = some t' →
    Effect t issues (.completeLog target c) (.ok ()) t'
  | listed {e} : Effect t issues (.listLogs e) (.ok (t.executionLogs e)) t

theorem MemoryStore.effect_of_answer {s s' : MemoryStore} {supply supply' : Supply}
    {issues : Uuid → Prop} (hid : issues supply.fresh.1) {c : Call} {r : c.Reply}
    (h : s.answer supply c = (r, s', supply')) : s.tables.Effect issues c r s'.tables := by
  cases c with
  | createWorkflow => cases h; exact .createdWorkflow _
  | createExecution => cases h; exact .createdExecution _ hid rfl rfl
  | listWorkflows => cases h; exact .read (by simp [Call.method])
  | listLogs => cases h; exact .listed
  | getWorkflow | workflowTeam =>
    simp only [answer] at h
    split at h <;> cases h
    · exact .read (by simp [Call.method])
    · exact .failed
  | deleteWorkflow =>
    simp only [answer] at h
    split at h <;> cases h
    · exact .deletedWorkflow
    · exact .failed
  | getExecution =>
    simp only [answer] at h
    split at h <;> cases h
    · next hrow => exact .readExecution hrow
    · exact .failed
  | updateStatus e st finished =>
    simp only [answer] at h
    split at h
    · cases h; exact .failed
    · next row hrow =>
      split at h
      · next hterm => cases h; exact .closed hrow hterm
      · next hterm =>
        have hopen : row.status.isTerminal = false := by simpa using hterm
        split at h <;> cases h
        · exact .updated _ hrow hopen
        · exact .updated row.finishedAt hrow hopen
  | insertLog =>
    simp only [answer] at h
    split at h <;> cases h
    · exact .failed
    · exact .inserted _ hid
  | completeLog =>
    simp only [answer] at h
    split at h
    · cases h; exact .failed
    · split at h <;> cases h
      · next hc => exact .completed hc
      · exact .failed

/-- A store in which logs can be written fails only where a row is missing. -/
theorem MemoryStore.writable_of_answer {s s' : MemoryStore} {supply supply' : Supply}
    (hw : s.logWritesFail = false) {c : Call} {r : c.Reply}
    (h : s.answer supply c = (r, s', supply')) :
    s'.logWritesFail = false ∧ ∀ e, r = .error e → e = .notFound := by
  cases c with
  | createWorkflow | createExecution | listWorkflows | listLogs => cases h; exact ⟨hw, by simp⟩
  | getWorkflow | workflowTeam | deleteWorkflow | getExecution =>
    simp only [answer] at h
    split at h <;> cases h <;> exact ⟨hw, by simp⟩
  | updateStatus e st finished =>
    simp only [answer] at h
    split at h
    · cases h; exact ⟨hw, by simp⟩
    · split at h
      · cases h; exact ⟨hw, by simp⟩
      · split at h <;> cases h <;> exact ⟨hw, by simp⟩
  | insertLog entry =>
    rw [answer, if_neg (by simp [hw])] at h
    cases h
    exact ⟨hw, by simp⟩
  | completeLog target c =>
    rw [answer, if_neg (by simp [hw])] at h
    split at h <;> cases h <;> exact ⟨hw, by simp⟩

theorem Setting.Answers.writable {S : Setting} (hf : ¬ S.fails) {s s' : MemoryStore}
    (hw : s.logWritesFail = false) {c : Call} {r : c.Reply} (ha : S.Answers s c r s') :
    s'.logWritesFail = false ∧ ∀ e, r = .error e → e = .notFound := by
  cases ha with
  | served _ h => exact MemoryStore.writable_of_answer hw h
  | refused h => exact absurd h hf

/-- Along a trace in which no call fails, only for want of a row is a call refused. -/
theorem Setting.Runs.writable {S : Setting} (hf : ¬ S.fails) {first s : MemoryStore}
    {l : List Entry} (hr : S.Runs first l s) (hw : first.logWritesFail = false) :
    s.logWritesFail = false ∧ ∀ c (e : StoreError), .called c (.error e) ∈ own l → e = .notFound := by
  have hwrites : ∀ {l s}, S.Runs first l s → s.logWritesFail = false := by
    intro l s hr
    refine hr.keeps (P := fun _ s => s.logWritesFail = false) hw fun l e s s' _ ih hs => ?_
    rcases hs.cases with ⟨rfl, -⟩ | ⟨c, r, -, ha⟩ | ⟨c, r, -, -, ha⟩
    · exact ih
    · exact (ha.writable hf ih).1
    · exact (ha.writable hf ih).1
  refine ⟨hwrites hr, fun c e hc => ?_⟩
  obtain ⟨before, after, s₁, s₂, -, hbefore, ha⟩ := hr.answered hc
  exact (ha.writable hf (hwrites hbefore)).2 e rfl

theorem Setting.Answers.effect {S : Setting} {s s' : MemoryStore} {c : Call} {r : c.Reply}
    (ha : S.Answers s c r s') : s.tables.Effect (S.issues s) c r s'.tables := by
  cases ha with
  | served hid h => exact MemoryStore.effect_of_answer hid h
  | refused => exact .failed

namespace Tables.Effect

variable {t t' : Tables} {issues : Uuid → Prop} {c : Call} {r : c.Reply}

/-- A row of an execution is an old one or a new one, or its status was still open and has been
written. -/
theorem execution_origin (he : t.Effect issues c r t') {row : ExecutionRow}
    (hrow : row ∈ t'.executions) :
    row ∈ t.executions ∨ (issues row.id ∧ ∃ w, c = .createExecution w) ∨
      ∃ st finished old, c = .updateStatus row.id st finished ∧ row.status = st ∧
        old ∈ t.executions ∧ old.id = row.id ∧ old.status.isTerminal = false := by
  cases he with
  | failed | read | createdWorkflow | readExecution | closed | inserted | listed =>
    exact Or.inl hrow
  | deletedWorkflow => exact Or.inl (List.mem_of_mem_filter hrow)
  | createdExecution new hid =>
    rcases List.mem_append.1 hrow with hrow | hrow
    · exact Or.inl hrow
    · obtain rfl := List.mem_singleton.1 hrow
      exact Or.inr (Or.inl ⟨hid, _, rfl⟩)
  | updated finishedAt hold hopen =>
    obtain ⟨hmem, rfl⟩ := mem_of_execution? hold
    rcases mem_setExecution hrow with ⟨hrow, -⟩ | rfl
    · exact Or.inl hrow
    · exact Or.inr (Or.inr ⟨_, _, _, rfl, rfl, hmem, rfl, hopen⟩)
  | completed h =>
    obtain ⟨_, _, _, -, -, rfl⟩ := completeLog_eq_some h
    exact Or.inl hrow

theorem has_execution (he : t.Effect issues c r t') {e : Uuid}
    (hspare : ∀ w, c = .deleteWorkflow w → ∀ row ∈ t.executions, row.id = e → row.workflow ≠ w)
    (hrow : ∃ row ∈ t.executions, row.id = e) : ∃ row ∈ t'.executions, row.id = e := by
  obtain ⟨row, hrow, rfl⟩ := hrow
  cases he with
  | failed | read | createdWorkflow | readExecution | closed | inserted | listed =>
    exact ⟨row, hrow, rfl⟩
  | deletedWorkflow =>
    exact ⟨row, List.mem_filter.2 ⟨hrow, by simpa using hspare _ rfl row hrow rfl⟩, rfl⟩
  | createdExecution => exact ⟨row, List.mem_append_left _ hrow, rfl⟩
  | @updated e st finished old finishedAt hold hopen =>
    refine ⟨_, List.mem_map_of_mem hrow, ?_⟩
    split
    · next hid => exact hid.symm
    · rfl
  | completed h =>
    obtain ⟨_, _, _, -, -, rfl⟩ := completeLog_eq_some h
    exact ⟨row, hrow, rfl⟩

/-- After a status has been written, all rows of the execution carry it. -/
theorem status_of_updated {e : Uuid} {st : RunStatus} {finished : Bool}
    (he : t.Effect issues (.updateStatus e st finished) (.ok true) t') :
    (∃ row ∈ t'.executions, row.id = e) ∧ ∀ row ∈ t'.executions, row.id = e → row.status = st := by
  cases he with
  | read h => simp [Call.method] at h
  | updated finishedAt hold hopen =>
    obtain ⟨hmem, rfl⟩ := mem_of_execution? hold
    constructor
    · exact ⟨_, List.mem_map_of_mem hmem, by simp⟩
    · intro row hrow hid
      rcases mem_setExecution hrow with ⟨-, hne⟩ | rfl
      · exact absurd hid hne
      · rfl

theorem eq_of_read (he : t.Effect issues c r t')
    (hc : c.method ∈ [.getExecution, .workflowTeam, .listLogs]) : t' = t := by
  cases he with
  | failed | read | readExecution | listed | closed => rfl
  | createdWorkflow | deletedWorkflow | createdExecution | updated | inserted | completed =>
    simp [Call.method] at hc

/-- A status that was final before is not written. -/
theorem eq_of_closed {e : Uuid} {st : RunStatus} {finished : Bool}
    (he : t.Effect issues (.updateStatus e st finished) (.ok false) t') : t' = t := by
  cases he with
  | read h => simp [Call.method] at h
  | closed => rfl

theorem terminal_of_closed {e : Uuid} {st : RunStatus} {finished : Bool}
    (he : t.Effect issues (.updateStatus e st finished) (.ok false) t') :
    ∃ row, t.execution? e = some row ∧ row.status.isTerminal = true := by
  cases he with
  | read h => simp [Call.method] at h
  | closed hrow hterm => exact ⟨_, hrow, hterm⟩

theorem mem_of_readExecution {e : Uuid} {row : ExecutionRow}
    (he : t.Effect issues (.getExecution e) (.ok row) t') : row ∈ t.executions ∧ row.id = e := by
  cases he with
  | read h => simp [Call.method] at h
  | readExecution h => exact mem_of_execution? h

theorem eq_of_listed {e : Uuid} {rows : List LogRow}
    (he : t.Effect issues (.listLogs e) (.ok rows) t') : rows = t.executionLogs e := by
  cases he with
  | read h => simp [Call.method] at h
  | listed => rfl

/-- A row of a log is an old one, or it was inserted or completed just now. -/
theorem log_origin (he : t.Effect issues c r t') {row : LogRow} (hrow : row ∈ t'.logs) :
    row ∈ t.logs ∨ (∃ entry id, c = .insertLog entry ∧ issues id ∧ row = entry.row id) ∨
      ∃ target cc old, c = .completeLog target cc ∧ old ∈ t.logs ∧ target.Matches old ∧
        row = old.complete cc := by
  cases he with
  | failed | read | createdWorkflow | createdExecution | readExecution | updated | closed
  | listed => exact Or.inl hrow
  | deletedWorkflow => exact Or.inl (List.mem_of_mem_filter hrow)
  | inserted id hid =>
    rcases List.mem_append.1 hrow with hrow | hrow
    · exact Or.inl hrow
    · exact Or.inr (Or.inl ⟨_, id, rfl, hid, List.mem_singleton.1 hrow⟩)
  | completed h =>
    obtain ⟨before, old, after, hl, hm, rfl⟩ := completeLog_eq_some h
    rcases List.mem_append.1 hrow with hrow | hrow
    · exact Or.inl (by simp [hl, hrow])
    · rcases List.mem_cons.1 hrow with rfl | hrow
      · exact Or.inr (Or.inr ⟨_, _, old, rfl, by simp [hl], hm, rfl⟩)
      · exact Or.inl (by simp [hl, hrow])

/-- A row of a log stays until its workflow goes, unless it is completed. -/
theorem log_kept (he : t.Effect issues c r t') {row : LogRow} (hrow : row ∈ t.logs)
    (hspare : ∀ w, c = .deleteWorkflow w → ∀ ex ∈ t.executions, ex.id = row.execution →
      ex.workflow ≠ w) :
    row ∈ t'.logs ∨ ∃ target cc, c = .completeLog target cc ∧ target.Matches row ∧
      row.complete cc ∈ t'.logs := by
  cases he with
  | failed | read | createdWorkflow | createdExecution | readExecution | updated | closed
  | listed => exact Or.inl hrow
  | deletedWorkflow =>
    refine Or.inl (List.mem_filter.2 ⟨hrow, ?_⟩)
    simp only [List.mem_map, List.mem_filter, decide_eq_true_eq, not_exists, not_and]
    intro ex hex hid
    exact hspare _ rfl ex hex.1 hid hex.2
  | inserted => exact Or.inl (List.mem_append_left _ hrow)
  | completed h =>
    obtain ⟨before, old, after, hl, hm, rfl⟩ := completeLog_eq_some h
    rw [hl] at hrow
    rcases List.mem_append.1 hrow with hrow | hrow
    · exact Or.inl (List.mem_append_left _ hrow)
    · rcases List.mem_cons.1 hrow with rfl | hrow
      · exact Or.inr ⟨_, _, rfl, hm, by simp⟩
      · exact Or.inl (List.mem_append_right _ (List.mem_cons_of_mem _ hrow))

theorem of_inserted {entry : LogEntry} {row : LogRow}
    (he : t.Effect issues (.insertLog entry) (.ok row) t') :
    issues row.id ∧ row = entry.row row.id ∧ t'.logs = t.logs ++ [row] := by
  cases he with
  | read h => simp [Call.method] at h
  | inserted id hid => exact ⟨hid, rfl, rfl⟩

/-- One row has been completed, and the others stand as they stood. -/
theorem of_completed_at {target : LogTarget} {cc : Completion}
    (he : t.Effect issues (.completeLog target cc) (.ok ()) t') :
    ∃ before row after, t.logs = before ++ row :: after ∧ target.Matches row ∧
      t'.logs = before ++ row.complete cc :: after := by
  cases he with
  | read h => simp [Call.method] at h
  | completed h =>
    obtain ⟨before, row, after, hl, hm, rfl⟩ := completeLog_eq_some h
    exact ⟨before, row, after, hl, hm, rfl⟩

theorem of_completed {target : LogTarget} {cc : Completion}
    (he : t.Effect issues (.completeLog target cc) (.ok ()) t') :
    ∃ row ∈ t.logs, target.Matches row ∧ row.complete cc ∈ t'.logs := by
  obtain ⟨before, row, after, hl, hm, hl'⟩ := he.of_completed_at
  exact ⟨row, by simp [hl], hm, by simp [hl']⟩

end Tables.Effect

end Flowgraph
