import Flowgraph.Proofs.Store.Shared

/-! The log of an execution, row by row, in a store that does not fail. What was written in a row at
its start stays there, and a row that is named can be completed. -/

namespace Flowgraph

/-- What was written in the row when the attempt started. -/
def LogRow.entry (row : LogRow) : LogEntry :=
  ⟨row.execution, row.nodeId, row.nodeName, row.nodeType, row.input, row.startedAt⟩

namespace Rows

variable {α : Type} {p : α → Bool} {f : α → α} {l : List α} {a : α}

theorem updateFirst?_isSome (ha : a ∈ l) (hp : p a = true) : (updateFirst? p f l).isSome = true := by
  induction l with
  | nil => simp at ha
  | cons b rest ih =>
    rw [updateFirst?]
    split
    · rfl
    · next hb =>
      rcases List.mem_cons.1 ha with rfl | ha
      · exact absurd hp hb
      · simpa using ih ha

theorem updateLast?_isSome (ha : a ∈ l) (hp : p a = true) : (updateLast? p f l).isSome = true := by
  simpa [updateLast?] using updateFirst?_isSome (f := f) (List.mem_reverse.2 ha) hp

end Rows

namespace Tables

/-- A row that the target names can be completed. -/
theorem completeLog_isSome {t : Tables} {row : LogRow} (hrow : row ∈ t.logs) {target : LogTarget}
    (hm : target.Matches row) (c : Completion) : (t.completeLog target c).isSome = true := by
  cases target with
  | row id =>
    rw [completeLog, Option.isSome_map]
    exact Rows.updateFirst?_isSome hrow (decide_eq_true hm)
  | latest e n =>
    rw [completeLog, Option.isSome_map]
    exact Rows.updateLast?_isSome hrow (by simpa [LogTarget.Matches] using hm)

namespace Effect

variable {t t' : Tables} {issues : Uuid → Prop} {c : Call} {r : c.Reply} {e : Uuid}

/-- A call that neither inserts nor completes rows of a log leaves it as it is, unless its workflow
goes. -/
theorem executionLogs_eq (he : t.Effect issues c r t')
    (hspare : ∀ w, c = .deleteWorkflow w → ∀ row ∈ t.executions, row.id = e → row.workflow ≠ w)
    (hinsert : ∀ entry, c = .insertLog entry → entry.execution ≠ e)
    (hcomplete : ∀ target cc, c = .completeLog target cc → ∀ row ∈ t.logs, row.execution = e →
      ¬ target.Matches row) : t'.executionLogs e = t.executionLogs e := by
  cases he with
  | failed | read | createdWorkflow | createdExecution | readExecution | updated | closed
  | listed => rfl
  | @deletedWorkflow w =>
    simp only [executionLogs, removeWorkflow, List.filter_filter]
    refine List.filter_congr fun row _ => ?_
    simp only [List.mem_map, List.mem_filter, decide_eq_true_eq, not_exists, not_and,
      Bool.and_eq_left_iff_imp]
    rintro rfl ex ⟨hex, hw⟩ hid
    exact hspare w rfl ex hex hid hw
  | @inserted entry id hid =>
    have hother : (entry.row id).execution ≠ e := hinsert entry rfl
    simp [executionLogs, hother]
  | @completed _ c _ h =>
    obtain ⟨before, row, after, hl, hm, rfl⟩ := completeLog_eq_some h
    have hother : row.execution ≠ e := fun he => hcomplete _ _ rfl row (by simp [hl]) he hm
    have hother' : (row.complete c).execution ≠ e := hother
    simp [executionLogs, hl, hother, hother']

/-- Unless a row is inserted or the workflow goes, a log keeps what was written at the starts. -/
theorem entries_kept (he : t.Effect issues c r t')
    (hspare : ∀ w, c = .deleteWorkflow w → ∀ row ∈ t.executions, row.id = e → row.workflow ≠ w)
    (hinsert : ∀ entry, c = .insertLog entry → entry.execution ≠ e) :
    (t'.executionLogs e).map LogRow.entry = (t.executionLogs e).map LogRow.entry := by
  cases he with
  | @completed _ c _ h =>
    obtain ⟨before, row, after, hl, -, rfl⟩ := completeLog_eq_some h
    have hsame : (row.complete c).execution = row.execution := rfl
    simp only [executionLogs, hl, List.filter_append, List.filter_cons, hsame]
    split <;> simp [LogRow.entry, LogRow.complete]
  | failed | read | createdWorkflow | createdExecution | readExecution | updated | closed
  | listed => rfl
  | @deletedWorkflow w =>
    have heffect : t.Effect issues (.deleteWorkflow w) (.ok ()) (t.removeWorkflow w) :=
      .deletedWorkflow
    exact congrArg _ (heffect.executionLogs_eq hspare hinsert (by rintro _ _ ⟨⟩))
  | inserted id hid =>
    exact congrArg _ ((Effect.inserted id hid).executionLogs_eq hspare hinsert (by rintro _ _ ⟨⟩))

/-- Of a log whose row is completed, the other rows stand as they stood. -/
theorem executionLogs_completed {target : LogTarget} {cc : Completion}
    (he : t.Effect issues (.completeLog target cc) (.ok ()) t')
    (hm : ∀ row ∈ t.logs, target.Matches row → row.execution = e) :
    ∃ before row after, t.executionLogs e = before ++ row :: after ∧ target.Matches row ∧
      t'.executionLogs e = before ++ row.complete cc :: after := by
  obtain ⟨before, row, after, hl, hmatch, hl'⟩ := he.of_completed_at
  have hexec : row.execution = e := hm row (by simp [hl]) hmatch
  have hexec' : (row.complete cc).execution = e := hexec
  exact ⟨before.filter (·.execution = e), row, after.filter (·.execution = e),
    by simp [executionLogs, hl, hexec], hmatch, by simp [executionLogs, hl', hexec']⟩

/-- A row that is inserted comes last in its log. -/
theorem executionLogs_inserted {entry : LogEntry} {row : LogRow}
    (he : t.Effect issues (.insertLog entry) (.ok row) t') :
    t'.executionLogs entry.execution = t.executionLogs entry.execution ++ [row] := by
  obtain ⟨-, hrow, hlogs⟩ := he.of_inserted
  have hexec : row.execution = entry.execution := by rw [hrow]; rfl
  simp [executionLogs, hlogs, hexec]

theorem eq_of_error {e : StoreError} (he : t.Effect issues c (.error e) t') : t' = t := by
  cases he with
  | failed | read => rfl

theorem entries_inserted {entry : LogEntry} {row : LogRow}
    (he : t.Effect issues (.insertLog entry) (.ok row) t') :
    (t'.executionLogs entry.execution).map LogRow.entry =
      (t.executionLogs entry.execution).map LogRow.entry ++ [entry] := by
  have hentry : row.entry = entry := by rw [he.of_inserted.2.1]; rfl
  simp [he.executionLogs_inserted, hentry]

end Effect

end Tables

namespace Setting

/-- Others leave the log of the execution alone. -/
structure Reserves (S : Setting) (execution : Uuid) : Prop extends S.Spares execution where
  entries : ∀ s entry, S.others s (.insertLog entry) → entry.execution ≠ execution

/-- The store does not fail, and nothing of the execution has been logged. -/
structure Serves (S : Setting) (execution : Uuid) (first : MemoryStore) : Prop where
  reliable : ¬ S.fails
  writable : first.logWritesFail = false
  unlogged : ∀ row ∈ first.tables.logs, row.execution ≠ execution

namespace Serves

variable {S : Setting} {execution : Uuid} {first s s' : MemoryStore} {l : List Entry}

theorem eq_notFound (hS : S.Serves execution first) (hr : S.Runs first l s) {c : Call}
    {e : StoreError} (hc : .called c (.error e) ∈ own l) : e = .notFound :=
  (hr.writable hS.reliable hS.writable).2 c e hc

theorem not_refused (hS : S.Serves execution first) (hr : S.Runs first l s) (entry : LogEntry)
    (e : StoreError) : .called (.insertLog entry) (.error e) ∉ own l := by
  intro hc
  obtain ⟨before, after, s₁, s₂, -, hbefore, ha⟩ := hr.answered hc
  have hwrites := (hbefore.writable hS.reliable hS.writable).1
  cases ha with
  | served _ h =>
    rw [MemoryStore.answer, if_neg (by simp [hwrites])] at h
    cases h
  | refused h => exact hS.reliable h

/-- A row that is there is found by a call that is to complete it. -/
theorem not_missing (hS : S.Serves execution first) (hr : S.Runs first l s) {target : LogTarget}
    {row : LogRow} (hrow : row ∈ s.tables.logs) (hm : target.Matches row) {c : Completion}
    {e : StoreError} : ¬ S.Answers s (.completeLog target c) (.error e) s' := by
  intro ha
  obtain ⟨tables, htables⟩ := Option.isSome_iff_exists.1 (Tables.completeLog_isSome hrow hm c)
  have hwrites := (hr.writable hS.reliable hS.writable).1
  cases ha with
  | served _ h =>
    rw [MemoryStore.answer, if_neg (by simp [hwrites]), htables] at h
    cases h
  | refused h => exact hS.reliable h

end Serves

end Setting

end Flowgraph
