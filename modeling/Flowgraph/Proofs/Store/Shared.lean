import Flowgraph.Proofs.Store.Rows

/-! What a run can count on when others use its store too. An execution that is marked with an
error stays so whatever anybody does, and its rows stay unless somebody takes them away. -/

namespace Flowgraph

namespace Setting

/-- Identifiers are given out once. -/
structure Mints (S : Setting) (execution : Uuid) : Prop where
  execution : ∀ s id, S.issues s id → id ≠ execution
  logs : ∀ s id, S.issues s id → ∀ row ∈ s.tables.logs, row.id ≠ id

/-- Others neither delete the workflow of the execution nor complete logs of it. -/
structure Spares (S : Setting) (execution : Uuid) : Prop where
  workflow : ∀ s w, S.others s (.deleteWorkflow w) →
    ∀ row ∈ s.tables.executions, row.id = execution → row.workflow ≠ w
  logs : ∀ s target c, S.others s (.completeLog target c) →
    ∀ row ∈ s.tables.logs, row.execution = execution → ¬ target.Matches row

end Setting

/-- All rows of the execution carry an error. -/
def MemoryStore.Failed (s : MemoryStore) (execution : Uuid) : Prop :=
  ∀ row ∈ s.tables.executions, row.id = execution → row.status = .error

def MemoryStore.Holds (s : MemoryStore) (execution : Uuid) : Prop :=
  ∃ row ∈ s.tables.executions, row.id = execution

namespace Setting

variable {S : Setting} {execution : Uuid} {s s' first : MemoryStore} {l : List Entry}

/-- A row that carries an error is not written again. -/
theorem Answers.failed (hm : S.Mints execution) {c : Call} {r : c.Reply}
    (ha : S.Answers s c r s') (hf : s.Failed execution) : s'.Failed execution := by
  intro row hrow hid
  rcases ha.effect.execution_origin hrow with hold | ⟨hnew, -⟩ |
    ⟨st, finished, old, -, -, hold, he, hopen⟩
  · exact hf row hold hid
  · exact absurd hid (hm.execution s row.id hnew)
  · have herror := hf old hold (he.trans hid)
    rw [herror] at hopen
    exact absurd hopen (by decide)

theorem Runs.failed (hm : S.Mints execution) (hr : S.Runs first l s)
    (hf : first.Failed execution) : s.Failed execution := by
  refine hr.keeps (P := fun _ s => s.Failed execution) hf fun l e s s' _ ih hs => ?_
  rcases hs.cases with ⟨rfl, -⟩ | ⟨c, r, -, ha⟩ | ⟨c, r, -, -, ha⟩
  · exact ih
  · exact ha.failed hm ih
  · exact ha.failed hm ih

/-- The row of an execution stays until its workflow is deleted. -/
theorem Runs.holds (hspare : S.Spares execution) (hr : S.Runs first l s)
    (hown : ∀ w r, .called (.deleteWorkflow w) r ∉ own l) (hh : first.Holds execution) :
    s.Holds execution := by
  refine hr.keeps (P := fun l s => (∀ w r, .called (.deleteWorkflow w) r ∉ own l) →
    s.Holds execution) (fun _ => hh) (fun l e s s' _ ih hs hown => ?_) hown
  have ih := ih fun w r hmem => hown w r (by simp [hmem])
  rcases hs.cases with ⟨rfl, -⟩ | ⟨c, r, rfl, ha⟩ | ⟨c, r, rfl, ho, ha⟩
  · exact ih
  · refine ha.effect.has_execution (fun w hw => ?_) ih
    subst hw
    exact absurd (by simp) (hown w r)
  · refine ha.effect.has_execution (fun w hw => ?_) ih
    subst hw
    exact hspare.workflow s w ho

/-- After a trace in which a call has marked the execution with an error, it is marked. -/
theorem Runs.failed_of_marked {early late : List Entry} {finished : Bool}
    (hr : S.Runs first
      (early ++ .other (.updateStatus execution .error finished) (.ok true) :: late) s) :
    ∃ marked, S.Runs marked late s ∧ marked.Failed execution ∧ marked.Holds execution := by
  obtain ⟨s₁, s₂, -, hs, hlate⟩ := hr.around
  cases hs with
  | other _ ha =>
    obtain ⟨hholds, hfailed⟩ := ha.effect.status_of_updated
    exact ⟨s₂, hlate, hfailed, hholds⟩

/-- Whoever reads a row that carries an error sees the error. -/
theorem Runs.error_of_read (hm : S.Mints execution) (hf : first.Failed execution)
    {before after : List Entry} {row : ExecutionRow}
    (hr : S.Runs first (before ++ .own (.called (.getExecution execution) (.ok row)) :: after) s) :
    row.status = .error := by
  obtain ⟨s₁, s₂, hbefore, hs, -⟩ := hr.around
  cases hs with
  | quiet he => exact absurd rfl (he _ _)
  | own ha =>
    obtain ⟨hmem, hid⟩ := ha.effect.mem_of_readExecution
    exact hbefore.failed hm hf row hmem hid

end Setting

end Flowgraph
