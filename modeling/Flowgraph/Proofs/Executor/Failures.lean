import Flowgraph.Proofs.Executor.Filing
import Flowgraph.Proofs.Store.Logs
import Flowgraph.Proofs.Tracker.Readers

/-! What the log of a run tells while the run goes on. An attempt is shown as failed only when the run
knows it, and then it is shown so for good. -/

namespace Flowgraph

namespace Executor

variable {x : Executor} {ids : RunIds} {program : Program} {S : Setting}
  {first s s' : MemoryStore} {l l' : List Entry}

theorem status_completion (r : StepResult) (t : Instant) :
    (Tracker.completion r t).status = r.status := by
  cases r <;> rfl

/-- An attempt in the log is still running, or its node has ended with the status. -/
theorem tracked_of_runs (hm : S.Mints ids.execution) (hres : S.Reserves ids.execution)
    (hnone : ∀ row ∈ first.tables.logs, row.execution ≠ ids.execution) (hr : S.Runs first l s)
    (ho : x.Orderly ids program (own l)) :
    ∀ row ∈ s.tables.logs, row.execution = ids.execution → row.status = .running ∨
      ∃ r, (row.nodeId, r) ∈ (tally (own l)).results ∧ row.status = r.status := by
  refine hr.keeps (P := fun l s => x.Orderly ids program (own l) → ∀ row ∈ s.tables.logs,
    row.execution = ids.execution → row.status = .running ∨
      ∃ r, (row.nodeId, r) ∈ (tally (own l)).results ∧ row.status = r.status)
    (fun _ row hrow hexec => absurd hexec (hnone row hrow))
    (fun l e s s' hr ih hs ho row hrow hexec => ?_) ho
  rw [own_append] at ho ⊢
  have hgrow := results_grow (List.prefix_append (own l) (own [e]))
  have hkept : row ∈ s.tables.logs → row.status = .running ∨
      ∃ r, (row.nodeId, r) ∈ (tally (own l ++ own [e])).results ∧ row.status = r.status :=
    fun hold => (ih ho.of_append row hold hexec).imp_right fun ⟨r, hr, hstatus⟩ =>
      ⟨r, hgrow.subset hr, hstatus⟩
  rcases hs.cases with ⟨rfl, -⟩ | ⟨c, r, rfl, ha⟩ | ⟨c, r, rfl, hother, ha⟩
  · exact hkept hrow
  · rcases ha.effect.log_origin hrow with hold | ⟨entry, id, -, -, rfl⟩ |
      ⟨target, cc, old, rfl, hold, hmatch, rfl⟩
    · exact hkept hold
    · exact Or.inl rfl
    · rw [own_cons_own, own_nil] at ho
      obtain ⟨id, result, t, hresult, rfl, htarget⟩ := ho.allowed
      have hfiled := filed_of_runs hm hres.toSpares hr ho.of_append
      obtain ⟨-, rfl⟩ := hfiled.of_matches htarget hold hmatch
      exact Or.inr ⟨result, hgrow.subset hresult, status_completion result t⟩
  · rcases ha.effect.log_origin hrow with hold | ⟨entry, id, rfl, -, rfl⟩ |
      ⟨target, cc, old, rfl, hold, hmatch, rfl⟩
    · exact hkept hold
    · exact absurd hexec (hres.entries s entry hother)
    · exact absurd hmatch (hres.logs s target cc hother old hold hexec)

/-- What others do leaves the log of the execution as it is. -/
theorem executionLogs_of_other {c : Call} {r : c.Reply} (hres : S.Reserves ids.execution)
    (hother : S.others s c) (ha : S.Answers s c r s') :
    s'.tables.executionLogs ids.execution = s.tables.executionLogs ids.execution := by
  refine ha.effect.executionLogs_eq ?_ ?_ ?_
  · rintro w rfl
    exact hres.workflow s w hother
  · rintro entry rfl
    exact hres.entries s entry hother
  · rintro target cc rfl
    exact hres.logs s target cc hother

/-- If the last attempt at a node tells an error, the node has failed. -/
theorem failed_of_latestStatus? (hm : S.Mints ids.execution) (hres : S.Reserves ids.execution)
    (hnone : ∀ row ∈ first.tables.logs, row.execution ≠ ids.execution) (hr : S.Runs first l s)
    (ho : x.Orderly ids program (own l)) {id : String}
    (hlast : latestStatus? (s.tables.executionLogs ids.execution) id = some .error) :
    ∃ r, (id, r) ∈ (tally (own l)).results ∧ r.status = .error := by
  obtain ⟨row, hrow, rfl, hstatus⟩ := exists_of_latestStatus? hlast
  obtain ⟨hrow, hexec⟩ := List.mem_filter.1 hrow
  rcases tracked_of_runs hm hres hnone hr ho row hrow (by simpa using hexec) with
    hrunning | ⟨r, hr, he⟩
  · exact absurd (hstatus.symm.trans hrunning) (by decide)
  · exact ⟨r, hr, he.symm.trans hstatus⟩

/-- A node that has failed is not started again, and an entry of it is completed as failed. -/
theorem error_kept_of_call {c : Call} {r : c.Reply} (hm : S.Mints ids.execution)
    (hspares : S.Spares ids.execution) (hr : S.Runs first l s)
    (ho : x.Orderly ids program (own l ++ [Event.called c r])) {id : String} {failure : StepResult}
    (hfailure : (id, failure) ∈ (tally (own l)).results) (herror : failure.status = .error)
    (ha : S.Answers s c r s')
    (hlast : latestStatus? (s.tables.executionLogs ids.execution) id = some .error) :
    latestStatus? (s'.tables.executionLogs ids.execution) id = some .error := by
  rcases r with e | a
  · rwa [ha.effect.eq_of_error]
  cases c with
  | insertLog entry =>
    obtain ⟨n, -, -, hnew, t, rfl⟩ := ho.allowed
    have hne : a.nodeId ≠ id := by
      rintro rfl
      refine hnew ?_
      rw [ho.of_append.ids_eq]
      exact List.mem_append_left _ (List.mem_map_of_mem (ha.effect.of_inserted.2.1 ▸ hfailure))
    rw [show ids.execution = (n.logEntry ids.execution _ t).execution from rfl,
      ha.effect.executionLogs_inserted, latestStatus?_append_of_ne _ hne]
    exact hlast
  | completeLog target cc =>
    obtain ⟨id', result, t, hresult, rfl, htarget⟩ := ho.allowed
    have hmatches : ∀ row ∈ s.tables.logs, target.Matches row →
        row.execution = ids.execution ∧ row.nodeId = id' := fun _ hrow hmatch =>
      (filed_of_runs hm hspares hr ho.of_append).of_matches htarget hrow hmatch
    obtain ⟨before, row, after, hlog, hmatch, hlog'⟩ :=
      ha.effect.executionLogs_completed fun row hrow hmatch => (hmatches row hrow hmatch).1
    rw [hlog] at hlast
    rw [hlog']
    refine latestStatus?_complete hlast fun hid => ?_
    have hrow : row ∈ s.tables.logs :=
      List.mem_of_mem_filter (hlog.symm ▸ List.mem_append_right before List.mem_cons_self)
    obtain rfl : id' = id := (hmatches row hrow hmatch).2.symm.trans hid
    -- a node ends only once, so the result that is written is the failure
    have hlookup := Results.lookup_of_mem ho.of_append.nodup_ids hfailure
    rw [Results.lookup_of_mem ho.of_append.nodup_ids hresult] at hlookup
    rw [status_completion, Option.some.inj hlookup, herror]
  | deleteWorkflow => exact ho.allowed.elim
  | _ => rwa [ha.effect.executionLogs_eq (by rintro _ ⟨⟩) (by rintro _ ⟨⟩) (by rintro _ _ ⟨⟩)]

variable (ids) in
/-- If the last attempt at a node tells an error, it does so for good. -/
theorem error_kept_of_runs (hm : S.Mints ids.execution) (hres : S.Reserves ids.execution)
    (hnone : ∀ row ∈ first.tables.logs, row.execution ≠ ids.execution) (hr : S.Runs first l s)
    (hr' : S.Runs s l' s') (ho : x.Orderly ids program (own (l ++ l'))) {id : String}
    (hlast : latestStatus? (s.tables.executionLogs ids.execution) id = some .error) :
    (∃ r, (id, r) ∈ (tally (own l)).results ∧ r.status = .error) ∧
      latestStatus? (s'.tables.executionLogs ids.execution) id = some .error := by
  have hbefore : x.Orderly ids program (own l) := (own_append l l' ▸ ho).of_append
  obtain ⟨failure, hfailure, herror⟩ := failed_of_latestStatus? hm hres hnone hr hbefore hlast
  refine ⟨⟨failure, hfailure, herror⟩, ?_⟩
  refine hr'.keeps (P := fun l' s' => x.Orderly ids program (own (l ++ l')) →
    latestStatus? (s'.tables.executionLogs ids.execution) id = some .error) (fun _ => hlast)
    (fun l' e s₁ s₂ hr₁ ih hs ho => ?_) ho
  rw [← List.append_assoc, own_append] at ho
  have hlast := ih ho.of_append
  rcases hs.cases with ⟨rfl, -⟩ | ⟨c, r, rfl, ha⟩ | ⟨c, r, rfl, hother, ha⟩
  · exact hlast
  · rw [own_cons_own, own_nil] at ho
    have hknown : (id, failure) ∈ (tally (own (l ++ l'))).results := by
      rw [own_append]
      exact (results_grow (List.prefix_append _ _)).subset hfailure
    exact error_kept_of_call hm hres.toSpares (hr.append hr₁) ho hknown herror ha hlast
  · rwa [executionLogs_of_other hres hother ha]

end Executor

end Flowgraph
