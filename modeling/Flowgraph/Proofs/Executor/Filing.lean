import Flowgraph.Proofs.Executor.Drive
import Flowgraph.Proofs.Store.Shared

/-! The logs of a run in a store that others use too. A row that a run has written for a node stays
the row of that node, so what a run has recorded of a node can be read in its log. -/

namespace Flowgraph

/-- A log of the node tells the result. -/
def MemoryStore.Written (s : MemoryStore) (execution : Uuid) (id : String) (r : StepResult) :
    Prop :=
  ∃ (row : LogRow) (t : Instant), row.complete (Tracker.completion r t) ∈ s.tables.logs ∧
    row.execution = execution ∧ row.nodeId = id

/-- The rows that a run has written are there, and what it has recorded stands in them. -/
structure Filed (execution : Uuid) (h : List Event) (s : MemoryStore) : Prop where
  present : ∀ entry r, .called (.insertLog entry) (.ok r) ∈ h →
    ∃ row ∈ s.tables.logs, row.id = r.id
  nodes : ∀ entry r, .called (.insertLog entry) (.ok r) ∈ h →
    ∀ row ∈ s.tables.logs, row.id = r.id → row.execution = execution ∧ row.nodeId = entry.nodeId
  written : ∀ target c, .called (.completeLog target c) (.ok ()) ∈ h →
    ∃ id r, Targets execution h id target ∧ (id, r) ∈ (tally h).results ∧ s.Written execution id r

namespace Filed

variable {execution : Uuid} {h : List Event} {s s' : MemoryStore}

theorem of_matches (hf : Filed execution h s) {id : String} {target : LogTarget}
    (ht : Targets execution h id target) {row : LogRow} (hrow : row ∈ s.tables.logs)
    (hm : target.Matches row) : row.execution = execution ∧ row.nodeId = id := by
  cases target with
  | row rid =>
    obtain ⟨entry, r, hr, hid, hrid⟩ := ht
    obtain ⟨hexec, hnode⟩ := hf.nodes entry r hr row hrow (hm.trans hrid.symm)
    exact ⟨hexec, hnode.trans hid⟩
  | latest e node =>
    obtain ⟨rfl, rfl⟩ := ht
    exact hm

/-- A target belongs to one node. -/
theorem targets_unique (hf : Filed execution h s) {id id' : String} {target : LogTarget}
    (ht : Targets execution h id target) (ht' : Targets execution h id' target) : id = id' := by
  cases target with
  | row rid =>
    have hinserted := ht
    obtain ⟨entry, r, hr, -, hrid⟩ := hinserted
    obtain ⟨row, hrow, hid⟩ := hf.present entry r hr
    have hm : (LogTarget.row rid).Matches row := hid.trans hrid
    exact (hf.of_matches ht hrow hm).2.symm.trans (hf.of_matches ht' hrow hm).2
  | latest e node => exact ht.2.symm.trans ht'.2

theorem grows (hf : Filed execution h s) {e : Event}
    (hpresent : ∀ entry r, e = .called (.insertLog entry) (.ok r) →
      (∃ row ∈ s.tables.logs, row.id = r.id) ∧ ∀ row ∈ s.tables.logs, row.id = r.id →
        row.execution = execution ∧ row.nodeId = entry.nodeId)
    (hwritten : ∀ target c, e = .called (.completeLog target c) (.ok ()) →
      ∃ id r, Targets execution h id target ∧ (id, r) ∈ (tally h).results ∧
        s.Written execution id r) :
    Filed execution (h ++ [e]) s := by
  have hgrow : h <+: h ++ [e] := List.prefix_append _ _
  have hsplit : ∀ e', e' ∈ h ++ [e] → e' ∈ h ∨ e = e' := by
    intro e' he'
    simpa [eq_comm] using he'
  refine ⟨fun entry r hr => ?_, fun entry r hr => ?_, fun target c hc => ?_⟩
  · rcases hsplit _ hr with hr | hr
    · exact hf.present entry r hr
    · exact (hpresent entry r hr).1
  · rcases hsplit _ hr with hr | hr
    · exact hf.nodes entry r hr
    · exact (hpresent entry r hr).2
  · have hold : ∃ id r, Targets execution h id target ∧ (id, r) ∈ (tally h).results ∧
        s.Written execution id r := by
      rcases hsplit _ hc with hc | hc
      · exact hf.written target c hc
      · exact hwritten target c hc
    obtain ⟨id, r, ht, hres, hw⟩ := hold
    exact ⟨id, r, ht.grows hgrow, (results_grow hgrow).subset hres, hw⟩

/-- A call keeps the logs of the run if it completes its rows with results of their nodes only. -/
theorem answered {S : Setting} (hf : Filed execution h s) (hm : S.Mints execution) {c : Call}
    {r : c.Reply} (ha : S.Answers s c r s')
    (hspare : ∀ w, c = .deleteWorkflow w →
      ∀ row ∈ s.tables.executions, row.id = execution → row.workflow ≠ w)
    (hcomplete : ∀ target cc, c = .completeLog target cc → ∀ row ∈ s.tables.logs,
      row.execution = execution → target.Matches row →
        ∃ r t, cc = Tracker.completion r t ∧ (row.nodeId, r) ∈ (tally h).results) :
    Filed execution h s' := by
  have hkept : ∀ row ∈ s.tables.logs, row.execution = execution → row ∈ s'.tables.logs ∨
      ∃ target cc, c = .completeLog target cc ∧ target.Matches row ∧
        row.complete cc ∈ s'.tables.logs := by
    rintro row hrow rfl
    exact ha.effect.log_kept hrow hspare
  refine ⟨fun entry r hr => ?_, fun entry r hr row hrow hid => ?_, fun target cc hcc => ?_⟩
  · obtain ⟨row, hrow, hid⟩ := hf.present entry r hr
    rcases hkept row hrow (hf.nodes entry r hr row hrow hid).1 with hrow | ⟨_, cc, -, -, hrow⟩
    · exact ⟨row, hrow, hid⟩
    · exact ⟨_, hrow, hid⟩
  · rcases ha.effect.log_origin hrow with hrow | ⟨other, new, -, hnew, rfl⟩ |
      ⟨_, cc, old, -, hold, -, rfl⟩
    · exact hf.nodes entry r hr row hrow hid
    · obtain ⟨row, hrow, hid'⟩ := hf.present entry r hr
      exact absurd (hid'.trans hid.symm) (hm.logs s new hnew row hrow)
    · exact hf.nodes entry r hr old hold hid
  · obtain ⟨id, r, ht, hres, row, t, hrow, hexec, hnode⟩ := hf.written target cc hcc
    rcases hkept _ hrow hexec with hrow' | ⟨target', cc', hc, hmatch, hrow'⟩
    · exact ⟨id, r, ht, hres, row, t, hrow', hexec, hnode⟩
    · -- the row is completed once more, with the result of the same node
      obtain ⟨r', t', rfl, hres'⟩ := hcomplete target' cc' hc _ hrow hexec hmatch
      have hres' : (id, r') ∈ (tally h).results := hnode ▸ hres'
      exact ⟨id, r', ht, hres', _, t', hrow', hexec, hnode⟩

end Filed

namespace Executor

variable {x : Executor} {ids : RunIds} {program : Program} {S : Setting}

/-- A call that the run makes itself. -/
theorem Filed.own {h : List Event} {s s' : MemoryStore} (hf : Filed ids.execution h s)
    (hm : S.Mints ids.execution) {c : Call} {r : c.Reply} (ha : S.Answers s c r s')
    (hc : x.Allowed ids program h (.called c r)) :
    Filed ids.execution (h ++ [Event.called c r]) s' := by
  have hkept : Filed ids.execution h s' := by
    refine hf.answered hm ha ?_ ?_
    · rintro w rfl
      exact hc.elim
    · rintro target cc rfl row hrow - hmatch
      obtain ⟨id, result, t, hres, rfl, ht⟩ := hc
      obtain ⟨-, rfl⟩ := hf.of_matches ht hrow hmatch
      exact ⟨result, t, rfl, hres⟩
  refine hkept.grows ?_ ?_
  · intro entry row he
    obtain ⟨rfl, he⟩ := Event.called.inj he
    obtain rfl := eq_of_heq he
    obtain ⟨n, -, -, -, t, rfl⟩ := hc
    obtain ⟨hnew, hrow, hlogs⟩ := ha.effect.of_inserted
    refine ⟨⟨row, by simp [hlogs], rfl⟩, fun other hother hid => ?_⟩
    rw [hlogs] at hother
    rcases List.mem_append.1 hother with hother | hother
    · exact absurd hid (hm.logs s row.id hnew other hother)
    · obtain rfl := List.mem_singleton.1 hother
      rw [hrow]
      exact ⟨rfl, rfl⟩
  · intro target cc he
    obtain ⟨rfl, he⟩ := Event.called.inj he
    obtain rfl := eq_of_heq he
    obtain ⟨id, r, t, hres, rfl, ht⟩ := hc
    obtain ⟨row, hrow, hmatch, hrow'⟩ := ha.effect.of_completed
    obtain ⟨hexec, hnode⟩ := hf.of_matches ht hrow hmatch
    exact ⟨id, r, ht, hres, row, t, hrow', hexec, hnode⟩

/-- Along every trace the logs of the run are as its history says. -/
theorem filed_of_runs (hm : S.Mints ids.execution) (hspare : S.Spares ids.execution)
    {first s : MemoryStore} {l : List Entry} (hr : S.Runs first l s)
    (ho : x.Orderly ids program (own l)) : Filed ids.execution (own l) s := by
  refine hr.keeps (P := fun l s => x.Orderly ids program (own l) →
    Filed ids.execution (own l) s) (fun _ => ⟨by simp, by simp, by simp⟩)
    (fun l e s s' _ ih hs ho => ?_) ho
  rcases hs.cases with ⟨rfl, hquiet⟩ | ⟨c, r, rfl, ha⟩ | ⟨c, r, rfl, hother, ha⟩
  · cases e with
    | other => simpa using ih (by simpa using ho)
    | own e =>
      rw [own_append, own_cons_own, own_nil] at ho ⊢
      exact (ih ho.of_append).grows (fun _ _ he => absurd (congrArg Entry.own he) (hquiet _ _))
        fun _ _ he => absurd (congrArg Entry.own he) (hquiet _ _)
  · rw [own_append, own_cons_own, own_nil] at ho ⊢
    exact Filed.own (ih ho.of_append) hm ha ho.allowed
  · rw [own_append, own_cons_other, own_nil, List.append_nil] at ho ⊢
    refine (ih ho).answered hm ha ?_ ?_
    · rintro w rfl
      exact hspare.workflow s w hother
    · rintro target cc rfl row hrow hexec hmatch
      exact absurd hmatch (hspare.logs s target cc hother row hrow hexec)

/-- What a run has recorded of a node stands in its log. -/
theorem written_of_recorded {h : List Event} {s : MemoryStore} (hf : Filed ids.execution h s)
    (ho : x.Orderly ids program h) {id : String} {r : StepResult}
    (hr : (id, r) ∈ (tally h).results) (hrec : Recorded ids.execution h id r) :
    s.Written ids.execution id r := by
  obtain ⟨target, t, ht, hc⟩ := hrec
  obtain ⟨id', r', ht', hr', hw⟩ := hf.written target _ hc
  obtain rfl := hf.targets_unique ht ht'
  have hlookup := Results.lookup_of_mem ho.nodup_ids hr
  rw [Results.lookup_of_mem ho.nodup_ids hr'] at hlookup
  obtain rfl := Option.some.inj hlookup
  exact hw

end Executor

end Flowgraph
