import Flowgraph.Proofs.Store.Rows
import Mathlib.Data.List.Nodup

/-! How the row of an execution may change. It starts as pending, goes on to running and to a final
status, or to a final status at once, and stays as it is from then on. -/

namespace Flowgraph

/-- The second status is the first one, or may come after it. -/
inductive RunStatus.Leads : RunStatus → RunStatus → Prop
  | same {s} : Leads s s
  | begun : Leads .pending .running
  | ended {s t} : s.isTerminal = false → t.isTerminal = true → Leads s t

theorem RunStatus.Leads.trans {s t u : RunStatus} (h : s.Leads t) (h' : t.Leads u) : s.Leads u := by
  cases h with
  | same => exact h'
  | begun =>
    cases h' with
    | same => exact .begun
    | ended _ hu => exact .ended rfl hu
  | ended hs ht =>
    cases h' with
    | same => exact .ended hs ht
    | begun => simp [isTerminal] at ht
    | ended ht' => rw [ht] at ht'; simp at ht'

namespace ExecutionRow

/-- The second row may stand where the first one has stood. -/
structure Evolves (row row' : ExecutionRow) : Prop where
  id : row'.id = row.id
  workflow : row'.workflow = row.workflow
  startedAt : row'.startedAt = row.startedAt
  status : row.status.Leads row'.status
  /-- Once the status is final, neither it nor the time of the end changes. -/
  final : row.status.isTerminal = true → row' = row

theorem Evolves.refl (row : ExecutionRow) : row.Evolves row := ⟨rfl, rfl, rfl, .same, fun _ => rfl⟩

theorem Evolves.trans {row row' row'' : ExecutionRow} (h : row.Evolves row')
    (h' : row'.Evolves row'') : row.Evolves row'' := by
  refine ⟨h'.id.trans h.id, h'.workflow.trans h.workflow, h'.startedAt.trans h.startedAt,
    h.status.trans h'.status, fun hfinal => ?_⟩
  have hsame := h.final hfinal
  rw [← hsame] at hfinal
  exact (h'.final hfinal).trans hsame

/-- What an update of the status makes of a row. -/
structure Updates (old row : ExecutionRow) (s : RunStatus) (finished : Bool) : Prop where
  id : row.id = old.id
  workflow : row.workflow = old.workflow
  startedAt : row.startedAt = old.startedAt
  status : row.status = s
  finishedAt : row.finishedAt.isSome = (finished || old.finishedAt.isSome)

/-- Where a row comes from that stands in a store after an event. -/
inductive Origin (s : MemoryStore) (issues : Uuid → Prop) (row : ExecutionRow) : Event → Prop
  | kept {e} : row ∈ s.tables.executions → Origin s issues row e
  | created {w} : issues row.id → row.status = .pending → row.finishedAt = none →
    Origin s issues row (.called (.createExecution w) (.ok row))
  | updated {old st finished} : old ∈ s.tables.executions → old.status.isTerminal = false →
    old.Updates row st finished →
    Origin s issues row (.called (.updateStatus old.id st finished) (.ok true))

end ExecutionRow

/-- There is one row for each execution, and it tells the time of the end if the status is final. -/
structure Tables.Consistent (t : Tables) : Prop where
  nodup : (t.executions.map (·.id)).Nodup
  finished : ∀ row ∈ t.executions, row.finishedAt.isSome = row.status.isTerminal

theorem Tables.Consistent.eq_of_id {t : Tables} (ht : t.Consistent) {row row' : ExecutionRow}
    (hrow : row ∈ t.executions) (hrow' : row' ∈ t.executions) (hid : row.id = row'.id) :
    row = row' :=
  List.inj_on_of_nodup_map ht.nodup hrow hrow' hid

/-- A call adds at most one row, which has a new identifier. -/
theorem Tables.Effect.nodup_ids {t t' : Tables} {issues : Uuid → Prop} {c : Call} {r : c.Reply}
    (he : t.Effect issues c r t') (hnew : ∀ row ∈ t.executions, ¬ issues row.id)
    (ht : (t.executions.map (·.id)).Nodup) : (t'.executions.map (·.id)).Nodup := by
  cases he with
  | failed | read | createdWorkflow | readExecution | closed | inserted | listed => exact ht
  | deletedWorkflow => exact ht.sublist (List.filter_sublist.map _)
  | createdExecution row hid =>
    rw [List.map_append, List.nodup_append]
    refine ⟨ht, by simp, ?_⟩
    rintro _ ha _ hb rfl
    obtain ⟨old, hold, he⟩ := List.mem_map.1 ha
    have hrow := List.mem_singleton.1 hb
    exact hnew old hold (by rw [he, hrow]; exact hid)
  | @updated _ st _ row finishedAt _ _ =>
    have hids : (t.setExecution { row with status := st, finishedAt }).executions.map (·.id) =
        t.executions.map (·.id) := by
      rw [Tables.setExecution, List.map_map]
      refine List.map_congr_left fun r _ => ?_
      simp only [Function.comp]
      split
      · next h => exact h.symm
      · rfl
    rwa [hids]
  | completed h =>
    obtain ⟨_, _, _, -, -, rfl⟩ := Tables.completeLog_eq_some h
    exact ht

theorem MemoryStore.origin_of_answer {s s' : MemoryStore} {supply supply' : Supply}
    {issues : Uuid → Prop} (hid : issues supply.fresh.1) {c : Call} {r : c.Reply}
    (h : s.answer supply c = (r, s', supply')) {row : ExecutionRow}
    (hrow : row ∈ s'.tables.executions) : row.Origin s issues (.called c r) := by
  rcases (effect_of_answer hid h).execution_origin hrow with hold | ⟨-, w, rfl⟩ |
    ⟨st, finished, old, rfl, -⟩
  · exact .kept hold
  · cases h
    rcases List.mem_append.1 hrow with hrow | hrow
    · exact .kept hrow
    · obtain rfl := List.mem_singleton.1 hrow
      exact .created hid rfl rfl
  · simp only [answer] at h
    split at h
    · cases h; exact .kept hrow
    · next found hfound =>
      have hmem := (Tables.mem_of_execution? hfound).1
      split at h
      · cases h; exact .kept hrow
      · next hopen =>
        have hopen : found.status.isTerminal = false := by simpa using hopen
        obtain ⟨finishedAt, rfl, hset, hsome⟩ : ∃ finishedAt : Option Instant, r = .ok true ∧
            s'.tables = s.tables.setExecution { found with status := st, finishedAt } ∧
            finishedAt.isSome = (finished || found.finishedAt.isSome) := by
          split at h
          · next hfinished => cases h; exact ⟨_, rfl, rfl, by simp [hfinished]⟩
          · next hfinished => cases h; exact ⟨_, rfl, rfl, by simp [hfinished]⟩
        rcases Tables.mem_setExecution (hset ▸ hrow) with ⟨hrow, -⟩ | rfl
        · exact .kept hrow
        · change ExecutionRow.Origin s issues _ (.called (.updateStatus found.id st finished) _)
          exact .updated hmem hopen ⟨rfl, rfl, rfl, rfl, hsome⟩

theorem Setting.Step.origin {S : Setting} {s s' : MemoryStore} {e : Event}
    (hs : S.Step s (.own e) s') {row : ExecutionRow} (hrow : row ∈ s'.tables.executions) :
    row.Origin s (S.issues s) e := by
  cases hs with
  | quiet => exact .kept hrow
  | own ha =>
    cases ha with
    | served hid h => exact MemoryStore.origin_of_answer hid h hrow
    | refused => exact .kept hrow

theorem Setting.Step.nodup_ids {S : Setting} {s s' : MemoryStore} {e : Event}
    (hs : S.Step s (.own e) s') (hnew : ∀ row ∈ s.tables.executions, ¬ S.issues s row.id)
    (hn : (s.tables.executions.map (·.id)).Nodup) : (s'.tables.executions.map (·.id)).Nodup := by
  cases hs with
  | quiet => exact hn
  | own ha => exact ha.effect.nodup_ids hnew hn

end Flowgraph
