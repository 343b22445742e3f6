import Flowgraph.Proofs.Store.Logs

/-! What a store makes of a completion. It is written to the row that its target picks. If there is no
such row, or if logs cannot be written, nothing is written. -/

namespace Flowgraph

namespace MemoryStore

/-- Writes may have been rejected, but nothing was written. -/
structure Untouched (s s' : MemoryStore) : Prop where
  tables : s'.tables = s.tables
  switch : s'.logWritesFail = s.logWritesFail
  same : s.logWritesFail = false → s' = s

/-- The reply to a completion, and the store after it. -/
inductive Completes (s : MemoryStore) (target : LogTarget) (c : Completion) :
    Except StoreError Unit → MemoryStore → Prop
  | written {before row after} : s.logWritesFail = false →
    s.tables.logs = before ++ row :: after → target.Picks before row after →
    Completes s target c (.ok ())
      (s.withTables { s.tables with logs := before ++ row.complete c :: after })
  | missing : (∀ row ∈ s.tables.logs, ¬ target.Matches row) →
    Completes s target c (.error .notFound) s
  | rejected {e s'} : e ≠ .notFound → s.Untouched s' → Completes s target c (.error e) s'

theorem Untouched.refl (s : MemoryStore) : s.Untouched s := ⟨rfl, rfl, fun _ => rfl⟩

theorem Untouched.trans {s s' s'' : MemoryStore} (h : s.Untouched s') (h' : s'.Untouched s'') :
    s.Untouched s'' where
  tables := h'.tables.trans h.tables
  switch := h'.switch.trans h.switch
  same hs := (h'.same (h.switch.trans hs)).trans (h.same hs)

/-- What is written after rejections would have been written without them. -/
theorem Untouched.completes {s s' s'' : MemoryStore} {target : LogTarget} {c : Completion}
    (h : s.Untouched s') (hc : s'.Completes target c (.ok ()) s'') :
    s.Completes target c (.ok ()) s'' := by
  cases hc with
  | written hs hl hp =>
    obtain rfl : s' = s := h.same (h.switch.symm.trans hs)
    exact .written hs hl hp

theorem Completes.picked {s s' : MemoryStore} {target : LogTarget} {c : Completion}
    (hc : s.Completes target c (.ok ()) s') :
    ∃ before row after, s.tables.logs = before ++ row :: after ∧ target.Picks before row after ∧
      s' = s.withTables { s.tables with logs := before ++ row.complete c :: after } := by
  cases hc with
  | written _ hl hp => exact ⟨_, _, _, hl, hp, rfl⟩

theorem Completes.missing_of_notFound {s s' : MemoryStore} {target : LogTarget} {c : Completion}
    (hc : s.Completes target c (.error .notFound) s') :
    ∀ row ∈ s.tables.logs, ¬ target.Matches row := by
  cases hc with
  | missing h => exact h
  | rejected hne => exact absurd rfl hne

theorem Completes.untouched_of_error {s s' : MemoryStore} {target : LogTarget} {c : Completion}
    {e : StoreError} (hc : s.Completes target c (.error e) s') : s.Untouched s' := by
  cases hc with
  | missing => exact .refl s
  | rejected _ h => exact h

theorem completes_answer (s : MemoryStore) (supply : Supply) (target : LogTarget)
    (c : Completion) :
    s.Completes target c (s.answer supply (.completeLog target c)).1
      (s.answer supply (.completeLog target c)).2.1 := by
  rw [answer]
  split
  · next hfail => exact .rejected (by simp [logWritesDisabled]) ⟨rfl, rfl, by simp [hfail]⟩
  · next hwrites =>
    split
    · next t' h =>
      obtain ⟨before, row, after, hl, hp, rfl⟩ := Tables.completeLog_picks h
      exact .written (by simpa using hwrites) hl hp
    · next h =>
      refine .missing fun row hrow hm => ?_
      simpa [h] using Tables.completeLog_isSome hrow hm c

end MemoryStore

end Flowgraph
