import Flowgraph.Proofs.Executor.Cancellation
import Flowgraph.Proofs.Executor.Trail
import Flowgraph.Proofs.Store.Logs

/-! A store that numbers its log rows. As long as there are few of them it gives out no identifier
twice, so a run on it is one that others could have stopped at any time. -/

namespace Flowgraph

/-- Others do nothing but stop the execution, and no call fails. -/
def Setting.stoppable (execution : Uuid) : Setting where
  fails := False
  issues s id := id ≠ execution ∧ ∀ row ∈ s.tables.logs, row.id ≠ id
  others _ c := c = .updateStatus execution .error true

theorem Setting.stoppable_mints (execution : Uuid) : (stoppable execution).Mints execution :=
  ⟨fun _ _ h => h.1, fun _ _ h => h.2⟩

theorem Setting.stoppable_reserves (execution : Uuid) : (stoppable execution).Reserves execution :=
  ⟨⟨by simp [stoppable], by simp [stoppable]⟩, by simp [stoppable]⟩

/-- Nobody else uses the store, and an identifier tells how many log rows there are. -/
def Setting.numbered : Setting where
  fails := False
  issues s id := id = (Supply.fresh ⟨s.tables.logs.length, 0⟩).1
  others _ _ := False

/-- A store that numbers its log rows. -/
def numbering : Service MemoryStore where
  answer s c :=
    let (r, s', _) := s.answer ⟨s.tables.logs.length, 0⟩ c
    (r, s')
  now s := (⟨0, 0⟩, s)

theorem numbering_backed : numbering.Backed .numbered id fun _ => True :=
  ⟨fun _ _ _ => .served rfl rfl, fun _ => rfl, fun _ _ _ => trivial, fun _ _ => trivial⟩

theorem Supply.toNat_fresh {k : Nat} (hk : k < 2 ^ 64) :
    (Supply.fresh ⟨k, 0⟩).1.bits.toNat = 0xfe000000000000000000000000000000 + k := by
  simp only [fresh, Uuid.ofNat, BitVec.toNat_ofNat]
  omega

theorem Supply.fresh_ne {j k : Nat} (hjk : j < k) (hk : k < 2 ^ 64) :
    (Supply.fresh ⟨j, 0⟩).1 ≠ (Supply.fresh ⟨k, 0⟩).1 := by
  intro he
  have hbits := congrArg (fun id => id.bits.toNat) he
  simp only [toNat_fresh hk, toNat_fresh (hjk.trans hk)] at hbits
  omega

/-- What a call makes of the identifiers of the log rows. -/
theorem Tables.Effect.log_ids {t t' : Tables} {issues : Uuid → Prop} {c : Call} {r : c.Reply}
    (he : t.Effect issues c r t') (hc : ∀ w, c ≠ .deleteWorkflow w) :
    (entries [.called c r] = [] ∧ t'.logs.map (·.id) = t.logs.map (·.id)) ∨
      ∃ entry id, issues id ∧ entries [.called c r] = [entry] ∧
        t'.logs.map (·.id) = t.logs.map (·.id) ++ [id] := by
  cases he with
  | failed => exact Or.inl ⟨by cases c <;> rfl, rfl⟩
  | read h =>
    refine Or.inl ⟨?_, rfl⟩
    cases c with
    | insertLog => simp [Call.method] at h
    | _ => rfl
  | createdWorkflow | createdExecution | readExecution | updated | closed | listed =>
    exact Or.inl ⟨rfl, rfl⟩
  | deletedWorkflow => exact absurd rfl (hc _)
  | inserted id hid => exact Or.inr ⟨_, id, hid, rfl, by simp [LogEntry.row]⟩
  | completed h =>
    obtain ⟨before, row, after, hl, -, rfl⟩ := completeLog_eq_some h
    exact Or.inl ⟨rfl, by simp [hl, LogRow.complete]⟩

namespace Executor

variable {x : Executor} {ids : RunIds} {program : Program}

/-- As long as there are few log rows, a store that numbers them gives out no identifier twice. -/
theorem stoppable_of_numbered {h : List Event} (ho : x.Orderly ids program h)
    {first s : MemoryStore} (hr : Setting.numbered.Runs first (h.map .own) s)
    (hfirst : first.tables.logs = []) (hlen : (entries h).length < 2 ^ 64)
    (hid : ∀ k < 2 ^ 64, (Supply.fresh ⟨k, 0⟩).1 ≠ ids.execution) :
    (Setting.stoppable ids.execution).Runs first (h.map .own) s ∧
      s.tables.logs.map (·.id) =
        (List.range (entries h).length).map fun k => (Supply.fresh ⟨k, 0⟩).1 := by
  induction h using List.reverseRecOn generalizing s with
  | nil =>
    generalize hk : List.map Entry.own [] = k at hr
    cases hr with
    | nil => exact ⟨.nil, by simp [hfirst, entries]⟩
    | snoc => simp at hk
  | append_singleton h e ih =>
    rw [List.map_append] at hr ⊢
    obtain ⟨mid, hbefore, hs⟩ := hr.last
    have hbound : (entries h).length < 2 ^ 64 := by
      rw [entries_append, List.length_append] at hlen
      omega
    obtain ⟨hruns, hids⟩ := ih ho.of_append hbefore hbound
    have hcount : mid.tables.logs.length = (entries h).length := by
      simpa using congrArg List.length hids
    have hnew : ∀ id, Setting.numbered.issues mid id →
        (Setting.stoppable ids.execution).issues mid id := by
      rintro _ rfl
      rw [hcount]
      refine ⟨hid _ hbound, fun row hrow => ?_⟩
      have hrowid : row.id ∈ mid.tables.logs.map (·.id) := List.mem_map_of_mem hrow
      rw [hids] at hrowid
      obtain ⟨k, hk, hrowid⟩ := List.mem_map.1 hrowid
      rw [← hrowid]
      exact Supply.fresh_ne (List.mem_range.1 hk) hbound
    rcases hs.cases with ⟨rfl, hquiet⟩ | ⟨c, r, he, ha⟩ | ⟨_, _, _, hother, -⟩
    · have hquiet : ∀ c r, e ≠ .called c r := fun c r he => hquiet c r (congrArg Entry.own he)
      rw [entries_quiet hquiet]
      exact ⟨hruns.snoc (.quiet hquiet), hids⟩
    · obtain rfl := Entry.own.inj he
      have hkept : ∀ w, c ≠ .deleteWorkflow w := by
        rintro w rfl
        exact ho.not_deleted w r (by simp)
      refine ⟨?_, ?_⟩
      · cases ha with
        | served hissue h => exact hruns.snoc (.own (.served (hnew _ hissue) h))
        | refused hfails => exact hfails.elim
      · rw [entries_append, List.length_append]
        rcases ha.effect.log_ids hkept with ⟨hnone, hsame⟩ | ⟨entry, _, rfl, hone, hmore⟩
        · rw [hsame, hids, hnone]
          rfl
        · rw [hmore, hids, hone, hcount, List.length_singleton, List.range_succ, List.map_append]
          rfl
    · exact hother.elim

end Executor

end Flowgraph
