import Flowgraph.Proofs.Executor.Crowd

/-! The life of an execution among any number of clients. Whatever turns they take and whatever calls
fail, its row only moves on, it is final exactly when it tells the time of its end, and nobody ends it
but a stop or the last refresh of its own run. -/

namespace Flowgraph

/-- What is said in a reply about the row of an execution. -/
def Event.Truthful : Event → Prop
  | .called (.createExecution w) (.ok row) => row.workflow = w ∧ row.status = .pending
  | .called (.getExecution id) (.ok row) => row.id = id
  | _ => True

theorem Tables.Effect.of_created {t t' : Tables} {issues : Uuid → Prop} {w : Uuid}
    {row : ExecutionRow} (he : t.Effect issues (.createExecution w) (.ok row) t') :
    row.workflow = w ∧ row.status = .pending ∧ row ∈ t'.executions := by
  cases he with
  | read h => simp [Call.method] at h
  | createdExecution _ _ hw hs => exact ⟨hw, hs, by simp⟩

theorem Setting.Step.truthful {S : Setting} {s s' : MemoryStore} {e : Event}
    (hs : S.Step s (.own e) s') : e.Truthful := by
  cases hs with
  | quiet he =>
    cases e with
    | called c r => exact absurd rfl (he c r)
    | told | slept | warned | started | joined => trivial
  | @own c r _ ha =>
    rcases r with _ | a
    · cases c <;> trivial
    · cases c with
      | createExecution w => exact ⟨ha.effect.of_created.1, ha.effect.of_created.2.1⟩
      | getExecution id => exact ha.effect.mem_of_readExecution.2
      | _ => trivial

namespace Crowd

section

variable {ι : Type} (crowd : Crowd ι)

/-- The first store holds the row, or a reply has shown it. -/
inductive Shown (past : List (ι × Event)) (row : ExecutionRow) : Prop
  | first : row ∈ crowd.first.tables.executions → Shown past row
  | created {i w} : (i, .called (.createExecution w) (.ok row)) ∈ past → Shown past row
  | read {i id} : (i, .called (.getExecution id) (.ok row)) ∈ past → Shown past row

/-- If a row stands for the execution, it is what may have become of this one. -/
structure Precedes (row : ExecutionRow) (m : Moment ι) : Prop where
  minted : crowd.Minted m.past row.id
  evolves : ∀ row' ∈ m.store.tables.executions, row'.id = row.id → row.Evolves row'

theorem precedes_of_mem {crowd : Crowd ι} {m : Moment ι} {row : ExecutionRow}
    (ht : m.store.tables.Consistent) (hrow : row ∈ m.store.tables.executions)
    (hminted : crowd.Minted m.past row.id) : crowd.Precedes row m := by
  refine ⟨hminted, fun row' hrow' hid => ?_⟩
  rw [ht.eq_of_id hrow' hrow hid]
  exact .refl row

end

variable {ι : Type} [DecidableEq ι] (crowd : Crowd ι)

/-- What holds at every moment. -/
structure Sound (m : Moment ι) : Prop where
  consistent : m.store.tables.Consistent
  minted : ∀ row ∈ m.store.tables.executions, crowd.Minted m.past row.id
  truthful : ∀ p ∈ m.past, p.2.Truthful
  shown : ∀ row, crowd.Shown m.past row → crowd.Precedes row m
  ended : ∀ row ∈ m.store.tables.executions, row.status.isTerminal = true →
    row ∈ crowd.first.tables.executions ∨ crowd.Ended m.past row

/-- Where a row comes from that stands in the store when a client has taken a turn. -/
inductive Moved (m : Moment ι) (i : ι) (e : Event) (row : ExecutionRow) : Prop
  | kept : row ∈ m.store.tables.executions → Moved m i e row
  | created {w} : ¬ crowd.Minted m.past row.id → row.status = .pending → row.finishedAt = none →
    e = .called (.createExecution w) (.ok row) → Moved m i e row
  | begun {old} : old ∈ m.store.tables.executions → old.Evolves row → row.status = .running →
    row.finishedAt = none → Moved m i e row
  | ended {old} : old ∈ m.store.tables.executions → old.Evolves row →
    row.status.isTerminal = true → row.finishedAt.isSome = true →
    e = .called (.updateStatus row.id row.status true) (.ok true) →
    (crowd.client i).Ends row.id (eventsOf i m.past) row.status → Moved m i e row

variable {crowd} {m m' : Moment ι} {row row' : ExecutionRow}

theorem Ended.grows {past : List (ι × Event)} (h : crowd.Ended past row) (p : ι × Event) :
    crowd.Ended (past ++ [p]) row := by
  obtain ⟨before, i, after, rfl, hends⟩ := h
  exact ⟨before, i, after ++ [p], by simp, hends⟩

theorem Sound.precedes (hm : crowd.Sound m) (hrow : row ∈ m.store.tables.executions) :
    crowd.Precedes row m :=
  precedes_of_mem hm.consistent hrow (hm.minted row hrow)

theorem sound_start : crowd.Sound crowd.start := by
  have hminted : ∀ row ∈ crowd.first.tables.executions, crowd.Minted [] row.id :=
    fun row hrow => Or.inl ⟨row, hrow, rfl⟩
  refine ⟨crowd.consistent, hminted, by simp [start], ?_, fun row hrow _ => Or.inl hrow⟩
  rintro row (hrow | hrow | hrow)
  · exact precedes_of_mem crowd.consistent hrow (hminted row hrow)
  · simp [start] at hrow
  · simp [start] at hrow

section

variable {i : ι} {e : Event} {s : MemoryStore}

/-- An update that finds its row open writes `running`, or ends the execution for good. -/
theorem Sound.ends (hm : crowd.Sound m) {old : ExecutionRow} {st : RunStatus} {finished : Bool}
    (hmay : (crowd.client i).MayDo
      (eventsOf i m.past ++ [Event.called (.updateStatus old.id st finished) (.ok true)]))
    (hold : old ∈ m.store.tables.executions) (hopen : old.status.isTerminal = false) :
    (finished = false ∧ st = .running) ∨
      (finished = true ∧ st.isTerminal = true ∧
        (crowd.client i).Ends old.id (eventsOf i m.past) st) := by
  rcases Client.ends_of_update hmay with h | ⟨rfl, ⟨hends, hst⟩ | ⟨row, hread, hfinal⟩⟩
  · exact Or.inl h
  · exact Or.inr ⟨rfl, hst, hends⟩
  · -- a run that has read a final status cannot find its row open again
    have hread := mem_past hread
    have hid : row.id = old.id := hm.truthful _ hread
    have hsame := ((hm.shown row (.read hread)).evolves old hold hid.symm).final hfinal
    rw [hsame, hfinal] at hopen
    exact absurd hopen (by simp)

theorem Sound.moved (hm : crowd.Sound m) (hmay : (crowd.client i).MayDo (eventsOf i m.past ++ [e]))
    (hs : (crowd.setting m.past).Step m.store (.own e) s) (hrow : row ∈ s.tables.executions) :
    crowd.Moved m i e row := by
  cases hs.origin hrow with
  | kept hold => exact .kept hold
  | created hnew hpending hnone => exact .created hnew hpending hnone rfl
  | @updated old st finished hold hopen hup =>
    have hunended : old.finishedAt.isSome = false := (hm.consistent.finished old hold).trans hopen
    have hfinishedAt := hup.finishedAt
    rw [hunended, Bool.or_false] at hfinishedAt
    have hevolves : old.status.Leads row.status → old.Evolves row := fun hleads =>
      ⟨hup.id, hup.workflow, hup.startedAt, hleads, fun hfinal => by simp [hopen] at hfinal⟩
    rcases hm.ends hmay hold hopen with ⟨rfl, rfl⟩ | ⟨rfl, hfinal, hends⟩
    · refine .begun hold (hevolves ?_) hup.status (by simpa using hfinishedAt)
      rw [hup.status]
      cases hstatus : old.status with
      | pending => exact .begun
      | running => exact .same
      | success | error => simp [hstatus, RunStatus.isTerminal] at hopen
    · obtain rfl := hup.status
      refine .ended hold (hevolves (.ended hopen hfinal)) hfinal hfinishedAt ?_ ?_
      · rw [hup.id]
      · rwa [hup.id]

/-- What has been seen of an execution stays behind what becomes of it. -/
theorem Sound.precedes_turn (hm : crowd.Sound m)
    (hmay : (crowd.client i).MayDo (eventsOf i m.past ++ [e]))
    (hs : (crowd.setting m.past).Step m.store (.own e) s) (hrow : crowd.Precedes row m) :
    crowd.Precedes row ⟨m.past ++ [(i, e)], s⟩ := by
  refine ⟨hrow.minted.grows _, fun row' hrow' hid => ?_⟩
  cases hm.moved hmay hs hrow' with
  | kept hold => exact hrow.evolves row' hold hid
  | created hnew => exact absurd (hid ▸ hrow.minted) hnew
  | begun hold hevolves | ended hold hevolves =>
    exact (hrow.evolves _ hold (hevolves.id.symm.trans hid)).trans hevolves

theorem Sound.consistent_turn (hm : crowd.Sound m)
    (hmay : (crowd.client i).MayDo (eventsOf i m.past ++ [e]))
    (hs : (crowd.setting m.past).Step m.store (.own e) s) : s.tables.Consistent := by
  constructor
  · exact hs.nodup_ids (fun row hrow => not_not_intro (hm.minted row hrow)) hm.consistent.nodup
  · intro row hrow
    cases hm.moved hmay hs hrow with
    | kept hold => exact hm.consistent.finished row hold
    | created _ hpending hnone => rw [hpending, hnone]; rfl
    | begun _ _ hrunning hnone => rw [hrunning, hnone]; rfl
    | ended _ _ hfinal hsome => rw [hfinal, hsome]

theorem Sound.minted_turn (hm : crowd.Sound m)
    (hmay : (crowd.client i).MayDo (eventsOf i m.past ++ [e]))
    (hs : (crowd.setting m.past).Step m.store (.own e) s) (hrow : row ∈ s.tables.executions) :
    crowd.Minted (m.past ++ [(i, e)]) row.id := by
  cases hm.moved hmay hs hrow with
  | kept hold => exact (hm.minted row hold).grows _
  | @created w _ _ _ he => exact Or.inr ⟨i, w, row, by simp [he], rfl⟩
  | begun hold hevolves | ended hold hevolves => exact hevolves.id ▸ (hm.minted _ hold).grows _

/-- What a reply shows of an execution stands in the store or is about to change. -/
theorem Sound.shown_turn (hm : crowd.Sound m)
    (hmay : (crowd.client i).MayDo (eventsOf i m.past ++ [e]))
    (hs : (crowd.setting m.past).Step m.store (.own e) s)
    (hrow : crowd.Shown (m.past ++ [(i, e)]) row) : crowd.Precedes row ⟨m.past ++ [(i, e)], s⟩ := by
  have hold : crowd.Shown m.past row → crowd.Precedes row ⟨m.past ++ [(i, e)], s⟩ :=
    fun hshown => hm.precedes_turn hmay hs (hm.shown row hshown)
  cases hrow with
  | first hfirst => exact hold (.first hfirst)
  | created hcreated =>
    rcases List.mem_append.1 hcreated with hcreated | hcreated
    · exact hold (.created hcreated)
    · obtain ⟨rfl, rfl⟩ := Prod.mk.inj (List.mem_singleton.1 hcreated)
      cases hs with
      | quiet he => exact absurd rfl (he _ _)
      | own ha =>
        have hmem := ha.effect.of_created.2.2
        exact precedes_of_mem (hm.consistent_turn hmay (.own ha)) hmem
          (hm.minted_turn hmay (.own ha) hmem)
  | read hread =>
    rcases List.mem_append.1 hread with hread | hread
    · exact hold (.read hread)
    · obtain ⟨rfl, rfl⟩ := Prod.mk.inj (List.mem_singleton.1 hread)
      cases hs with
      | quiet he => exact absurd rfl (he _ _)
      | own ha =>
        exact hm.precedes_turn hmay (.own ha) (hm.precedes ha.effect.mem_of_readExecution.1)

/-- Every turn keeps what holds at every moment. -/
theorem Sound.turn (hm : crowd.Sound m) (hmay : (crowd.client i).MayDo (eventsOf i m.past ++ [e]))
    (hs : (crowd.setting m.past).Step m.store (.own e) s) :
    crowd.Sound ⟨m.past ++ [(i, e)], s⟩ := by
  refine ⟨hm.consistent_turn hmay hs, fun row => hm.minted_turn hmay hs, ?_,
    fun row => hm.shown_turn hmay hs, ?_⟩
  · intro p hp
    rcases List.mem_append.1 hp with hp | hp
    · exact hm.truthful p hp
    · obtain rfl := List.mem_singleton.1 hp
      exact hs.truthful
  · intro row hrow hfinal
    cases hm.moved hmay hs hrow with
    | kept hold => exact (hm.ended row hold hfinal).imp_right (·.grows _)
    | created _ hpending => simp [hpending, RunStatus.isTerminal] at hfinal
    | begun _ _ hrunning => simp [hrunning, RunStatus.isTerminal] at hfinal
    | ended _ _ _ _ he hends => exact Or.inr ⟨m.past, i, [], by simp [he], hends⟩

end

theorem Sound.reaches (hm : crowd.Sound m) (h : crowd.Reaches m m') : crowd.Sound m' := by
  induction h with
  | refl => exact hm
  | tail _ hstep ih =>
    obtain ⟨hmay, hs⟩ := hstep
    exact ih.turn hmay hs

theorem Sound.precedes_reaches (hm : crowd.Sound m) (hrow : crowd.Precedes row m)
    (h : crowd.Reaches m m') : crowd.Precedes row m' := by
  induction h with
  | refl => exact hrow
  | tail h hstep ih =>
    have hmid := hm.reaches h
    obtain ⟨hmay, hs⟩ := hstep
    exact hmid.precedes_turn hmay hs ih

variable (crowd) in
/-- What can be said of executions at one moment and at a later one. -/
structure Lifecycle (m m' : Moment ι) : Prop where
  finished : ∀ row ∈ m.store.tables.executions,
    row.finishedAt.isSome = true ↔ row.status.isTerminal = true
  /-- A row that was not there at first has been pending when it was created. -/
  origin : ∀ row ∈ m.store.tables.executions, ∃ old : ExecutionRow, old.Evolves row ∧
    (old ∈ crowd.first.tables.executions ∨ old.status = .pending ∧
      ∃ i, (i, .called (.createExecution old.workflow) (.ok old)) ∈ m.past)
  evolves : ∀ row ∈ m.store.tables.executions, ∀ row' ∈ m'.store.tables.executions,
    row'.id = row.id → row.Evolves row'
  /-- A row that was not final at first has been ended by a stop or by its own run. -/
  ended : ∀ row ∈ m.store.tables.executions, row.status.isTerminal = true →
    row ∈ crowd.first.tables.executions ∨ crowd.Ended m.past row

/-- Among any number of runs, stops, readers and others, whatever calls fail, every execution keeps
to its life cycle. -/
theorem lifecycle (hm : crowd.Reaches crowd.start m) (hm' : crowd.Reaches m m') :
    crowd.Lifecycle m m' := by
  have hsound := sound_start.reaches hm
  refine ⟨fun row hrow => ?_, fun row hrow => ?_, fun row hrow row' hrow' hid => ?_, hsound.ended⟩
  · rw [hsound.consistent.finished row hrow]
  · rcases hsound.minted row hrow with ⟨old, hold, hid⟩ | ⟨i, w, old, hold, hid⟩
    · exact ⟨old, (hsound.shown old (.first hold)).evolves row hrow hid.symm, Or.inl hold⟩
    · obtain ⟨hw, hpending⟩ := hsound.truthful _ hold
      refine ⟨old, (hsound.shown old (.created hold)).evolves row hrow hid.symm,
        Or.inr ⟨hpending, i, ?_⟩⟩
      rw [hw]
      exact hold
  · exact (hsound.precedes_reaches (hsound.precedes hrow) hm').evolves row' hrow' hid

/-- A run of two nodes, and a stop of its execution. -/
def relayed : Crowd Bool where
  client
    | true => .run .echoing ⟨.ofNat 1, .nil, "relay", .relay, ⟨0, 0⟩⟩
    | false => .stop (Supply.fresh ⟨0, 0⟩).1 .nil
  first := ⟨⟨[⟨.ofNat 1, .nil, "relay", .null, ⟨0, 0⟩⟩], [], []⟩, false, 0⟩
  consistent := ⟨by simp, by simp⟩

/-- The execution is stopped before the run has written anything. -/
theorem relayed_lifecycle : ∃ m m', relayed.Reaches relayed.start m ∧ relayed.Reaches m m' ∧
    relayed.Lifecycle m m' ∧ ∃ row ∈ m.store.tables.executions, row.status = .error := by
  obtain ⟨program, hc⟩ := Executor.relay_compiles
  let workflow : Workflow := ⟨.ofNat 1, .nil, "relay", .relay, ⟨0, 0⟩⟩
  let execution := (Supply.fresh ⟨0, 0⟩).1
  let row : ExecutionRow := ⟨execution, .ofNat 1, .pending, (Supply.now ⟨1, 0⟩).1, none⟩
  let m₁ := relayed.start.answered true ⟨0, 0⟩ (.createExecution (.ofNat 1))
  let m₂ := m₁.answered false ⟨1, 1⟩ (.getExecution execution)
  let m₃ := m₂.answered false ⟨1, 1⟩ (.workflowTeam (.ofNat 1))
  let m₄ := m₃.answered false ⟨1, 1⟩ (.updateStatus execution .error true)
  let m₅ := m₄.answered true ⟨1, 1⟩ (.listLogs execution)
  have hrun : Executor.echoing.run workflow =
      .call (.createExecution (.ofNat 1)) (Executor.echoing.proceed workflow program) :=
    Executor.run_eq hc
  have hmay : ∀ {h rest}, Action.Path [] (.call (.createExecution (.ofNat 1))
      (Executor.echoing.proceed workflow program)) h rest → (relayed.client true).MayDo h := by
    intro h rest p
    rw [← hrun] at p
    exact ⟨rest, p⟩
  have hminted : ∀ {id}, relayed.Minted m₁.past id → id = execution := by
    rintro id (⟨row, hrow, -⟩ | ⟨i, w, row, hmem, rfl⟩)
    · simp [relayed] at hrow
    · cases List.mem_singleton.1 hmem
      rfl
  have hnew : (Supply.fresh ⟨1, 1⟩).1 ≠ execution := by decide
  have h₁ : relayed.Step relayed.start m₁ :=
    step_answered (hmay (.call _ .refl)) (by simp [Minted, relayed, start])
  have h₂ : relayed.Step m₁ m₂ :=
    step_answered ⟨_, .call (.ok row) .refl⟩ fun h => hnew (hminted h)
  have h₃ : relayed.Step m₂ m₃ :=
    step_answered ⟨_, .call (.ok row) (.call (.ok .nil) .refl)⟩ fun h =>
      hnew (hminted (h.of_answered (by decide)))
  have h₄ : relayed.Step m₃ m₄ :=
    step_answered ⟨_, .call (.ok row) (.call (.ok .nil) (.call (.ok true) .refl))⟩ fun h =>
      hnew (hminted ((h.of_answered (by decide)).of_answered (by decide)))
  have h₅ : relayed.Step m₄ m₅ :=
    step_answered (hmay (.call (.ok row) (.call (.ok []) .refl))) fun h =>
      hnew (hminted (((h.of_answered (by decide)).of_answered (by decide)).of_answered (by decide)))
  have hm : relayed.Reaches relayed.start m₄ := .tail (.tail (.tail (.single h₁) h₂) h₃) h₄
  have hm' : relayed.Reaches m₄ m₅ := .single h₅
  exact ⟨m₄, m₅, hm, hm', lifecycle hm hm', _, List.mem_singleton_self _, rfl⟩

end Crowd

end Flowgraph
