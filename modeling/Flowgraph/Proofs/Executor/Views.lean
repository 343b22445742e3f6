import Flowgraph.Proofs.Executor.Crowd
import Flowgraph.Proofs.Store.Logs

/-! What one client sees of the others that share its store. Log rows are given identifiers once, so
what a run asks of the store does not touch the rows of another execution. To each run the past of all
is a trace: its own events, and between them the calls of the others. -/

namespace Flowgraph

section

variable {ι : Type}

/-- A log row with the identifier has been written by the client. -/
def Wrote (past : List (ι × Event)) (i : ι) (entry : LogEntry) (id : Uuid) : Prop :=
  ∃ row, (i, .called (.insertLog entry) (.ok row)) ∈ past ∧ row.id = id

/-- The identifier is that of a log row, be it still there or not. -/
def Taken (first : MemoryStore) (past : List (ι × Event)) (id : Uuid) : Prop :=
  (∃ row ∈ first.tables.logs, row.id = id) ∨ ∃ i entry, Wrote past i entry id

/-- One of the clients takes a turn, when this may happen to the store after such a past. -/
inductive Setting.Moves (S : List (ι × Event) → Setting) : Moment ι → Moment ι → Prop
  | turn {m i e s} : (S m.past).Step m.store (.own e) s → Moves S m ⟨m.past ++ [(i, e)], s⟩

/-- What the past tells of the log rows. -/
structure Traced (first : MemoryStore) (m : Moment ι) : Prop where
  /-- What was written at the start of a row is what it has had at first, or what some client has
  written there. -/
  origin : ∀ row ∈ m.store.tables.logs,
    (∃ old ∈ first.tables.logs, old.id = row.id ∧ old.entry = row.entry) ∨
      ∃ i, Wrote m.past i row.entry row.id
  fresh : ∀ i entry id, Wrote m.past i entry id → ∀ old ∈ first.tables.logs, old.id ≠ id
  unique : ∀ i j entry entry' id, Wrote m.past i entry id → Wrote m.past j entry' id →
    i = j ∧ entry = entry'

variable {S : List (ι × Event) → Setting} {first : MemoryStore} {m m' : Moment ι} {i j : ι}
  {past : List (ι × Event)} {e : Event} {entry : LogEntry} {id : Uuid} {row : LogRow}

theorem Wrote.grows (h : Wrote past i entry id) (p : ι × Event) :
    Wrote (past ++ [p]) i entry id := by
  obtain ⟨row, hmem, hid⟩ := h
  exact ⟨row, List.mem_append_left _ hmem, hid⟩

theorem wrote_append (h : Wrote (past ++ [(i, e)]) j entry id) : Wrote past j entry id ∨
    i = j ∧ ∃ row, e = .called (.insertLog entry) (.ok row) ∧ row.id = id := by
  obtain ⟨row, hmem, hid⟩ := h
  rcases List.mem_append.1 hmem with hmem | hmem
  · exact Or.inl ⟨row, hmem, hid⟩
  · obtain ⟨rfl, rfl⟩ := Prod.mk.inj (List.mem_singleton.1 hmem)
    exact Or.inr ⟨rfl, row, rfl, hid⟩

/-- An identifier is taken only by the row that is written with it. -/
theorem not_taken_append (h : ¬ Taken first past id)
    (he : ∀ entry row, e = .called (.insertLog entry) (.ok row) → row.id ≠ id) :
    ¬ Taken first (past ++ [(i, e)]) id := by
  rintro (hfirst | ⟨j, entry, hw⟩)
  · exact h (Or.inl hfirst)
  · rcases wrote_append hw with hw | ⟨-, row, hrow, hid⟩
    · exact h (Or.inr ⟨j, entry, hw⟩)
    · exact he entry row hrow hid

/-- When identifiers are given out one after the other, those of log rows are among the first. -/
theorem taken_counted {n : Nat} (h : ∀ id, Taken first past id → ∃ k < n, id = (Supply.fresh ⟨k, 0⟩).1)
    (i : ι) {c : Call} {r : c.Reply} {s s' : MemoryStore} {supply : Supply}
    (hanswer : s.answer ⟨n, 0⟩ c = (r, s', supply)) :
    ∀ id, Taken first (past ++ [(i, Event.called c r)]) id →
      ∃ k < n + 1, id = (Supply.fresh ⟨k, 0⟩).1 := by
  have hold : ∀ id, Taken first past id → ∃ k < n + 1, id = (Supply.fresh ⟨k, 0⟩).1 := by
    intro id hid
    obtain ⟨k, hk, hkid⟩ := h id hid
    exact ⟨k, hk.trans n.lt_succ_self, hkid⟩
  rintro id (hfirst | ⟨j, entry, hw⟩)
  · exact hold id (Or.inl hfirst)
  · rcases wrote_append hw with hw | ⟨-, row, he, rfl⟩
    · exact hold _ (Or.inr ⟨j, entry, hw⟩)
    · obtain ⟨rfl, hrow⟩ := Event.called.inj he
      obtain rfl := eq_of_heq hrow
      have heffect : s.tables.Effect (· = (Supply.fresh ⟨n, 0⟩).1) _ _ s'.tables :=
        MemoryStore.effect_of_answer (by rfl) hanswer
      exact ⟨n, n.lt_succ_self, heffect.of_inserted.1⟩

/-- An event that is no call takes no identifier. -/
theorem taken_quiet (he : ∀ c r, e ≠ .called c r) (h : Taken first (past ++ [(i, e)]) id) :
    Taken first past id := by
  refine h.imp_right ?_
  rintro ⟨j, entry, hw⟩
  rcases wrote_append hw with hw | ⟨-, row, rfl, -⟩
  · exact ⟨j, entry, hw⟩
  · exact absurd rfl (he _ _)

theorem Setting.Step.issues_of_inserted {S : Setting} {s s' : MemoryStore}
    (hs : S.Step s (.own (.called (.insertLog entry) (.ok row))) s') : S.issues s row.id := by
  cases hs with
  | quiet he => exact absurd rfl (he _ _)
  | own ha => exact ha.effect.of_inserted.1

/-- A row that is there after a turn was there before with what is written at its start, or the turn
has written it. -/
theorem Setting.Step.row_origin {S : Setting} {s s' : MemoryStore} (hs : S.Step s (.own e) s')
    (hrow : row ∈ s'.tables.logs) :
    (∃ old ∈ s.tables.logs, old.id = row.id ∧ old.entry = row.entry) ∨
      e = .called (.insertLog row.entry) (.ok row) := by
  have hkept : row ∈ s.tables.logs →
      ∃ old ∈ s.tables.logs, old.id = row.id ∧ old.entry = row.entry := fun h => ⟨row, h, rfl, rfl⟩
  cases hs with
  | quiet => exact Or.inl (hkept hrow)
  | @own c r _ ha =>
    rcases ha.effect.log_origin hrow with hold | ⟨entry, id, rfl, -, -⟩ |
      ⟨_, cc, old, -, hold, -, rfl⟩
    · exact Or.inl (hkept hold)
    · rcases r with err | new
      · rw [ha.effect.eq_of_error] at hrow
        exact Or.inl (hkept hrow)
      · obtain ⟨-, hnew, hlogs⟩ := ha.effect.of_inserted
        rw [hlogs] at hrow
        rcases List.mem_append.1 hrow with hrow | hrow
        · exact Or.inl (hkept hrow)
        · obtain rfl := List.mem_singleton.1 hrow
          have hentry : row.entry = entry := by rw [hnew]; rfl
          exact Or.inr (by rw [hentry])
    · exact Or.inl ⟨old, hold, rfl, rfl⟩

namespace Traced

theorem start (first : MemoryStore) : Traced first (⟨[], first⟩ : Moment ι) := by
  refine ⟨fun row hrow => Or.inl ⟨row, hrow, rfl, rfl⟩, ?_, ?_⟩
  · rintro i entry id ⟨_, hmem, -⟩
    simp at hmem
  · rintro i j entry entry' id ⟨_, hmem, -⟩
    simp at hmem

theorem taken (ht : Traced first m) (hrow : row ∈ m.store.tables.logs) :
    Taken first m.past row.id := by
  rcases ht.origin row hrow with ⟨old, hold, hid, -⟩ | ⟨i, hwrote⟩
  · exact Or.inl ⟨old, hold, hid⟩
  · exact Or.inr ⟨i, row.entry, hwrote⟩

/-- A row with an identifier that a client has been given is the row that it has written. -/
theorem entry_eq (ht : Traced first m) (hw : Wrote m.past i entry row.id)
    (hrow : row ∈ m.store.tables.logs) : row.entry = entry := by
  rcases ht.origin row hrow with ⟨old, hold, hid, -⟩ | ⟨j, hwrote⟩
  · exact absurd hid (ht.fresh i entry row.id hw old hold)
  · exact (ht.unique j i row.entry entry row.id hwrote hw).2

theorem move (ht : Traced first m)
    (hnew : ∀ id, (S m.past).issues m.store id → ¬ Taken first m.past id)
    (h : Setting.Moves S m m') : Traced first m' := by
  obtain ⟨hs⟩ := h
  rename_i i e s
  have hfresh : ∀ {entry : LogEntry} {row : LogRow}, e = .called (.insertLog entry) (.ok row) →
      ¬ Taken first m.past row.id := by
    rintro entry row rfl
    exact hnew _ hs.issues_of_inserted
  constructor
  case origin =>
    intro row hrow
    rcases hs.row_origin hrow with ⟨old, hold, hid, hentry⟩ | rfl
    · rw [← hid, ← hentry]
      exact (ht.origin old hold).imp_right fun ⟨j, hj⟩ => ⟨j, hj.grows _⟩
    · exact Or.inr ⟨i, row, by simp, rfl⟩
  case fresh =>
    intro j entry id hw old hold
    rcases wrote_append hw with hw | ⟨rfl, row, he, rfl⟩
    · exact ht.fresh j entry id hw old hold
    · exact fun hid => hfresh he (Or.inl ⟨old, hold, hid⟩)
  case unique =>
    intro j k entry entry' id hw hw'
    rcases wrote_append hw with hw | ⟨rfl, row, he, rfl⟩
    · rcases wrote_append hw' with hw' | ⟨rfl, row, he, rfl⟩
      · exact ht.unique j k entry entry' id hw hw'
      · exact absurd (Or.inr ⟨j, entry, hw⟩) (hfresh he)
    · rcases wrote_append hw' with hw' | ⟨rfl, row', he', -⟩
      · exact absurd (Or.inr ⟨k, entry', hw'⟩) (hfresh he)
      · obtain ⟨hcall, -⟩ := Event.called.inj (he.symm.trans he')
        exact ⟨rfl, Call.insertLog.inj hcall⟩

end Traced

end

/-- The call leaves the logs of the execution alone, and its row where it is. -/
def Call.Leaves (execution : Uuid) (s : MemoryStore) : Call → Prop
  | .deleteWorkflow w => ∀ row ∈ s.tables.executions, row.id = execution → row.workflow ≠ w
  | .insertLog entry => entry.execution ≠ execution
  | .completeLog target _ => ∀ row ∈ s.tables.logs, row.execution = execution → ¬ target.Matches row
  | _ => True

namespace Setting

/-- Others leave the execution alone, but for the status on its row. -/
def shared (fails : Prop) (execution : Uuid) : Setting where
  fails := fails
  issues s id := id ≠ execution ∧ ∀ row ∈ s.tables.logs, row.id ≠ id
  others s c := c.Leaves execution s

theorem shared_mints (fails : Prop) (execution : Uuid) : (shared fails execution).Mints execution :=
  ⟨fun _ _ h => h.1, fun _ _ h => h.2⟩

theorem shared_reserves (fails : Prop) (execution : Uuid) :
    (shared fails execution).Reserves execution :=
  ⟨⟨fun _ _ h => h, fun _ _ _ h => h⟩, fun _ _ h => h⟩

end Setting

/-- What a run asks of the store leaves other executions alone. -/
theorem Executor.leaves_of_allowed {ι : Type} {x : Executor} {ids : RunIds} {program : Program}
    {first : MemoryStore} {m : Moment ι} (ht : Traced first m) {i : ι} {h : List Event}
    (ho : x.Orderly ids program h) (hh : ∀ e ∈ h, (i, e) ∈ m.past) {c : Call} {r : c.Reply}
    (hc : x.Allowed ids program h (.called c r)) {execution : Uuid}
    (hne : ids.execution ≠ execution) : c.Leaves execution m.store := by
  cases c with
  | deleteWorkflow => exact hc.elim
  | insertLog entry =>
    obtain ⟨n, -, -, -, t, rfl⟩ := hc
    exact hne
  | completeLog target =>
    obtain ⟨id, _, _, -, -, htarget⟩ := hc
    rintro row hrow rfl hmatch
    cases target with
    | latest e n => exact hne (htarget.1.symm.trans hmatch.1.symm)
    | row rid =>
      obtain ⟨entry, written, hwritten, -, hrid⟩ := htarget
      obtain ⟨before, after, rfl⟩ := List.append_of_mem hwritten
      obtain ⟨n, -, -, -, t, rfl⟩ := ho.allowed
      have hentry := ht.entry_eq ⟨written, hh _ hwritten, hrid.trans hmatch.symm⟩ hrow
      exact hne (congrArg LogEntry.execution hentry).symm
  | _ => trivial

section

variable {ι : Type} [DecidableEq ι]

/-- What others see of an event: a call, unless it is a deletion that has failed. -/
def Event.seen : Event → Option Entry
  | .called (.deleteWorkflow _) (.error _) => none
  | .called c r => some (.other c r)
  | _ => none

/-- The past of all as one client sees it. -/
def viewOf (i : ι) (past : List (ι × Event)) : List Entry :=
  past.filterMap fun p => if p.1 = i then some (.own p.2) else p.2.seen

theorem viewOf_self (i : ι) (past : List (ι × Event)) (e : Event) :
    viewOf i (past ++ [(i, e)]) = viewOf i past ++ [Entry.own e] := by
  simp [viewOf]

theorem viewOf_other {i j : ι} (hij : j ≠ i) (past : List (ι × Event)) (e : Event) :
    viewOf i (past ++ [(j, e)]) = viewOf i past ++ e.seen.toList := by
  cases he : e.seen <;> simp [viewOf, hij, he]

theorem Event.seen_called (c : Call) (r : c.Reply) :
    (Event.called c r).seen = some (.other c r) ∨
      ∃ w e, Event.called c r = .called (.deleteWorkflow w) (.error e) := by
  cases c with
  | deleteWorkflow w =>
    cases r with
    | ok => exact Or.inl rfl
    | error e => exact Or.inr ⟨w, e, rfl⟩
  | _ => exact Or.inl rfl

theorem Event.own_seen (e : Event) : own e.seen.toList = [] := by
  unfold seen
  split <;> rfl

theorem own_viewOf (i : ι) (past : List (ι × Event)) : own (viewOf i past) = eventsOf i past := by
  induction past using List.reverseRecOn with
  | nil => rfl
  | append_singleton past p ih =>
    obtain ⟨j, e⟩ := p
    by_cases hij : j = i
    · subst hij
      rw [viewOf_self, eventsOf_self, own_append, ih]
      rfl
    · rw [viewOf_other hij, eventsOf_other hij, own_append, ih, Event.own_seen, List.append_nil]

theorem Setting.Answers.eq_of_undeleted {S : Setting} {s s' : MemoryStore} {w : Uuid}
    {e : StoreError} (ha : S.Answers s (.deleteWorkflow w) (.error e) s') : s' = s := by
  cases ha with
  | refused => rfl
  | served _ h =>
    rw [MemoryStore.answer] at h
    split at h <;> cases h
    rfl

/-- If what the others do may happen to the store of the client, it sees a trace of its store. -/
theorem runs_view {R : Moment ι → Moment ι → Prop} {S : List (ι × Event) → Setting}
    (hR : ∀ m m', R m m' → Setting.Moves S m m') {T : Setting} {i : ι} {m m' : Moment ι}
    (h : Relation.ReflTransGen R m m')
    (hT : ∀ m₁ j c r s, Relation.ReflTransGen R m m₁ →
      R m₁ ⟨m₁.past ++ [(j, Event.called c r)], s⟩ →
      Relation.ReflTransGen R ⟨m₁.past ++ [(j, Event.called c r)], s⟩ m' →
        (S m₁.past).Answers m₁.store c r s → T.Answers m₁.store c r s ∧
          (j ≠ i → (Event.called c r).seen = some (.other c r) → T.others m₁.store c)) :
    ∃ more, m'.past = m.past ++ more ∧ T.Runs m.store (viewOf i more) m'.store := by
  induction h with
  | refl => exact ⟨[], by simp, .nil⟩
  | @tail m₁ m₂ h hlast ih =>
    obtain ⟨more, hmore, hruns⟩ := ih fun m₀ j c r s hm hstep hm₁ =>
      hT m₀ j c r s hm hstep (hm₁.tail hlast)
    obtain ⟨hs⟩ := hR _ _ hlast
    rename_i j e s
    refine ⟨more ++ [(j, e)], by simp [hmore], ?_⟩
    by_cases hij : j = i
    · subst hij
      rw [viewOf_self]
      cases hs with
      | quiet he => exact hruns.snoc (.quiet he)
      | own ha => exact hruns.snoc (.own (hT m₁ j _ _ s h hlast .refl ha).1)
    · rw [viewOf_other hij]
      cases hs with
      | quiet he =>
        cases e with
        | called c r => exact absurd rfl (he c r)
        | told | slept | warned | started | joined => simpa [Event.seen] using hruns
      | @own c r _ ha =>
        obtain ⟨hanswers, hothers⟩ := hT m₁ j c r s h hlast .refl ha
        rcases Event.seen_called c r with hseen | ⟨w, e, he⟩
        · rw [hseen]
          exact hruns.snoc (.other (hothers hij hseen) hanswers)
        · -- the deletion has failed, so the store is as it was
          obtain ⟨rfl, he⟩ := Event.called.inj he
          obtain rfl := eq_of_heq he
          rw [ha.eq_of_undeleted]
          simpa [Event.seen] using hruns

end

end Flowgraph
