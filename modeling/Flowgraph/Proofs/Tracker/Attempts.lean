import Flowgraph.Proofs.Executor.Views

/-! Attempts of nodes that are logged through one store. They take turns between any two events, any
call may fail, and each attempt is ended at most once. A row whose attempt has ended changes only if
an attempt that has lost its own row is recorded in it. -/

namespace Flowgraph

/-- An attempt of a node, and what it comes to. -/
structure NodeAttempt where
  execution : Uuid
  node : CompiledNode
  input : Json
  result : StepResult

namespace NodeAttempt

/-- The start is logged, and at any time after it the end, with the handle of the start. -/
def log (config : TrackerConfig) (a : NodeAttempt) : Action Bool :=
  (Tracker.logStart config a.execution a.node a.input).bind fun handle =>
    Tracker.logComplete config a.execution a.node.id handle a.result

/-- No row has been written for the attempt, or the store has denied having it. -/
def Lost (h : List Event) : Prop :=
  (∀ entry row, .called (.insertLog entry) (.ok row) ∉ h) ∨
    ∃ id c, .called (.completeLog (.row id) c) (.error .notFound) ∈ h

/-- Nothing has been recorded of the end of the attempt. -/
def Unended (h : List Event) : Prop := ∀ target c, .called (.completeLog target c) (.ok ()) ∉ h

/-- Where the end of the attempt may be recorded. -/
def Finds (a : NodeAttempt) (h : List Event) : LogTarget → Prop
  | .row id => ∃ entry row, .called (.insertLog entry) (.ok row) ∈ h ∧ row.id = id
  | .latest e n => e = a.execution ∧ n = a.node.id ∧ Lost h

/-- What may come after a history. -/
def Allowed (a : NodeAttempt) (h : List Event) : Event → Prop
  | .called (.insertLog _) _ => True
  | .called (.completeLog target _) _ => Unended h ∧ a.Finds h target
  | .called _ _ => False
  | _ => True

/-- Whatever has been done was allowed. -/
def Orderly (a : NodeAttempt) (h : List Event) : Prop :=
  ∀ before e after, h = before ++ e :: after → a.Allowed before e

variable {a : NodeAttempt} {h l : List Event} {e : Event} {target : LogTarget} {c : Completion} {k : Nat}

theorem Orderly.snoc (ho : a.Orderly h) (he : a.Allowed h e) : a.Orderly (h ++ [e]) := by
  intro before e' after heq
  rcases List.eq_nil_or_concat after with rfl | ⟨init, last, rfl⟩
  · obtain ⟨rfl, hlast⟩ := List.append_inj' heq rfl
    obtain rfl := List.singleton_inj.1 hlast
    exact he
  · rw [List.concat_eq_append, ← List.cons_append, ← List.append_assoc] at heq
    exact ho before e' init (List.append_inj' heq rfl).1

theorem Orderly.append (ho : a.Orderly h)
    (hl : ∀ before e after, l = before ++ e :: after → a.Allowed (h ++ before) e) :
    a.Orderly (h ++ l) := by
  induction l using List.reverseRecOn with
  | nil => simpa using ho
  | append_singleton l e ih =>
    rw [← List.append_assoc]
    refine (ih fun before e' after heq => ?_).snoc (hl l e [] rfl)
    exact hl before e' (after ++ [e]) (by simp [heq])

/-- Trying to write the row of the attempt is always allowed. -/
theorem Orderly.inserting (ho : a.Orderly h) {entry : LogEntry}
    (hl : ∀ e ∈ l, IsTry (.insertLog entry) e) : a.Orderly (h ++ l) := by
  refine ho.append fun before e after heq => ?_
  have he := hl e (by simp [heq])
  cases e with
  | called c r => obtain rfl : c = _ := he; trivial
  | told | slept | warned | started | joined => trivial

/-- Tries to record the end take away nothing of what allows them. -/
theorem Finds.tries (hf : a.Finds h target) {c' : Call} (hc' : c' = .completeLog target c)
    (hl : ∀ e ∈ l, IsTry c' e) : a.Finds (h ++ l) target := by
  cases target with
  | row id =>
    obtain ⟨entry, row, hrow, hid⟩ := hf
    exact ⟨entry, row, List.mem_append_left _ hrow, hid⟩
  | latest e n =>
    refine ⟨hf.1, hf.2.1, hf.2.2.imp (fun hnone entry row hrow => ?_) ?_⟩
    · rcases List.mem_append.1 hrow with hrow | hrow
      · exact hnone entry row hrow
      · have hsame : Call.insertLog entry = c' := hl _ hrow
        exact absurd (hsame.trans hc') (by simp)
    · exact fun ⟨id, c, hdenied⟩ => ⟨id, c, List.mem_append_left _ hdenied⟩

theorem Unended.refused (hu : Unended h) {c' : Call} (hl : Refused c' k l) : Unended (h ++ l) := by
  intro target c hc
  rcases List.mem_append.1 hc with hc | hc
  · exact hu target c hc
  · exact hl.not_ok (.completeLog target c) () hc

/-- As long as the tries are refused, one more is allowed. -/
theorem Orderly.completing (ho : a.Orderly h) (hu : Unended h) (hf : a.Finds h target)
    (hl : Refused (.completeLog target c) k l) : a.Orderly (h ++ l) ∧
      ∀ r, a.Orderly (h ++ l ++ [Event.called (.completeLog target c) r]) := by
  have horderly : a.Orderly (h ++ l) := by
    refine ho.append fun before e after heq => ?_
    have hbefore : ∀ e ∈ before, IsTry (.completeLog target c) e := fun e he =>
      hl.isTry e (by simp [heq, he])
    cases e with
    | called c' r =>
      obtain rfl : c' = _ := hl.isTry (.called c' r) (by simp [heq])
      refine ⟨fun target' c'' hc => ?_, hf.tries rfl hbefore⟩
      rcases List.mem_append.1 hc with hc | hc
      · exact hu _ _ hc
      · refine hl.not_ok (.completeLog target' c'') () ?_
        rw [heq]
        exact List.mem_append_left _ hc
    | told | slept | warned | started | joined => trivial
  exact ⟨horderly, fun r => horderly.snoc ⟨hu.refused hl, hf.tries rfl hl.isTry⟩⟩

/-- What is known when the start of the attempt has been logged. -/
structure Begun (a : NodeAttempt) (handle : LogHandle) (h : List Event) : Prop where
  orderly : a.Orderly h
  unended : Unended h
  written : ∀ id, handle.row = some id → a.Finds h (.row id)
  unwritten : handle.row = none → Lost h

variable {config : TrackerConfig}

theorem ensures_start :
    (Tracker.logStart config a.execution a.node a.input).Ensures a.Orderly (Exhausted config)
      a.Begun [] := by
  have hnil : a.Orderly [] := by simp [Orderly]
  have htold : ∀ t, a.Orderly [.told t] := fun t => hnil.snoc trivial
  refine Action.Ensures.bind (Action.ensures_clock hnil htold) ?_
  rintro t _ - - rfl
  refine Action.Ensures.bind (Action.ensures_tries fun k l hl =>
    ⟨(htold t).inserting hl.isTry, fun r => ?_⟩) ?_
  · exact ((htold t).inserting hl.isTry).snoc trivial
  rintro r _ - horderly ⟨_, rfl, k, l, hl, rfl, -⟩
  have hunended : Unended ([] ++ [Event.told t] ++ (l ++ [Event.called (.insertLog _) r])) := by
    intro target c hc
    simp only [List.nil_append, List.singleton_append, List.mem_cons, List.mem_append,
      List.not_mem_nil, or_false, reduceCtorEq, false_or] at hc
    rcases hc with hc | hc
    · exact hl.not_ok (.completeLog target c) () hc
    · cases hc
  rcases r with e | row
  · refine ⟨horderly, horderly, hunended, by simp, fun _ => Or.inl fun entry row hrow => ?_⟩
    simp only [List.nil_append, List.singleton_append, List.mem_cons, List.mem_append,
      List.not_mem_nil, or_false, reduceCtorEq, false_or] at hrow
    rcases hrow with hrow | hrow
    · exact hl.not_ok _ row hrow
    · obtain ⟨hentry, hrow⟩ := Event.called.inj hrow
      cases hentry
      exact absurd (eq_of_heq hrow) (by simp)
  · refine ⟨horderly, horderly, hunended, ?_, by simp⟩
    rintro _ ⟨⟩
    exact ⟨_, row, by simp, rfl⟩

theorem ensures_complete (ho : a.Orderly h) (hu : Unended h) (hf : a.Finds h target) :
    (Tracker.complete config target c).Ensures a.Orderly (Exhausted config)
      (fun r h' => a.Orderly h' ∧ (∀ e, r = .error e → Unended h') ∧
        (r = .error .notFound → .called (.completeLog target c) (.error .notFound) ∈ h')) h := by
  refine (Action.ensures_tries fun k l hl => ho.completing hu hf hl).mono ?_
  rintro r _ - horderly ⟨_, rfl, k, l, hl, rfl, -⟩
  refine ⟨horderly, ?_, by rintro rfl; simp⟩
  rintro e rfl target' c' hc
  rw [← List.append_assoc] at hc
  rcases List.mem_append.1 hc with hc | hc
  · exact hu.refused hl target' c' hc
  · obtain ⟨hcall, hc⟩ := Event.called.inj (List.mem_singleton.1 hc)
    cases hcall
    exact absurd (eq_of_heq hc) (by simp)

theorem ensures_end {handle : LogHandle} (hb : a.Begun handle h) :
    (Tracker.logComplete config a.execution a.node.id handle a.result).Ensures a.Orderly
      (Exhausted config) (fun _ _ => True) h := by
  have htold : ∀ t, a.Orderly (h ++ [Event.told t]) := fun t => hb.orderly.snoc trivial
  rw [Tracker.logComplete_eq]
  refine Action.Ensures.bind (Action.ensures_clock hb.orderly htold) ?_
  rintro t _ - - rfl
  have hunended : Unended (h ++ [Event.told t]) := by
    intro target c hc
    exact hb.unended target c (by simpa using hc)
  have hbyRow : (Tracker.completeRow config handle (Tracker.completion a.result t)).Ensures a.Orderly
      (Exhausted config) (fun r h' => a.Orderly h' ∧ (r = .error .notFound → Unended h' ∧ Lost h'))
      (h ++ [Event.told t]) := by
    rw [Tracker.completeRow]
    split
    · next id hid =>
      obtain ⟨entry, row, hrow, hrowid⟩ := hb.written id hid
      have hfinds : a.Finds (h ++ [Event.told t]) (.row id) :=
        ⟨entry, row, List.mem_append_left _ hrow, hrowid⟩
      refine (ensures_complete (htold t) hunended hfinds).mono ?_
      rintro r h' - - ⟨horderly, hunended, hdenied⟩
      exact ⟨horderly, fun hr => ⟨hunended _ hr, Or.inr ⟨_, _, hdenied hr⟩⟩⟩
    · next hnone =>
      refine ⟨htold t, htold t, fun _ => ⟨hunended, ?_⟩⟩
      refine (hb.unwritten hnone).imp (fun hlost entry row hrow => ?_) ?_
      · exact hlost entry row (by simpa using hrow)
      · rintro ⟨id, c, hdenied⟩
        exact ⟨id, c, List.mem_append_left _ hdenied⟩
  refine Action.Ensures.bind hbyRow ?_
  rintro r h' - - ⟨horderly, hlost⟩
  have hlatest : (Tracker.completeLatest config a.execution a.node.id
      (Tracker.completion a.result t) r).Ensures a.Orderly (Exhausted config) (fun _ _ => True) h' := by
    rcases r with (_ | reason | fault) | ⟨⟩
    · obtain ⟨hunended, hlost⟩ := hlost rfl
      have hfinds : a.Finds h' (.latest a.execution a.node.id) := ⟨rfl, rfl, hlost⟩
      exact (ensures_complete horderly hunended hfinds).mono fun _ _ _ _ _ => trivial
    · exact ⟨horderly, trivial⟩
    · exact ⟨horderly, trivial⟩
    · exact ⟨horderly, trivial⟩
  exact Action.Ensures.bind hlatest fun _ _ _ horderly _ => ⟨horderly, trivial⟩

/-- Whatever the replies are, an attempt does only what it is allowed to do. -/
theorem allowed_of_path {rest : Action Bool} (p : Action.Path [] (a.log config) (h ++ [e]) rest) :
    a.Allowed h e := by
  have hensures : (a.log config).Ensures a.Orderly (Exhausted config) (fun _ _ => True) [] :=
    Action.Ensures.bind ensures_start fun _ _ _ _ hb => ensures_end hb
  exact (p.ensures hensures).here h e [] rfl

end NodeAttempt

/-- Attempts, and the store that they find. -/
structure Notebook (ι : Type) where
  config : TrackerConfig
  attempt : ι → NodeAttempt
  first : MemoryStore

/-- What a turn of an attempt makes of the log rows. -/
inductive Setting.Logs (s s' : MemoryStore) : Event → Prop
  | kept {e} : s'.tables.logs = s.tables.logs → (∀ c a, e ≠ .called c (.ok a)) → Logs s s' e
  | inserted {entry} (row : LogRow) : row.status = .running →
    s'.tables.logs = s.tables.logs ++ [row] → Logs s s' (.called (.insertLog entry) (.ok row))
  | completed {target c} (k : Nat) (row : LogRow) : s.tables.logs[k]? = some row →
    target.Matches row → s'.tables.logs = s.tables.logs.set k (row.complete c) →
    Logs s s' (.called (.completeLog target c) (.ok ()))

namespace Notebook

variable {ι : Type} (book : Notebook ι)

def start : Moment ι := ⟨[], book.first⟩

/-- Calls may fail, and no log row is given an identifier twice. -/
def setting (past : List (ι × Event)) : Setting :=
  ⟨True, fun _ id => ¬ Taken book.first past id, fun _ _ => False⟩

variable [DecidableEq ι]

/-- One of the attempts takes a turn. -/
inductive Step : Moment ι → Moment ι → Prop
  | turn {m i e s rest} :
    Action.Path [] ((book.attempt i).log book.config) (eventsOf i m.past ++ [e]) rest →
    (book.setting m.past).Step m.store (.own e) s → Step m ⟨m.past ++ [(i, e)], s⟩

/-- It can come from one moment to another. -/
def Reaches : Moment ι → Moment ι → Prop := Relation.ReflTransGen book.Step

/-- In this turn, an attempt that has lost its own row is recorded in one that was not written for
it. -/
structure Strays (m m' : Moment ι) (i : ι) (k : Nat) : Prop where
  step : book.Step m m'
  event : ∃ c, m'.past = m.past ++ [(i, .called (.completeLog
    (.latest (book.attempt i).execution (book.attempt i).node.id) c) (.ok ()))]
  lost : NodeAttempt.Lost (eventsOf i m.past)
  row : ∃ row, m.store.tables.logs[k]? = some row ∧ row.execution = (book.attempt i).execution ∧
    row.nodeId = (book.attempt i).node.id ∧ ∀ entry, ¬ Wrote m.past i entry row.id

/-- At some time before this moment, an attempt has strayed into the row. -/
def Overrun (m : Moment ι) (k : Nat) : Prop :=
  ∃ m₁ m₂ i, book.Reaches book.start m₁ ∧ book.Strays m₁ m₂ i k ∧ book.Reaches m₂ m

/-- What holds at every moment. -/
structure Sound (m : Moment ι) : Prop where
  traced : Traced book.first m
  /-- A final row was there at first, or its own attempt has ended, or another one has strayed. -/
  ended : ∀ k row, m.store.tables.logs[k]? = some row → row.status.isTerminal = true →
    (∃ old ∈ book.first.tables.logs, old.id = row.id) ∨
      (∃ i entry, Wrote m.past i entry row.id ∧ ¬ NodeAttempt.Unended (eventsOf i m.past)) ∨
        book.Overrun m k

variable {book} {m m' : Moment ι} {i : ι} {e : Event} {s : MemoryStore} {k : Nat} {row : LogRow}

theorem Overrun.reaches (h : book.Overrun m k) (hm : book.Reaches m m') : book.Overrun m' k := by
  obtain ⟨m₁, m₂, i, hm₁, hstrays, hm₂⟩ := h
  exact ⟨m₁, m₂, i, hm₁, hstrays, hm₂.trans hm⟩

theorem logs_of_step (hallowed : (book.attempt i).Allowed (eventsOf i m.past) e)
    (hs : (book.setting m.past).Step m.store (.own e) s) : Setting.Logs m.store s e := by
  rcases hs.cases with ⟨rfl, hquiet⟩ | ⟨c, r, he, ha⟩ | ⟨_, _, he, -⟩
  · exact .kept rfl fun c a he => hquiet c _ (congrArg Entry.own he)
  · obtain rfl := Entry.own.inj he
    rcases r with e | a
    · refine .kept (by rw [ha.effect.eq_of_error]) fun c' a he => ?_
      obtain ⟨rfl, he⟩ := Event.called.inj he
      exact absurd (eq_of_heq he) (by simp)
    · cases c with
      | insertLog entry =>
        obtain ⟨-, hrow, hlogs⟩ := ha.effect.of_inserted
        exact .inserted a (by rw [hrow]; rfl) hlogs
      | completeLog target c =>
        obtain ⟨before, row, after, hl, hm, hl'⟩ := ha.effect.of_completed_at
        exact .completed before.length row (by simp [hl]) hm (by simp [hl, hl'])
      | _ => exact hallowed.elim
  · cases he

/-- Where an attempt is recorded, its row was written for it, or it has strayed. -/
theorem wrote_or_overrun {target : LogTarget} {c : Completion} (hm : book.Reaches book.start m)
    (hstep : book.Step m m')
    (hpast : m'.past = m.past ++ [(i, Event.called (.completeLog target c) (.ok ()))])
    (hfinds : (book.attempt i).Finds (eventsOf i m.past) target)
    (hrow : m.store.tables.logs[k]? = some row) (hmatch : target.Matches row) :
    (∃ entry, Wrote m.past i entry row.id) ∨ book.Overrun m' k := by
  cases target with
  | row id =>
    obtain ⟨entry, written, hmem, hid⟩ := hfinds
    exact Or.inl ⟨entry, written, mem_past hmem, hid.trans hmatch.symm⟩
  | latest execution node =>
    obtain ⟨rfl, rfl, hlost⟩ := hfinds
    by_cases hwrote : ∃ entry, Wrote m.past i entry row.id
    · exact Or.inl hwrote
    · refine Or.inr ⟨m, m', i, hm, ⟨hstep, ⟨c, hpast⟩, hlost, row, hrow, ?_⟩, .refl⟩
      exact ⟨hmatch.1, hmatch.2, not_exists.1 hwrote⟩

/-- One turn leaves a final row as it is, unless an attempt has strayed into it. -/
theorem Sound.kept (hsound : book.Sound m) (hm : book.Reaches book.start m)
    (hstep : book.Step m m') (hrow : m.store.tables.logs[k]? = some row)
    (hfinal : row.status.isTerminal = true) :
    m'.store.tables.logs[k]? = some row ∨ book.Overrun m' k := by
  have hnext := hstep
  obtain ⟨p, hs⟩ := hnext
  have hallowed := NodeAttempt.allowed_of_path p
  cases logs_of_step hallowed hs with
  | kept hlogs => exact Or.inl (hlogs ▸ hrow)
  | inserted new _ hlogs =>
    refine Or.inl ?_
    rw [hlogs, List.getElem?_append_left (List.getElem?_eq_some_iff.1 hrow).1]
    exact hrow
  | completed j old hold hmatch hlogs =>
    by_cases hk : j = k
    · subst hk
      obtain rfl := Option.some.inj (hold.symm.trans hrow)
      rcases wrote_or_overrun hm hstep rfl hallowed.2 hrow hmatch with ⟨entry, hw⟩ | hover
      · rcases hsound.ended _ old hrow hfinal with ⟨first, hfirst, hid⟩ |
          ⟨i, entry', hw', hended⟩ | hover
        · exact absurd hid (hsound.traced.fresh _ _ _ hw first hfirst)
        · -- the attempt has ended already, so it does not end now
          obtain ⟨rfl, -⟩ := hsound.traced.unique _ _ _ _ _ hw' hw
          exact absurd hallowed.1 hended
        · exact Or.inr (hover.reaches (.single hstep))
      · exact Or.inr hover
    · rw [hlogs, List.getElem?_set_ne hk]
      exact Or.inl hrow

theorem sound_start : book.Sound book.start :=
  ⟨.start book.first, fun _ row hrow _ => Or.inl ⟨row, List.mem_of_getElem? hrow, rfl⟩⟩

/-- Every turn keeps what holds at every moment. -/
theorem Sound.turn (hsound : book.Sound m) (hm : book.Reaches book.start m)
    (hstep : book.Step m m') : book.Sound m' := by
  have hnext := hstep
  obtain ⟨p, hs⟩ := hnext
  rename_i i e s rest
  have hallowed := NodeAttempt.allowed_of_path p
  refine ⟨hsound.traced.move (S := book.setting) (fun _ h => h) (.turn hs),
    fun k row hrow hfinal => ?_⟩
  -- what has been said of a row that stands as it stood is still true
  have hgrow : m.store.tables.logs[k]? = some row →
      (∃ old ∈ book.first.tables.logs, old.id = row.id) ∨
        (∃ j entry, Wrote (m.past ++ [(i, e)]) j entry row.id ∧
          ¬ NodeAttempt.Unended (eventsOf j (m.past ++ [(i, e)]))) ∨
        book.Overrun ⟨m.past ++ [(i, e)], s⟩ k := by
    intro hrow
    refine (hsound.ended k row hrow hfinal).imp_right (.imp ?_ fun h => h.reaches (.single hstep))
    rintro ⟨j, entry, hw, hended⟩
    refine ⟨j, entry, hw.grows _, fun hunended => hended fun target c hc => ?_⟩
    rw [eventsOf_append] at hunended
    exact hunended target c (List.mem_append_left _ hc)
  cases logs_of_step hallowed hs with
  | kept hlogs => exact hgrow (hlogs ▸ hrow)
  | inserted new hrunning hlogs =>
    rw [hlogs] at hrow
    rcases Nat.lt_or_ge k m.store.tables.logs.length with hk | hk
    · rw [List.getElem?_append_left hk] at hrow
      exact hgrow hrow
    · rw [List.getElem?_append_right hk] at hrow
      obtain rfl := List.mem_singleton.1 (List.mem_of_getElem? hrow)
      rw [hrunning] at hfinal
      exact absurd hfinal (by decide)
  | @completed target c j old hold hmatch hlogs =>
    rw [hlogs] at hrow
    by_cases hjk : j = k
    · subst hjk
      rw [List.getElem?_set_self (List.getElem?_eq_some_iff.1 hold).1] at hrow
      obtain rfl := Option.some.inj hrow
      rcases wrote_or_overrun hm hstep rfl hallowed.2 hold hmatch with ⟨entry, hw⟩ | hover
      · refine Or.inr (Or.inl ⟨i, entry, hw.grows _, fun hunended => ?_⟩)
        exact hunended target c (by rw [eventsOf_self]; simp)
      · exact Or.inr (Or.inr hover)
    · rw [List.getElem?_set_ne hjk] at hrow
      exact hgrow hrow

theorem sound_of_reaches (h : book.Reaches book.start m) : book.Sound m := by
  induction h with
  | refl => exact sound_start
  | tail h hstep ih => exact ih.turn h hstep

/-- Whatever calls fail, a final row stays as it is in every field, unless an attempt that has lost
its own row is recorded in it. -/
theorem completed_kept (hm : book.Reaches book.start m) (hm' : book.Reaches m m')
    (hrow : m.store.tables.logs[k]? = some row) (hfinal : row.status.isTerminal = true) :
    m'.store.tables.logs[k]? = some row ∨ book.Overrun m' k := by
  induction hm' with
  | refl => exact Or.inl hrow
  | tail hmid hstep ih =>
    have hreach := hm.trans hmid
    rcases ih with hrow | hover
    · exact (sound_of_reaches hreach).kept hreach hstep hrow hfinal
    · exact Or.inr (hover.reaches (.single hstep))

theorem step_told {t : Instant} {rest : Action Bool}
    (p : Action.Path [] ((book.attempt i).log book.config)
      (eventsOf i m.past ++ [Event.told t]) rest) :
    book.Step m ⟨m.past ++ [(i, Event.told t)], m.store⟩ :=
  .turn p (.quiet (by simp))

theorem step_answered {supply : Supply} {c : Call} {rest : Action Bool}
    (p : Action.Path [] ((book.attempt i).log book.config)
      (eventsOf i m.past ++ [Event.called c (m.store.answer supply c).1]) rest)
    (hnew : ¬ Taken book.first m.past supply.fresh.1) : book.Step m (m.answered i supply c) :=
  .turn p (.own (.served hnew rfl))

/-- Two attempts of one node, of which the second one fails. -/
def twice : Notebook Bool where
  config := ⟨0, .ofMillis 1⟩
  attempt second := ⟨.nil, ⟨"a", "a", "echo", 0, [], [], none⟩, .null,
    if second then .failure "late" else .success .null⟩
  first := .empty

/-- The start of the second attempt is not written, and its end is. -/
theorem twice_reaches : ∃ m m' row row', twice.Reaches twice.start m ∧ twice.Reaches m m' ∧
    m.store.tables.logs = [row] ∧ row.status = .success ∧
      m'.store.tables.logs = [row'] ∧ row'.status = .error := by
  let t : Instant := .ofMicros 0
  let entry : LogEntry := ⟨.nil, "a", "a", "echo", .null, t⟩
  let row := entry.row (Supply.fresh ⟨0, 0⟩).1
  let unwritten : StoreError := .unavailable "log writes are disabled"
  let m₁ : Moment Bool := ⟨twice.start.past ++ [(false, Event.told t)], .empty⟩
  let m₂ := m₁.answered false ⟨0, 0⟩ (.insertLog entry)
  let m₃ : Moment Bool := ⟨m₂.past ++ [(false, Event.told t)], m₂.store⟩
  let m₄ := m₃.answered false ⟨1, 0⟩
    (.completeLog (.row row.id) (Tracker.completion (.success .null) t))
  let m₅ : Moment Bool := ⟨m₄.past ++ [(true, Event.told t)], m₄.store⟩
  let m₆ : Moment Bool :=
    ⟨m₅.past ++ [(true, Event.called (.insertLog entry) (.error unwritten))], m₅.store⟩
  let m₇ : Moment Bool := ⟨m₆.past ++ [(true, Event.told t)], m₆.store⟩
  let m₈ := m₇.answered true ⟨1, 0⟩
    (.completeLog (.latest .nil "a") (Tracker.completion (.failure "late") t))
  have hnone : ∀ id, ¬ Taken twice.first m₁.past id := fun id =>
    not_taken_append (by simp [Taken, Wrote, twice, start, MemoryStore.empty, Tables.empty]) (by simp)
  have hnew₃ : ¬ Taken twice.first m₃.past (Supply.fresh ⟨1, 0⟩).1 := by
    refine not_taken_append (not_taken_append (hnone _) ?_) (by simp)
    rintro _ _ ⟨⟩
    decide
  have hnew₇ : ¬ Taken twice.first m₇.past (Supply.fresh ⟨1, 0⟩).1 :=
    not_taken_append (not_taken_append (not_taken_append (not_taken_append hnew₃ (by simp))
      (by simp)) (by simp)) (by simp)
  have h₁ : twice.Step twice.start m₁ := step_told (.now t .refl)
  have h₂ : twice.Step m₁ m₂ := step_answered (.now t (.call (.ok row) .refl)) (hnone _)
  have h₃ : twice.Step m₂ m₃ := step_told (.now t (.call (.ok row) (.now t .refl)))
  have h₄ : twice.Step m₃ m₄ :=
    step_answered (.now t (.call (.ok row) (.now t (.call (.ok ()) .refl)))) hnew₃
  have h₅ : twice.Step m₄ m₅ := step_told (.now t .refl)
  have h₆ : twice.Step m₅ m₆ :=
    .turn (i := true) (.now t (.call (.error unwritten) .refl)) (.own (.refused trivial))
  have h₇ : twice.Step m₆ m₇ :=
    step_told (.now t (.call (.error unwritten) (.now t .refl)))
  have h₈ : twice.Step m₇ m₈ :=
    step_answered (.now t (.call (.error unwritten) (.now t (.call (.ok ()) .refl)))) hnew₇
  exact ⟨m₄, m₈, _, _, .tail (.tail (.tail (.single h₁) h₂) h₃) h₄,
    .tail (.tail (.tail (.single h₅) h₆) h₇) h₈, rfl, rfl, rfl, rfl⟩

/-- The row of the first attempt is kept, or the second attempt has strayed into it. -/
theorem twice_kept : ∃ m m' row, twice.Reaches twice.start m ∧ twice.Reaches m m' ∧
    m.store.tables.logs[0]? = some row ∧ row.status.isTerminal = true ∧
      (m'.store.tables.logs[0]? = some row ∨ twice.Overrun m' 0) := by
  obtain ⟨m, m', row, -, hm, hm', hlogs, hstatus, -⟩ := twice_reaches
  have hrow : m.store.tables.logs[0]? = some row := by simp [hlogs]
  have hfinal : row.status.isTerminal = true := by rw [hstatus]; rfl
  exact ⟨m, m', row, hm, hm', hrow, hfinal, completed_kept hm hm' hrow hfinal⟩

/-- The row of the first attempt does not stay as it is. -/
theorem twice_overwritten : ¬ ∀ (m m' : Moment Bool) (k : Nat) (row : LogRow),
    twice.Reaches twice.start m → twice.Reaches m m' → m.store.tables.logs[k]? = some row →
      row.status.isTerminal = true → m'.store.tables.logs[k]? = some row := by
  obtain ⟨m, m', row, row', hm, hm', hlogs, hstatus, hlogs', hstatus'⟩ := twice_reaches
  intro hkept
  have hsame := hkept m m' 0 row hm hm' (by simp [hlogs]) (by rw [hstatus]; rfl)
  obtain rfl : row' = row := by simpa [hlogs'] using hsame
  rw [hstatus] at hstatus'
  exact absurd hstatus' (by decide)

end Notebook

end Flowgraph
