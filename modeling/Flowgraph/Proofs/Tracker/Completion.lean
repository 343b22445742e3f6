import Flowgraph.Proofs.Executor.Faults
import Flowgraph.Proofs.Store.Completed
import Flowgraph.Proofs.Tracker.Retries

/-! The outcome of an attempt is written to one row or to none, whatever calls fail. Tries at the row of
the handle come first, and only if it is missing are there tries at the latest row of the node. -/

namespace Flowgraph

/-- The error of a reply. -/
def failure? : Except StoreError α → Option StoreError
  | .ok _ => none
  | .error e => some e

theorem eq_ok_of_isOk {r : Except StoreError Unit} (h : r.isOk = true) : r = .ok () := by
  cases r with
  | ok => rfl
  | error => cases h

theorem eq_error_of_not_isOk {r : Except StoreError α} (h : r.isOk = false) : ∃ e, r = .error e := by
  cases r with
  | ok => cases h
  | error e => exact ⟨e, rfl⟩

theorem failure?_of_refusal {r : Except StoreError α} (h : isRefusal r = true) : failure? r ≠ none := by
  cases r with
  | ok => cases h
  | error => simp [failure?]

/-- The calls of a history, each with the error that it failed with. -/
def made (h : List Event) : List (Call × Option StoreError) := h.filterMap fun
  | .called c r => some (c, failure? r)
  | _ => none

@[simp] theorem made_append (h h' : List Event) : made (h ++ h') = made h ++ made h' :=
  List.filterMap_append

@[simp] theorem made_called (c : Call) (r : c.Reply) : made [.called c r] = [(c, failure? r)] := rfl

@[simp] theorem made_told (t : Instant) : made [.told t] = [] := rfl

/-- Refused tries and one more are tries in a row; the pauses between them are no calls. -/
theorem made_tries (config : TrackerConfig) (c : Call) (replies : Nat → c.Reply) (before k : Nat) :
    made (refusals config c replies before k ++ [Event.called c (replies k)]) =
      (List.range (k + 1)).map fun i => (c, failure? (replies i)) := by
  have hrefused : made (refusals config c replies before k) =
      (List.range k).map fun i => (c, failure? (replies i)) := by
    rw [refusals, made, List.filterMap_flatMap]
    exact List.map_eq_flatMap.symm
  rw [made_append, hrefused, made_called, List.range_succ, List.map_append]
  rfl

/-- Among refused tries and one more only the last can have succeeded. -/
theorem countP_tries (c : Call) {replies : Nat → c.Reply} {k : Nat}
    (hrefused : ∀ i < k, isRefusal (replies i) = true) :
    ((List.range (k + 1)).map fun i => (c, failure? (replies i))).countP (·.2 = none) =
      if (replies k).isOk then 1 else 0 := by
  have hnone : ((List.range k).map fun i => (c, failure? (replies i))).countP (·.2 = none) = 0 := by
    simp only [List.countP_map, List.countP_eq_zero, List.mem_range, Function.comp_apply,
      decide_eq_true_eq]
    exact fun i hi => failure?_of_refusal (hrefused i hi)
  rw [List.range_succ, List.map_append, List.countP_append, hnone, List.map_singleton]
  cases replies k <;> rfl

namespace FaultPattern

variable (faults : FaultPattern) (target : LogTarget) (c : Completion) (m : Metered)

/-- Some call fails as if a row were missing. -/
def Hides : Prop := ∃ n call, faults n call = some .notFound

theorem answer_calls (call : Call) : (faults.service.answer m call).2.calls = m.calls + 1 := by
  simp only [service, answer]
  split <;> rfl

theorem after_calls (call : Call) (k : Nat) :
    (faults.service.after call m k).calls = m.calls + k := by
  induction k with
  | zero => rfl
  | succ k ih => rw [Service.after_succ, answer_calls, ih, Nat.add_assoc]

variable {faults target c m}

theorem answer_completes {r : Except StoreError Unit} {m' : Metered}
    (h : faults.service.answer m (.completeLog target c) = (r, m')) :
    (∃ e, faults m.calls (.completeLog target c) = some e ∧ r = .error e ∧ m'.store = m.store) ∨
      m.store.Completes target c r m'.store := by
  simp only [service, answer] at h
  cases hfault : faults m.calls (.completeLog target c) with
  | some e =>
    rw [hfault] at h
    cases h
    exact .inl ⟨e, rfl, rfl, rfl⟩
  | none =>
    rw [hfault] at h
    cases h
    exact .inr (m.store.completes_answer m.supply target c)

theorem untouched_answer {e : StoreError} {m' : Metered}
    (h : faults.service.answer m (.completeLog target c) = (.error e, m')) :
    m.store.Untouched m'.store := by
  rcases answer_completes h with ⟨_, -, -, hs⟩ | hc
  · rw [hs]
    exact .refl _
  · exact hc.untouched_of_error

theorem untouched_after {k : Nat} (h : ∀ i < k,
    isRefusal (faults.service.reply (.completeLog target c) m i) = true) :
    m.store.Untouched (faults.service.after (.completeLog target c) m k).store := by
  induction k with
  | zero => exact .refl _
  | succ k ih =>
    refine (ih fun i hi => h i (by omega)).trans ?_
    rw [Service.after_succ]
    have hk := h k (by omega)
    cases hreply : faults.service.reply (.completeLog target c) m k with
    | ok => rw [hreply] at hk; cases hk
    | error e => exact untouched_answer (Prod.ext hreply rfl)

end FaultPattern

namespace Tracker

/-- What the tries at one target were, and what they came to. -/
structure Tries (config : TrackerConfig) (faults : FaultPattern) (target : LogTarget) (c : Completion)
    (m m' : Metered) (tries : List (Call × Option StoreError)) (r : Except StoreError Unit) :
    Prop where
  asked : ∀ t ∈ tries, t.1 = .completeLog target c
  bounded : tries.length ≤ config.maxLogRetries.toNat + 1
  counted : m'.calls = m.calls + tries.length
  last : tries.getLast? = some (.completeLog target c, failure? r)
  succeeded : tries.countP (·.2 = none) = if r.isOk then 1 else 0
  written : r = .ok () → m.store.Completes target c (.ok ()) m'.store
  unwritten : ∀ e, r = .error e → m.store.Untouched m'.store
  missing : r = .error .notFound → faults.Hides ∨ ∀ row ∈ m.store.tables.logs, ¬ target.Matches row

variable {config : TrackerConfig} (hbudget : config.maxLogRetries.toNat + 1 < UInt32.size)
  (faults : FaultPattern)

include hbudget in
theorem makes_complete (target : LogTarget) (c : Completion) (p : Progress Metered) :
    ∃ l r q, (complete config target c).Makes faults.service p l (some r) q ∧
      Tries config faults target c p.state q.state (made l) r := by
  obtain ⟨k, hk, hrefused, -, q, hq, hmakes⟩ :=
    Action.makes_withRetry faults.service config (.completeLog target c) p
  rw [TrackerConfig.verdict_of_budget hbudget] at hmakes
  refine ⟨_, _, q, hmakes, ?_⟩
  let call : Call := .completeLog target c
  let mid := faults.service.after call p.state k
  have hmid : p.state.store.Untouched mid.store := FaultPattern.untouched_after hrefused
  have hanswer : faults.service.answer mid call = (faults.service.reply call p.state k, q.state) :=
    Prod.ext rfl (by rw [hq, Service.after_succ])
  rw [made_tries]
  have hattempt := FaultPattern.answer_completes hanswer
  have hcalls := faults.after_calls p.state call (k + 1)
  rw [← hq] at hcalls
  refine ⟨by simp, by simpa using hk, by simpa using hcalls, by simp [List.range_succ],
    countP_tries call hrefused, ?_, ?_, ?_⟩
  · intro hok
    rw [hok] at hattempt
    obtain ⟨_, -, h, -⟩ | hcompletes := hattempt
    · cases h
    · exact hmid.completes hcompletes
  · intro e he
    rw [he] at hanswer
    exact hmid.trans (FaultPattern.untouched_answer hanswer)
  · intro hmissing
    rw [hmissing] at hattempt
    rcases hattempt with ⟨e, hfault, he, -⟩ | hcompletes
    · cases he
      exact .inl ⟨_, _, hfault⟩
    · exact .inr (hmid.tables ▸ hcompletes.missing_of_notFound)

/-- The row that an outcome is meant for: the one of the handle if it is there, and else the latest of
the node. -/
def aim (logs : List LogRow) (execution : Uuid) (nodeId : String) (handle : LogHandle) : LogTarget :=
  match handle.row with
  | some id => if logs.any (·.id = id) then .row id else .latest execution nodeId
  | none => .latest execution nodeId

/-- What writing an outcome made of a store, with the tries at the row of the handle and those at the
latest row of the node. -/
structure AllOrNothing (config : TrackerConfig) (faults : FaultPattern) (execution : Uuid)
    (nodeId : String) (handle : LogHandle) (c : Completion) (m m' : Metered)
    (rows nodes : List (Call × Option StoreError)) (written : Bool) : Prop where
  by_row : ∀ t ∈ rows, ∃ id, handle.row = some id ∧ t.1 = .completeLog (.row id) c
  by_node : ∀ t ∈ nodes, t.1 = .completeLog (.latest execution nodeId) c
  bounded : rows.length + nodes.length ≤ 2 * (config.maxLogRetries.toNat + 1)
  counted : m'.calls = m.calls + (rows.length + nodes.length)
  looked_up : nodes ≠ [] →
    handle.row = none ∨ ∃ call, rows.getLast? = some (call, some .notFound)
  succeeded : (rows ++ nodes).countP (·.2 = none) = if written then 1 else 0
  of_written : written = true → ∃ before row after target,
    m.store.tables.logs = before ++ row :: after ∧ target.Picks before row after ∧
    (target ∈ handle.row.map .row ∨ target = .latest execution nodeId) ∧
    (¬ faults.Hides → target = aim m.store.tables.logs execution nodeId handle) ∧
    m'.store =
      m.store.withTables { m.store.tables with logs := before ++ row.complete c :: after }
  of_unwritten : written = false → m'.store.tables = m.store.tables

section

variable {faults} {execution : Uuid} {nodeId : String} {handle : LogHandle} {id : Uuid} {c : Completion}
  {m m' m'' : Metered} {rows nodes : List (Call × Option StoreError)} {r : Except StoreError Unit}

/-- Without a row in the handle, all tries are at the latest row of the node. -/
theorem Tries.of_latest (hrow : handle.row = none)
    (h : Tries config faults (.latest execution nodeId) c m m' nodes r) :
    AllOrNothing config faults execution nodeId handle c m m' [] nodes r.isOk where
  by_row := by simp
  by_node := h.asked
  bounded := by have := h.bounded; simp only [List.length_nil]; omega
  counted := by simpa using h.counted
  looked_up _ := .inl hrow
  succeeded := h.succeeded
  of_written hok := by
    obtain ⟨before, row, after, hl, hp, hs⟩ := (h.written (eq_ok_of_isOk hok)).picked
    exact ⟨before, row, after, _, hl, hp, .inr rfl, fun _ => by rw [aim, hrow], hs⟩
  of_unwritten herror := by
    obtain ⟨e, he⟩ := eq_error_of_not_isOk herror
    exact (h.unwritten e he).tables

/-- If the row of the handle is not missing, it alone is tried. -/
theorem Tries.of_row (hrow : handle.row = some id)
    (h : Tries config faults (.row id) c m m' rows r) :
    AllOrNothing config faults execution nodeId handle c m m' rows [] r.isOk where
  by_row t ht := ⟨id, hrow, h.asked t ht⟩
  by_node := by simp
  bounded := by have := h.bounded; simp only [List.length_nil]; omega
  counted := h.counted
  looked_up hne := absurd rfl hne
  succeeded := by simpa using h.succeeded
  of_written hok := by
    obtain ⟨before, row, after, hl, hp, hs⟩ := (h.written (eq_ok_of_isOk hok)).picked
    have haim : .row id = aim m.store.tables.logs execution nodeId handle := by
      simp [aim, hrow, hl, hp.1]
    exact ⟨before, row, after, _, hl, hp, .inl (by simp [hrow]), fun _ => haim, hs⟩
  of_unwritten herror := by
    obtain ⟨e, he⟩ := eq_error_of_not_isOk herror
    exact (h.unwritten e he).tables

/-- If the row of the handle is missing, the latest row of the node is tried. -/
theorem Tries.of_both (hrow : handle.row = some id)
    (h : Tries config faults (.row id) c m m' rows (.error .notFound))
    (h' : Tries config faults (.latest execution nodeId) c m' m'' nodes r) :
    AllOrNothing config faults execution nodeId handle c m m'' rows nodes r.isOk where
  by_row t ht := ⟨id, hrow, h.asked t ht⟩
  by_node := h'.asked
  bounded := by have := h.bounded; have := h'.bounded; omega
  counted := by rw [h'.counted, h.counted, Nat.add_assoc]
  looked_up _ := .inr ⟨_, h.last⟩
  succeeded := by
    have hnone : rows.countP (·.2 = none) = 0 := h.succeeded
    rw [List.countP_append, hnone, Nat.zero_add, h'.succeeded]
  of_written hok := by
    have hc := (h.unwritten _ rfl).completes (h'.written (eq_ok_of_isOk hok))
    obtain ⟨before, row, after, hl, hp, hs⟩ := hc.picked
    refine ⟨before, row, after, _, hl, hp, .inr rfl, fun hshown => ?_, hs⟩
    have hmissing := (h.missing rfl).resolve_left hshown
    have hany : m.store.tables.logs.any (·.id = id) = false := by
      simpa [LogTarget.Matches] using hmissing
    simp [aim, hrow, hany]
  of_unwritten herror := by
    obtain ⟨e, he⟩ := eq_error_of_not_isOk herror
    exact (h'.unwritten e he).tables.trans (h.unwritten _ rfl).tables

end

variable (execution : Uuid) (nodeId : String) (handle : LogHandle)

include hbudget in
/-- The tries after the clock was read. -/
theorem makes_tries (c : Completion) (p : Progress Metered) : ∃ l rows nodes w q,
    ((completeRow config handle c).bind
      (completeLatest config execution nodeId c)).Makes faults.service p l (some w) q ∧
    made l = rows ++ nodes ∧
    AllOrNothing config faults execution nodeId handle c p.state q.state rows nodes w.isOk := by
  cases hrow : handle.row with
  | none =>
    obtain ⟨l, r, q, hl, h⟩ := makes_complete hbudget faults (.latest execution nodeId) c p
    refine ⟨l, [], made l, r, q, ?_, rfl, h.of_latest hrow⟩
    rw [completeRow, hrow]
    exact hl
  | some id =>
    obtain ⟨l, r, q, hl, h⟩ := makes_complete hbudget faults (.row id) c p
    rw [completeRow, hrow]
    by_cases hr : r = .error .notFound
    · subst hr
      obtain ⟨l', r', q', hl', h'⟩ := makes_complete hbudget faults (.latest execution nodeId) c q
      exact ⟨l ++ l', made l, made l', r', q', hl.bind hl', made_append l l', h.of_both hrow h'⟩
    · have hlatest : completeLatest config execution nodeId c r = .done r := by
        rcases r with (_ | _ | _) | _
        · exact absurd rfl hr
        all_goals rfl
      refine ⟨l ++ [], made l, [], r, q, hl.bind ?_, by simp, h.of_row hrow⟩
      rw [hlatest]
      exact Action.makes_done r q

/-- Whatever calls fail, the outcome of an attempt is written to one row or to none. -/
theorem logComplete_all_or_nothing (config : TrackerConfig)
    (hbudget : config.maxLogRetries.toNat + 1 < UInt32.size) (faults : FaultPattern)
    (execution : Uuid) (nodeId : String) (handle : LogHandle) (result : StepResult) (m : Metered) :
    let action := logComplete config execution nodeId handle result
    let ran := action.perform faults.service (.new m)
    ∃ written h rows nodes, ran.1 = some written ∧ Action.Path [] action h (.done written) ∧
      faults.service.Performs m h ran.2.state ∧ made h = rows ++ nodes ∧
      AllOrNothing config faults execution nodeId handle
        (completion result (faults.service.now m).1) m ran.2.state rows nodes written := by
  intro action ran
  let told := faults.service.now m
  let p : Progress Metered := { Progress.new m with state := told.2 }
  obtain ⟨l, rows, nodes, w, q, hl, hmade, h⟩ :=
    makes_tries hbudget faults execution nodeId handle (completion result told.1) p
  have haction :
      action.Makes faults.service (.new m) ([Event.told told.1] ++ (l ++ [])) (some w.isOk) q := by
    have hclock : Action.clock.Makes faults.service (.new m) _ _ _ := Action.makes_clock (.new m)
    have hall := hl.bind (f := fun w => .done w.isOk) (Action.makes_done w.isOk q)
    rw [Action.bind_assoc] at hall
    change (logComplete config execution nodeId handle result).Makes _ _ _ _ _
    rw [logComplete_eq]
    exact hclock.bind hall
  have hran : ran = (some w.isOk, q) := haction.perform
  have hmade : made ([] ++ ([Event.told told.1] ++ (l ++ []))) = rows ++ nodes := by
    rw [List.nil_append, List.append_nil, made_append, made_told, List.nil_append, hmade]
  -- Reading the clock has changed neither the store nor the number of its calls.
  refine ⟨w.isOk, _, rows, nodes, by rw [hran], haction.path [], ?_, hmade, ?_⟩
  · rw [hran]
    exact haction.performs m [] .nil
  · rw [hran]
    exact ⟨h.by_row, h.by_node, h.bounded, h.counted, h.looked_up, h.succeeded, h.of_written,
      h.of_unwritten⟩

/-- A row that is still running, in a store whose first two calls fail. -/
theorem running_all_or_nothing :
    let row : LogRow := ⟨.ofNat 7, .ofNat 1, "a", "a", "echo", .running, .null, none, none, .ofMicros 0, none⟩
    let faults : FaultPattern := fun n _ => if n < 2 then some (.unavailable "gone") else none
    let m : Metered := ⟨⟨⟨[], [], [row]⟩, false, 0⟩, ⟨0, 0⟩, 0⟩
    let handle : LogHandle := ⟨some row.id, row.startedAt⟩
    let result : StepResult := .success (.string "done")
    let ran := (logComplete .default row.execution "a" handle result).perform faults.service (.new m)
    ran.1 = some true ∧ ∃ rows nodes,
      AllOrNothing .default faults row.execution "a" handle
        (completion result (faults.service.now m).1) m ran.2.state rows nodes true := by
  intro row faults m handle result ran
  have hran : ran.1 = some true := by decide +kernel
  obtain ⟨written, -, rows, nodes, hwritten, -, -, -, h⟩ :=
    logComplete_all_or_nothing .default (by decide) faults row.execution "a" handle result m
  obtain rfl : written = true := Option.some.inj (hwritten.symm.trans hran)
  exact ⟨hran, rows, nodes, h⟩

end Tracker

end Flowgraph
