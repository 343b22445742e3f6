import Flowgraph.Proofs.Executor.Driven
import Flowgraph.Proofs.Executor.Failures
import Flowgraph.Proofs.Executor.Numbered

/-! What readers are served while a run goes on. Its row and its log are written at different times, and
each write may fail; yet a status that has been served as final is never taken back. -/

namespace Flowgraph

/-- With this history behind it, the reader has served the status for the execution. -/
inductive Client.Serves (execution : Uuid) : Client → List Event → RunStatus → Prop
  | logs {team h served} :
    Action.Path [] (Tracker.executionLogs execution team) h (.done (.ok served)) →
    Serves execution (.executionLogs execution team) h served.execution.status
  | nodes {team h served} :
    Action.Path [] (Tracker.nodeStatuses execution team) h (.done (.ok served)) →
    Serves execution (.nodeStatuses execution team) h served.status

theorem Client.Serves.read {execution : Uuid} {client : Client} {h : List Event} {s : RunStatus}
    (hs : client.Serves execution h s) : ∃ row logs, Tracker.Read execution row logs h ∧
      s = effectiveStatus row (latestPerNode logs) := by
  cases hs with
  | logs p => exact (p.ensures Tracker.ensures_executionLogs).2 _ rfl
  | nodes p => exact (p.ensures Tracker.ensures_nodeStatuses).2 _ rfl

namespace Crowd

section

variable {ι : Type} [DecidableEq ι] {crowd : Crowd ι} {m m' : Moment ι} {i j : ι}
  {s : MemoryStore} {x : Executor} {workflow : Workflow} {program : Program} {w : Uuid}
  {row : ExecutionRow}

/-- When a node of a run has failed, nobody ends the execution as a success. -/
theorem Leads.not_success (hm : crowd.Leads crowd.start m) (hi : crowd.client i = .run x workflow)
    (hc : x.compile workflow.graph = .ok program) {k : List Event}
    (hpast : eventsOf i m.past = .called (.createExecution workflow.id) (.ok row) :: k)
    (ho : x.Orderly ⟨workflow.id, row.id⟩ program k) {id : String} {r : StepResult}
    (hr : (id, r) ∈ (tally k).results) (herror : r.status = .error) {row' : ExecutionRow}
    (hrow' : row' ∈ m.store.tables.executions) (hid : row'.id = row.id) :
    row'.status ≠ .success := by
  intro hsuccess
  have hcreated : (i, .called (.createExecution workflow.id) (.ok row)) ∈ m.past :=
    mem_past (hpast ▸ List.mem_cons_self)
  obtain ⟨hfirst, honce⟩ := hm.created_once hcreated
  rcases hm.sound.ended row' hrow' (by rw [hsuccess]; rfl) with hold | ⟨before, j, after, hp, hends⟩
  · exact hfirst row' hold hid
  rw [hsuccess, hid] at hends
  have hbefore : eventsOf j before <+: eventsOf j m.past := by
    rw [hp, eventsOf_append]
    exact List.prefix_append _ _
  generalize hclient : crowd.client j = client at hends
  generalize hevents : eventsOf j before = events at hends hbefore
  cases hends with
  | @run x' workflow' program' row₁ h _ hc' hid₁ hcloses _ =>
    have hmem : (j, .called (.createExecution workflow'.id) (.ok row₁)) ∈ m.past :=
      mem_past (hbefore.subset List.mem_cons_self)
    obtain rfl : j = i := honce j _ row₁ hmem hid₁
    obtain ⟨rfl, rfl⟩ := Client.run.inj (hclient.symm.trans hi)
    obtain rfl := Except.ok.inj (hc'.symm.trans hc)
    rw [hpast, List.cons_prefix_cons] at hbefore
    have hp := Graph.compile_layered hc
    -- the node would have succeeded before the success was written
    obtain ⟨n, hn, rfl⟩ := (ho.sound hp).known id (List.mem_map_of_mem hr)
    have hsucceeded := (hcloses.succeeded hp n.id (List.mem_map_of_mem hn)).grows
      (results_grow hbefore.2)
    rw [Results.Succeeded, Results.status_of_lookup (Results.lookup_of_mem ho.nodup_ids hr),
      herror] at hsucceeded
    exact absurd hsucceeded (by decide)

/-- Nothing is logged of an execution when it is created. -/
theorem Leads.unlogged (hm : crowd.Leads crowd.start m) (hlogs : crowd.LeavesLogs)
    (hnone : ∀ log ∈ crowd.first.tables.logs, log.execution ≠ row.id)
    (hturn : crowd.Turn m ⟨m.past ++ [(i, Event.called (.createExecution w) (.ok row))], s⟩) :
    ∀ log ∈ s.tables.logs, log.execution ≠ row.id := by
  rintro log hlog hexec
  have hs := hturn.inv.2
  have hold : log ∈ m.store.tables.logs := by
    cases hs with
    | quiet he => exact absurd rfl (he _ _)
    | own ha =>
      rcases ha.effect.log_origin hlog with hold | ⟨_, _, hc, -⟩ | ⟨_, _, _, hc, -⟩
      · exact hold
      · cases hc
      · cases hc
  rcases hm.logged hlogs log hold with ⟨old, hfirst, hid⟩ | hminted
  · exact hnone old hfirst (hid.trans hexec)
  · exact issued_of_step hs (hexec ▸ hminted)

/-- When the last attempt at a node has failed, it stays so, and the execution is no success. -/
theorem Leads.error_kept (hm : crowd.Leads crowd.start m) (hlogs : crowd.LeavesLogs)
    (hi : crowd.client i = .run x workflow)
    (hrow : (i, .called (.createExecution workflow.id) (.ok row)) ∈ m.past)
    (hnone : ∀ log ∈ crowd.first.tables.logs, log.execution ≠ row.id) (hm' : crowd.Leads m m')
    (hkept : ∀ k, (k, .called (.deleteWorkflow workflow.id) (.ok ())) ∉ m'.past) {id : String}
    (hlast : latestStatus? (m.store.tables.executionLogs row.id) id = some .error) :
    latestStatus? (m'.store.tables.executionLogs row.id) id = some .error ∧
      ∀ row' ∈ m'.store.tables.executions, row'.id = row.id → row'.status ≠ .success := by
  obtain ⟨program, k, hc, -, hpast, -⟩ := hm.driven hi hrow
  obtain ⟨m₀, s₀, hm₀, hpast₀, hturn, hm₁⟩ := hm.at_event [] hpast List.nil_prefix
  generalize hcreated : (⟨m₀.past ++ [_], s₀⟩ : Moment ι) = m₁ at hturn hm₁
  have hstart : crowd.Leads crowd.start m₁ := hm₀.tail hturn
  have hpast₁ : eventsOf i m₁.past = [.called (.createExecution workflow.id) (.ok row)] := by
    rw [← hcreated, eventsOf_self, hpast₀]
    rfl
  have hrow₁ : (i, .called (.createExecution workflow.id) (.ok row)) ∈ m₁.past :=
    mem_past (hpast₁ ▸ List.mem_singleton_self _)
  have hworkflow : row.workflow = workflow.id := (hm.sound.truthful _ hrow).1
  have hunlogged : ∀ log ∈ m₁.store.tables.logs, log.execution ≠ row.id := by
    subst hcreated
    exact hm₀.unlogged hlogs hnone hturn
  -- what the run sees up to the first moment, and from there to the second one
  obtain ⟨more, hmore, hruns⟩ := hstart.view hlogs hrow₁ hm₁ fun j hdel =>
    hkept j (hm'.past.subset (hworkflow ▸ hdel))
  obtain ⟨more', hmore', hruns'⟩ := hm.view hlogs hrow hm' fun j hdel => hkept j (hworkflow ▸ hdel)
  obtain ⟨program', k', hc', -, hpast', ho⟩ := (hm.trans hm').driven hi (hm'.past.subset hrow)
  obtain rfl := Except.ok.inj (hc'.symm.trans hc)
  have hk : k' = own (viewOf i more ++ viewOf i more') := by
    rw [hmore', hmore, eventsOf_append, eventsOf_append, hpast₁] at hpast'
    rw [own_append, own_viewOf, own_viewOf]
    exact (List.cons.inj hpast').2.symm
  rw [hk] at ho
  obtain ⟨⟨r, hr, herror⟩, hlast'⟩ := Executor.error_kept_of_runs
    ⟨workflow.id, row.id⟩ (Setting.shared_mints True row.id)
    (Setting.shared_reserves True row.id) hunlogged hruns hruns' ho hlast
  refine ⟨hlast', fun row' hrow' hid => ?_⟩
  have hr' : (id, r) ∈ (tally k').results := by
    rw [hk, own_append]
    exact (results_grow (List.prefix_append _ _)).subset hr
  exact (hm.trans hm').not_success hi hc hpast' (hk ▸ ho) hr' herror hrow' hid

/-- What a reader has read, and when: first the row and then the log. -/
theorem Leads.read {execution : Uuid} {logs : List LogRow} (hm : crowd.Leads m m')
    (hnew : eventsOf j m.past = []) (hread : Tracker.Read execution row logs (eventsOf j m'.past)) :
    ∃ m₁ m₂, crowd.Leads m m₁ ∧ crowd.Leads m₁ m₂ ∧ crowd.Leads m₂ m' ∧
      row ∈ m₁.store.tables.executions ∧ row.id = execution ∧
        logs = m₂.store.tables.executionLogs execution := by
  obtain ⟨owner, hpast⟩ := hread
  obtain ⟨m₁, s₁, hm₁, hpast₁, hturn₁, hm₁'⟩ :=
    hm.at_event [] hpast (by rw [hnew])
  have hpast₁' : eventsOf j (m₁.past ++ [(j, Event.called (.getExecution execution) (.ok row))]) =
      [.called (.getExecution execution) (.ok row)] := by rw [eventsOf_self, hpast₁]; rfl
  obtain ⟨m₂, s₂, hm₂, -, hturn₂, hm₂'⟩ := hm₁'.at_event
    [.called (.getExecution execution) (.ok row), .called (.workflowTeam row.workflow) (.ok owner)]
    hpast
    (by rw [hpast₁']; exact ⟨[_], rfl⟩)
  obtain ⟨hrow, hid⟩ : row ∈ m₁.store.tables.executions ∧ row.id = execution := by
    cases hturn₁.inv.2 with
    | quiet he => exact absurd rfl (he _ _)
    | own ha => exact ha.effect.mem_of_readExecution
  have hlogs : logs = m₂.store.tables.executionLogs execution := by
    cases hturn₂.inv.2 with
    | quiet he => exact absurd rfl (he _ _)
    | own ha => exact ha.effect.eq_of_listed
  exact ⟨m₁, m₂, hm₁, hm₂.head hturn₁, hm₂'.head hturn₂, hrow, hid, hlogs⟩

/-- Whatever turns runs, stops and readers take and whatever calls fail, an overall status that a reader
has served as final is served by every reader that comes later, unless the workflow goes. -/
theorem served_kept (hlogs : crowd.LeavesLogs) (hm : crowd.Leads crowd.start m)
    (hi : crowd.client i = .run x workflow)
    (hcreated : (i, .called (.createExecution workflow.id) (.ok row)) ∈ m.past)
    (hnone : ∀ log ∈ crowd.first.tables.logs, log.execution ≠ row.id) {s s' : RunStatus}
    (hserved : (crowd.client j).Serves row.id (eventsOf j m.past) s) (hfinal : s.isTerminal = true)
    (hm' : crowd.Leads m m')
    (hkept : ∀ k, (k, .called (.deleteWorkflow workflow.id) (.ok ())) ∉ m'.past) {j' : ι}
    (hlater : eventsOf j' m.past = [])
    (hserved' : (crowd.client j').Serves row.id (eventsOf j' m'.past) s') : s' = s := by
  obtain ⟨seen, logs, hread, rfl⟩ := hserved.read
  obtain ⟨seen', logs', hread', rfl⟩ := hserved'.read
  obtain ⟨m₁, m₂, hm₁, hm₁₂, hm₂, hseen, hid, rfl⟩ := hm.read rfl hread
  obtain ⟨m₃, m₄, hm₃, hm₃₄, hm₄, hseen', hid', rfl⟩ := hm'.read hlater hread'
  have hm₁₃ : crowd.Leads m₁ m₃ := (hm₁₂.trans hm₂).trans hm₃
  have hevolves := (hm₁.sound.precedes_reaches (hm₁.sound.precedes hseen) hm₁₃.reaches).evolves
    seen' hseen' (hid'.trans hid.symm)
  cases hopen : seen.status.isTerminal with
  | true =>
    obtain rfl := hevolves.final hopen
    rw [effectiveStatus_of_final hopen, effectiveStatus_of_final hopen]
  | false =>
    -- only an attempt that has failed is served as final then
    obtain ⟨herror, id, hlast⟩ := effectiveStatus_of_open hopen hfinal
    rw [herror]
    have hrow₁ : (i, .called (.createExecution workflow.id) (.ok row)) ∈ m₁.past := by
      obtain ⟨hfirst, honce⟩ := hm.created_once hcreated
      rcases hm₁.sound.minted seen hseen with ⟨old, hold, hid₁⟩ | ⟨k, w, row₁, hmem, hid₁⟩
      · exact absurd (hid₁.trans hid) (hfirst old hold)
      · have hmem' := (hm₁₂.trans hm₂).past.subset hmem
        obtain rfl := honce k w row₁ hmem' (hid₁.trans hid)
        obtain ⟨_, _, -, rfl, hpast, -⟩ := hm.driven hi hmem'
        obtain ⟨_, _, -, -, hpast', -⟩ := hm.driven hi hcreated
        rw [hpast] at hpast'
        obtain ⟨-, hrow⟩ := Event.called.inj (List.cons.inj hpast').1
        obtain rfl := Except.ok.inj (eq_of_heq hrow)
        exact hmem
    have hm₂₃ : crowd.Leads m₂ m₃ := hm₂.trans hm₃
    have hstart : crowd.Leads crowd.start m₂ := hm₁.trans hm₁₂
    have hrow₂ := hm₁₂.past.subset hrow₁
    have hgone : ∀ {n}, crowd.Leads n m' → ∀ k,
        (k, .called (.deleteWorkflow workflow.id) (.ok ())) ∉ n.past :=
      fun hn k hdel => hkept k (hn.past.subset hdel)
    have hsuccess := (hstart.error_kept hlogs hi hrow₂ hnone hm₂₃ (hgone (hm₃₄.trans hm₄)) hlast).2
    have hlast' :=
      (hstart.error_kept hlogs hi hrow₂ hnone (hm₂₃.trans hm₃₄) (hgone hm₄) hlast).1
    exact effectiveStatus_of_failed (hsuccess seen' hseen' hid') hlast'

end

section

variable {ι : Type} [DecidableEq ι] {crowd : Crowd ι} {m₀ m : Moment ι} {n : Nat} {i : ι}

variable (crowd) in
/-- The second moment follows on the first, and no more identifiers have been given out. -/
structure Follows (m₀ : Moment ι) (n : Nat) (m : Moment ι) : Prop where
  leads : crowd.Leads m₀ m
  counted : ∀ id, crowd.Minted m.past id ∨ Taken crowd.first m.past id →
    ∃ k < n, id = (Supply.fresh ⟨k, 0⟩).1

theorem start_follows (hexecutions : crowd.first.tables.executions = [])
    (hlogs : crowd.first.tables.logs = []) : crowd.Follows crowd.start 0 crowd.start := by
  refine ⟨.refl, ?_⟩
  simp [Minted, Taken, Wrote, start, hexecutions, hlogs]

theorem Follows.quiet (h : crowd.Follows m₀ n m) {e : Event} (he : ∀ c r, e ≠ .called c r)
    (hmay : (crowd.client i).MayDo (eventsOf i m.past ++ [e])) :
    crowd.Follows m₀ n ⟨m.past ++ [(i, e)], m.store⟩ := by
  refine ⟨h.leads.tail (.take hmay (.quiet he)), fun id hid => h.counted id (hid.imp ?_ ?_)⟩
  · refine Or.imp_right ?_
    rintro ⟨j, w, row, hmem, hrow⟩
    rcases List.mem_append.1 hmem with hmem | hmem
    · exact ⟨j, w, row, hmem, hrow⟩
    · exact absurd (Prod.mk.inj (List.mem_singleton.1 hmem)).2.symm (he _ _)
  · exact taken_quiet he

theorem Follows.answer (h : crowd.Follows m₀ n m) (hn : n < 2 ^ 64) {c : Call} {r : c.Reply}
    {s : MemoryStore} {supply : Supply} (hanswer : m.store.answer ⟨n, 0⟩ c = (r, s, supply))
    (hmay : (crowd.client i).MayDo (eventsOf i m.past ++ [Event.called c r])) :
    crowd.Follows m₀ (n + 1) ⟨m.past ++ [(i, Event.called c r)], s⟩ := by
  have heffect : m.store.tables.Effect (· = (Supply.fresh ⟨n, 0⟩).1) c r s.tables :=
    MemoryStore.effect_of_answer (by rfl) hanswer
  have hnew : ∀ id, crowd.Minted m.past id ∨ Taken crowd.first m.past id →
      id ≠ (Supply.fresh ⟨n, 0⟩).1 := by
    intro id hid
    obtain ⟨k, hk, rfl⟩ := h.counted id hid
    exact Supply.fresh_ne hk hn
  refine ⟨h.leads.tail (.take hmay (.own (.served ⟨fun hid => hnew _ (Or.inl hid) rfl,
    fun hid => hnew _ (Or.inr hid) rfl⟩ hanswer))), ?_⟩
  rintro id ((hfirst | ⟨j, w, row, hmem, rfl⟩) | htaken)
  · obtain ⟨k, hk, hid⟩ := h.counted id (Or.inl (Or.inl hfirst))
    exact ⟨k, hk.trans n.lt_succ_self, hid⟩
  · rcases List.mem_append.1 hmem with hmem | hmem
    · obtain ⟨k, hk, hid⟩ := h.counted row.id (Or.inl (Or.inr ⟨j, w, row, hmem, rfl⟩))
      exact ⟨k, hk.trans n.lt_succ_self, hid⟩
    · obtain ⟨rfl, hrow⟩ := Event.called.inj (Prod.mk.inj (List.mem_singleton.1 hmem)).2
      obtain rfl := eq_of_heq hrow
      exact ⟨n, n.lt_succ_self, heffect.issued_of_created⟩
  · exact taken_counted (fun id hid => h.counted id (Or.inr hid)) i hanswer id htaken

/-- A store answers what is called, with one identifier after the other. -/
inductive Plays : Nat → MemoryStore → List Event → Nat → MemoryStore → Prop
  | nil {n s} : Plays n s [] n s
  | call {n s c r s' supply h n' s''} : s.answer ⟨n, 0⟩ c = (r, s', supply) →
    Plays (n + 1) s' h n' s'' → Plays n s (.called c r :: h) n' s''
  | quiet {n s e h n' s'} : (∀ c r, e ≠ .called c r) → Plays n s h n' s' → Plays n s (e :: h) n' s'

theorem Plays.le {n n' : Nat} {s s' : MemoryStore} {h : List Event} (hp : Plays n s h n' s') :
    n ≤ n' := by
  induction hp with
  | nil => exact Nat.le_refl _
  | call _ _ ih => exact (Nat.le_succ _).trans ih
  | quiet _ _ ih => exact ih

/-- Nobody else takes a turn while a client does what it may do. -/
theorem Follows.play {h : List Event} {n' : Nat} {s : MemoryStore} (hp : Plays n m.store h n' s)
    (hn : n' < 2 ^ 64) (hm : crowd.Follows m₀ n m)
    (hmay : (crowd.client i).MayDo (eventsOf i m.past ++ h)) :
    crowd.Follows m₀ n' ⟨m.past ++ h.map fun e => (i, e), s⟩ := by
  obtain ⟨past, store⟩ := m
  dsimp only at hp
  induction hp generalizing past with
  | nil => simpa using hm
  | @call n s c r s' _ h n' _ hanswer hp ih =>
    have hstep := hm.answer (Nat.lt_of_le_of_lt ((Nat.le_succ n).trans hp.le) hn) hanswer
      (by rw [List.append_cons] at hmay; exact hmay.before)
    have hrest := ih hn _ hstep (by rw [eventsOf_self, List.append_assoc]; exact hmay)
    simpa using hrest
  | @quiet n s e h n' _ he hp ih =>
    have hstep := hm.quiet he (i := i) (by rw [List.append_cons] at hmay; exact hmay.before)
    have hrest := ih hn _ hstep (by rw [eventsOf_self, List.append_assoc]; exact hmay)
    simpa using hrest

end

end Crowd

namespace Crowd

/-- A run whose only step fails, and two readers. -/
def watched : Crowd (Fin 3) where
  client
    | 0 => .run .failing .lone
    | 1 => .executionLogs (Supply.fresh ⟨0, 0⟩).1 .nil
    | 2 => .nodeStatuses (Supply.fresh ⟨0, 0⟩).1 .nil
  first := ⟨⟨[⟨.ofNat 1, .nil, "lone", .null, ⟨0, 0⟩⟩], [], []⟩, false, 0⟩
  consistent := ⟨by simp, by simp⟩

/-- The first reader comes when the attempt has failed and the row is still running. -/
theorem watched_served : ∃ m m' s, watched.Leads watched.start m ∧ watched.Leads m m' ∧
    (∃ row ∈ m.store.tables.executions, row.status = .running) ∧
      (watched.client 1).Serves (Supply.fresh ⟨0, 0⟩).1 (eventsOf 1 m.past) .error ∧
      (watched.client 2).Serves (Supply.fresh ⟨0, 0⟩).1 (eventsOf 2 m'.past) s ∧ s = .error := by
  let execution := (Supply.fresh ⟨0, 0⟩).1
  let row : ExecutionRow := ⟨execution, .ofNat 1, .pending, (Supply.now ⟨0, 0⟩).1, none⟩
  let begun : ExecutionRow := { row with status := .running }
  let t : Instant := .ofMicros 0
  let entry : LogEntry := ⟨execution, "only", "only", "broken", .object [], t⟩
  let log := entry.row (Supply.fresh ⟨4, 0⟩).1
  let outcome : Outcome := .returned (.failure "out of order")
  let failed := log.complete (Tracker.completion outcome.result t)
  -- what each of them does
  let running : List Event := [
    .called (.createExecution (.ofNat 1)) (.ok row),
    .called (.listLogs execution) (.ok []),
    .called (.updateStatus execution .running false) (.ok true),
    .called (.getExecution execution) (.ok begun),
    .told t,
    .called (.insertLog entry) (.ok log),
    .started ⟨"broken", "only", none, []⟩ (.done outcome),
    .joined [outcome],
    .told t,
    .called (.completeLog (.row log.id) (Tracker.completion outcome.result t)) (.ok ())]
  let reading : List Event := [
    .called (.getExecution execution) (.ok begun),
    .called (.workflowTeam (.ofNat 1)) (.ok .nil),
    .called (.listLogs execution) (.ok [failed])]
  have hrun : ∃ rest, Action.Path [] (Executor.failing.run .lone) running rest := by
    have houtcomes : Outcomes (running.take 7) [outcome] :=
      List.Forall₂.cons Work.ComesTo.done List.Forall₂.nil
    rw [Executor.run_eq Executor.lone_compiles]
    exact ⟨_, .call (.ok row) (.call (.ok []) (.call (.ok true) (.call (.ok begun) (.now t
      (.call (.ok log) (.spawn (.join [outcome] houtcomes (.now t (.call (.ok ()) .refl)))))))))⟩
  have hlogs : Action.Path [] (Tracker.executionLogs execution .nil) reading
      (.done (.ok ⟨{ begun with status := .error }, [failed.redact]⟩)) :=
    .call (.ok begun) (.call (.ok .nil) (.call (.ok [failed]) .refl))
  have hnodes : Action.Path [] (Tracker.nodeStatuses execution .nil) reading
      (.done (.ok ⟨.error, [("only", .error)]⟩)) :=
    .call (.ok begun) (.call (.ok .nil) (.call (.ok [failed]) .refl))
  let s₁ : MemoryStore := ⟨⟨watched.first.tables.workflows, [begun], [failed]⟩, false, 0⟩
  have htold : ∀ c r, Event.told t ≠ .called c r := fun _ _ => Event.noConfusion
  have hplays : Plays 0 watched.first running 6 s₁ :=
    .call rfl (.call rfl (.call rfl (.call rfl (.quiet htold (.call rfl
      (.quiet (fun _ _ => Event.noConfusion) (.quiet (fun _ _ => Event.noConfusion)
        (.quiet htold (.call rfl .nil)))))))))
  have hreads : ∀ n, Plays n s₁ reading (n + 3) s₁ := fun n =>
    .call rfl (.call rfl (.call rfl .nil))
  -- the run goes as far as it can before it writes its row again, and then come the readers
  let m₁ : Moment (Fin 3) := ⟨running.map fun e => (0, e), s₁⟩
  let m₂ : Moment (Fin 3) := ⟨m₁.past ++ reading.map fun e => (1, e), s₁⟩
  let m₃ : Moment (Fin 3) := ⟨m₂.past ++ reading.map fun e => (2, e), s₁⟩
  have hpast₁ : ∀ i, i ≠ 0 → eventsOf i m₁.past = [] := fun i hi =>
    eventsOf_map_other (Ne.symm hi) running
  have hpast₂ : eventsOf 1 m₂.past = reading := by
    rw [eventsOf_append, eventsOf_map_self, hpast₁ 1 (by decide), List.nil_append]
  have hnew : eventsOf 2 m₂.past = [] := by
    rw [eventsOf_append, hpast₁ 2 (by decide), List.nil_append]
    exact eventsOf_map_other (by decide) reading
  have hpast₃ : eventsOf 2 m₃.past = reading := by
    rw [eventsOf_append, eventsOf_map_self, hnew, List.nil_append]
  have h₁ : watched.Follows watched.start 6 m₁ :=
    .play (m := watched.start) hplays (by decide) (start_follows rfl rfl) hrun
  have h₂ : watched.Follows watched.start 9 m₂ :=
    .play (hreads 6) (by decide) h₁ (by rw [hpast₁ 1 (by decide)]; exact ⟨_, hlogs⟩)
  have h₃ : watched.Follows m₂ 12 m₃ :=
    .play (hreads 9) (by decide) ⟨.refl, h₂.counted⟩ (by rw [hnew]; exact ⟨_, hnodes⟩)
  have hserved : (watched.client 1).Serves row.id (eventsOf 1 m₂.past) .error := by
    rw [hpast₂]
    exact .logs hlogs
  have hserved' : (watched.client 2).Serves row.id (eventsOf 2 m₃.past) .error := by
    rw [hpast₃]
    exact .nodes hnodes
  have hclient : watched.client 0 = .run .failing .lone := rfl
  have hcreated : (0, .called (.createExecution Workflow.lone.id) (.ok row)) ∈ m₂.past :=
    List.mem_append_left _ (List.mem_map.2 ⟨_, List.mem_cons_self, rfl⟩)
  have hleaves : watched.LeavesLogs := by
    intro i c hc hclient
    fin_cases i <;> cases hclient
  have hkept : ∀ k, (k, .called (.deleteWorkflow Workflow.lone.id) (.ok ())) ∉ m₃.past := by
    simp [m₃, m₂, m₁, running, reading]
  exact ⟨m₂, m₃, _, h₂.leads, h₃.leads, ⟨begun, List.mem_singleton_self _, rfl⟩, hserved, hserved',
    served_kept hleaves h₂.leads hclient hcreated (by simp [watched]) hserved rfl h₃.leads hkept
      hnew hserved'⟩

end Crowd

end Flowgraph
