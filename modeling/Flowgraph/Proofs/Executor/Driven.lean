import Flowgraph.Proofs.Executor.Lifecycle
import Flowgraph.Proofs.Executor.Views

/-! A crowd in which identifiers of log rows are given out once, too. Each execution is driven by the
run that has created it, and to that run the past of all is a trace of its store. -/

namespace Flowgraph

theorem Tables.Effect.issued_of_created {t t' : Tables} {issues : Uuid → Prop} {w : Uuid}
    {row : ExecutionRow} (he : t.Effect issues (.createExecution w) (.ok row) t') :
    issues row.id := by
  cases he with
  | read h => simp [Call.method] at h
  | createdExecution _ hid => exact hid

/-- What a client asks of logs or workflows is asked by a run for its own execution, or by itself. -/
theorem Client.writes_of_mayDo {client : Client} {h : List Event} {c : Call} {r : c.Reply}
    (hmay : client.MayDo (h ++ [Event.called c r]))
    (hc : c.method ∈ [.insertLog, .completeLog, .deleteWorkflow]) :
    (∃ hc, client = .ask c hc) ∨
      ∃ x workflow program row k, client = .run x workflow ∧
        x.compile workflow.graph = .ok program ∧
        h = .called (.createExecution workflow.id) (.ok row) :: k ∧
        x.Orderly ⟨workflow.id, row.id⟩ program k ∧
        x.Allowed ⟨workflow.id, row.id⟩ program k (.called c r) := by
  have hread : ∀ {e}, ¬ c.Reads e := by
    rintro e (_ | _ | _) <;> simp [Call.method] at hc
  cases client with
  | executionLogs e team =>
    obtain ⟨rest, p⟩ := hmay
    exact absurd (p.last Tracker.asks_executionLogs) hread
  | nodeStatuses e team =>
    obtain ⟨rest, p⟩ := hmay
    exact absurd (p.last Tracker.asks_nodeStatuses) hread
  | stop e team =>
    obtain ⟨rest, p⟩ := hmay
    rcases p.last Tracker.asks_stop with hreads | rfl
    · exact absurd hreads hread
    · simp [Call.method] at hc
  | ask c' hc' =>
    obtain ⟨rest, p⟩ := hmay
    obtain rfl : c = c' := p.last (P := (· = c')) (Action.asks_ask rfl)
    exact Or.inl ⟨hc', rfl⟩
  | run x workflow =>
    obtain ⟨rest, p⟩ := hmay
    have hne : ∀ w r', Event.called c r ≠ .called (.createExecution w) r' := by
      rintro w r' he
      obtain ⟨rfl, -⟩ := Event.called.inj he
      simp [Call.method] at hc
    obtain ⟨program, row, k, rest', hcompile, hpast, q⟩ := Executor.drives_of_path hne p
    have ho := Executor.orderly_of_path (Graph.compile_layered hcompile) q
    exact Or.inr ⟨x, workflow, program, row, k, rfl, hcompile, hpast, ho.of_append, ho.allowed⟩

namespace Crowd

section

variable {ι : Type} (crowd : Crowd ι)

/-- Calls may fail, and no identifier is given out twice, be it that of an execution or of a row of
a log. -/
def careful (past : List (ι × Event)) : Setting :=
  ⟨True, fun _ id => ¬ crowd.Minted past id ∧ ¬ Taken crowd.first past id, fun _ _ => False⟩

/-- Logs are written by runs only. -/
def LeavesLogs : Prop :=
  ∀ i c h, crowd.client i = .ask c h → c.method ≠ .insertLog ∧ c.method ≠ .completeLog

theorem issued_of_step {crowd : Crowd ι} {m : Moment ι} {w : Uuid} {row : ExecutionRow}
    {s : MemoryStore} (hs : (crowd.careful m.past).Step m.store
      (.own (.called (.createExecution w) (.ok row))) s) : ¬ crowd.Minted m.past row.id := by
  cases hs with
  | quiet he => exact absurd rfl (he _ _)
  | own ha => exact ha.effect.issued_of_created.1

end

variable {ι : Type} [DecidableEq ι] (crowd : Crowd ι)

/-- One of them takes a turn. -/
inductive Turn : Moment ι → Moment ι → Prop
  | take {m i e s} : (crowd.client i).MayDo (eventsOf i m.past ++ [e]) →
    (crowd.careful m.past).Step m.store (.own e) s → Turn m ⟨m.past ++ [(i, e)], s⟩

/-- It can come from one moment to another. -/
def Leads : Moment ι → Moment ι → Prop := Relation.ReflTransGen crowd.Turn

variable {crowd} {m m' : Moment ι} {i j : ι} {e : Event} {s : MemoryStore}

theorem Turn.inv (h : crowd.Turn m ⟨m.past ++ [(i, e)], s⟩) :
    (crowd.client i).MayDo (eventsOf i m.past ++ [e]) ∧
      (crowd.careful m.past).Step m.store (.own e) s := by
  generalize hm' : (⟨m.past ++ [(i, e)], s⟩ : Moment ι) = m' at h
  obtain ⟨hmay, hs⟩ := h
  obtain ⟨hpast, rfl⟩ := Moment.mk.inj hm'
  obtain ⟨rfl, rfl⟩ := Prod.mk.inj (List.singleton_inj.1 (List.append_inj' hpast rfl).2)
  exact ⟨hmay, hs⟩

theorem Turn.step (h : crowd.Turn m m') : crowd.Step m m' := by
  obtain ⟨hmay, hs⟩ := h
  refine .turn hmay ?_
  cases hs with
  | quiet he => exact .quiet he
  | own ha => exact .own (ha.mono (S := crowd.careful _) id fun _ hid => hid.1)

theorem Turn.moves (h : crowd.Turn m m') : Setting.Moves crowd.careful m m' := by
  obtain ⟨-, hs⟩ := h
  exact .turn hs

theorem Leads.trans {m'' : Moment ι} (h : crowd.Leads m m') (h' : crowd.Leads m' m'') :
    crowd.Leads m m'' :=
  Relation.ReflTransGen.trans h h'

theorem Leads.reaches (h : crowd.Leads m m') : crowd.Reaches m m' :=
  Relation.ReflTransGen.mono (fun _ _ ht => Turn.step ht) _ _ h

theorem Leads.past (h : crowd.Leads m m') : m.past <+: m'.past := by
  induction h with
  | refl => exact List.prefix_refl _
  | tail _ ht ih =>
    obtain ⟨-, -⟩ := ht
    exact ih.trans (List.prefix_append _ _)

theorem Leads.traced (h : crowd.Leads crowd.start m) : Traced crowd.first m := by
  induction h with
  | refl => exact .start crowd.first
  | tail _ ht ih => exact ih.move (S := crowd.careful) (fun _ hid => hid.2) ht.moves

theorem Leads.sound (h : crowd.Leads crowd.start m) : crowd.Sound m := sound_start.reaches h.reaches

/-- What each has done is what it may do. -/
theorem Leads.mayDo (h : crowd.Leads crowd.start m) (i : ι) :
    (crowd.client i).MayDo (eventsOf i m.past) := by
  induction h with
  | refl =>
    change (crowd.client i).MayDo []
    cases crowd.client i <;> exact ⟨_, .refl⟩
  | @tail m₁ m₂ h ht ih =>
    obtain ⟨hmay, -⟩ := ht
    rename_i j e s
    by_cases hij : j = i
    · subst hij
      rwa [eventsOf_self]
    · rwa [eventsOf_other hij]

/-- The turn at which somebody has done something. -/
theorem Leads.at_event (before : List Event) {after : List Event} (h : crowd.Leads m m')
    (hpast : eventsOf i m'.past = before ++ e :: after) (hnew : eventsOf i m.past <+: before) :
    ∃ m₁ s, crowd.Leads m m₁ ∧ eventsOf i m₁.past = before ∧
      crowd.Turn m₁ ⟨m₁.past ++ [(i, e)], s⟩ ∧ crowd.Leads ⟨m₁.past ++ [(i, e)], s⟩ m' := by
  induction h generalizing after with
  | refl =>
    have hlen := hnew.length_le
    rw [hpast] at hlen
    simp at hlen
  | @tail m₁ m₂ h ht ih =>
    have hlast := ht
    obtain ⟨-, -⟩ := ht
    rename_i j e' s
    by_cases hij : j = i
    · subst hij
      rw [eventsOf_self] at hpast
      rcases List.eq_nil_or_concat after with rfl | ⟨after, last, rfl⟩
      · obtain ⟨hbefore, he⟩ := List.append_inj' hpast rfl
        obtain rfl := List.singleton_inj.1 he
        exact ⟨m₁, s, h, hbefore, hlast, .refl⟩
      · rw [List.concat_eq_append, ← List.cons_append, ← List.append_assoc] at hpast
        obtain ⟨m₀, s₀, hm₀, hbefore, ht₀, hm₁⟩ := ih (List.append_inj' hpast rfl).1
        exact ⟨m₀, s₀, hm₀, hbefore, ht₀, hm₁.tail hlast⟩
    · rw [eventsOf_other hij] at hpast
      obtain ⟨m₀, s₀, hm₀, hbefore, ht₀, hm₁⟩ := ih hpast
      exact ⟨m₀, s₀, hm₀, hbefore, ht₀, hm₁.tail hlast⟩

section

variable {x : Executor} {workflow : Workflow} {program : Program} {w : Uuid} {row : ExecutionRow}

/-- An identifier of an execution that has been created is given out once. -/
theorem Leads.created_once (h : crowd.Leads crowd.start m)
    (hrow : (i, .called (.createExecution w) (.ok row)) ∈ m.past) :
    (∀ old ∈ crowd.first.tables.executions, old.id ≠ row.id) ∧
      ∀ j w' row', (j, .called (.createExecution w') (.ok row')) ∈ m.past → row'.id = row.id →
        j = i := by
  induction h with
  | refl => simp [start] at hrow
  | @tail m₁ m₂ h ht ih =>
    obtain ⟨-, hs⟩ := ht
    rename_i k e s
    rcases List.mem_append.1 hrow with hearly | hnow
    · obtain ⟨hfirst, honce⟩ := ih hearly
      refine ⟨hfirst, fun j w' row' hrow' hid => ?_⟩
      rcases List.mem_append.1 hrow' with hearly' | hnow'
      · exact honce j w' row' hearly' hid
      · obtain ⟨rfl, rfl⟩ := Prod.mk.inj (List.mem_singleton.1 hnow')
        exact absurd (Or.inr ⟨i, w, row, hearly, hid.symm⟩) (issued_of_step hs)
    · obtain ⟨rfl, rfl⟩ := Prod.mk.inj (List.mem_singleton.1 hnow)
      have hnew := issued_of_step hs
      refine ⟨fun old hold hid => hnew (Or.inl ⟨old, hold, hid⟩), fun j w' row' hrow' hid => ?_⟩
      rcases List.mem_append.1 hrow' with hearly' | hnow'
      · exact absurd (Or.inr ⟨j, w', row', hearly', hid⟩) hnew
      · exact (Prod.mk.inj (List.mem_singleton.1 hnow')).1

/-- All that is logged is of executions that there have been, or has been there at first. -/
theorem Leads.logged (h : crowd.Leads crowd.start m) (hlogs : crowd.LeavesLogs) :
    ∀ log ∈ m.store.tables.logs,
      (∃ old ∈ crowd.first.tables.logs, old.execution = log.execution) ∨
        crowd.Minted m.past log.execution := by
  intro log hlog
  rcases h.traced.origin log hlog with ⟨old, hold, -, hentry⟩ | ⟨j, written, hwritten, -⟩
  · exact Or.inl ⟨old, hold, congrArg LogEntry.execution hentry⟩
  · obtain ⟨before, after, hpast⟩ := List.append_of_mem (mem_eventsOf hwritten)
    obtain ⟨m₁, s, hm₁, rfl, hturn, hm⟩ := h.at_event _ hpast List.nil_prefix
    rcases Client.writes_of_mayDo hturn.inv.1 (by simp [Call.method]) with
      ⟨hc, hclient⟩ | ⟨x, workflow, program, row, k, -, -, hpast', -, hallowed⟩
    · exact absurd rfl (hlogs j _ hc hclient).1
    · obtain ⟨n, -, -, -, t, hentry⟩ := hallowed
      have hcreated : (j, .called (.createExecution workflow.id) (.ok row)) ∈ m₁.past :=
        mem_past (hpast' ▸ List.mem_cons_self)
      exact Or.inr (Or.inr ⟨j, workflow.id, row, (((List.prefix_append _ _).trans hm.past).subset
        hcreated), (congrArg LogEntry.execution hentry).symm⟩)

/-- To its run, what the others do to the store is what may happen to an execution that others leave
alone. -/
theorem Leads.view (hlogs : crowd.LeavesLogs) (hm : crowd.Leads crowd.start m)
    (hrow : (i, .called (.createExecution w) (.ok row)) ∈ m.past) (hm' : crowd.Leads m m')
    (hkept : ∀ j, (j, .called (.deleteWorkflow row.workflow) (.ok ())) ∉ m'.past) :
    ∃ more, m'.past = m.past ++ more ∧
      (Setting.shared True row.id).Runs m.store (viewOf i more) m'.store := by
  refine runs_view (fun _ _ => Turn.moves) hm'
    fun m₁ j c r s (hm₁ : crowd.Leads m m₁) hturn (hm₂ : crowd.Leads _ m') ha => ?_
  have hstart : crowd.Leads crowd.start m₁ := hm.trans hm₁
  have hrow₁ := hm₁.past.subset hrow
  have hanswers : (Setting.shared True row.id).Answers m₁.store c r s := by
    refine Setting.Answers.mono (S := crowd.careful m₁.past) id (fun id hid => ⟨?_, ?_⟩) ha
    · rintro rfl
      exact hid.1 (Or.inr ⟨i, w, row, hrow₁, rfl⟩)
    · rintro log hlog rfl
      exact hid.2 (hstart.traced.taken hlog)
  refine ⟨hanswers, fun hij hseen => ?_⟩
  by_cases hc : c.method ∈ [.insertLog, .completeLog, .deleteWorkflow]
  swap
  · change c.Leaves row.id m₁.store
    cases c <;> first | trivial | simp [Call.method] at hc
  rcases Client.writes_of_mayDo hturn.inv.1 hc with
    ⟨hc', hclient⟩ | ⟨x, workflow, program, row', k, -, -, hpast, ho, hallowed⟩
  · cases c with
    | deleteWorkflow workflow =>
      -- a deletion that is seen has taken the workflow away, so it is another one
      rintro old hold hid rfl
      have hworkflow := ((hstart.sound.shown row (.created hrow₁)).evolves old hold hid).workflow
      cases r with
      | error e => simp [Event.seen] at hseen
      | ok => exact hkept j (hm₂.past.subset (by simp [hworkflow]))
    | insertLog => exact absurd rfl (hlogs j _ hc' hclient).1
    | completeLog => exact absurd rfl (hlogs j _ hc' hclient).2
    | _ => trivial
  · refine Executor.leaves_of_allowed (i := j) hstart.traced ho (fun e he => ?_) hallowed
      fun hid => ?_
    · exact mem_past (hpast ▸ List.mem_cons_of_mem _ he)
    · have hcreated : (j, .called (.createExecution workflow.id) (.ok row')) ∈ m₁.past :=
        mem_past (hpast ▸ List.mem_cons_self)
      exact hij ((hstart.created_once hrow₁).2 j _ row' hcreated hid)

/-- The history of a run at one moment, and what it is at any other one. -/
theorem Leads.driven (hm : crowd.Leads crowd.start m) (hi : crowd.client i = .run x workflow)
    (hrow : (i, .called (.createExecution w) (.ok row)) ∈ m.past) :
    ∃ program k, x.compile workflow.graph = .ok program ∧ w = workflow.id ∧
      eventsOf i m.past = .called (.createExecution workflow.id) (.ok row) :: k ∧
        x.Orderly ⟨workflow.id, row.id⟩ program k := by
  have hmay := hm.mayDo i
  rw [hi] at hmay
  obtain ⟨rest, p⟩ := hmay
  obtain ⟨program, k, rest', hc, hw, hpast, q⟩ := Executor.drives_of_created p (mem_eventsOf hrow)
  exact ⟨program, k, hc, hw, hpast, Executor.orderly_of_path (Graph.compile_layered hc) q⟩

end

end Crowd

end Flowgraph
