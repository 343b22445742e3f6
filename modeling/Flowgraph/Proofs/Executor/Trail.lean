import Flowgraph.Proofs.Executor.Drive

/-! The trail of a run. As long as the store takes every log entry, the entries that it has taken
and the steps that have been started stand in one order, one entry for each step and on its own
input, and what the steps come to stands in that order too. -/

namespace Flowgraph

/-- The log entries that were taken, in order. -/
def entries (h : List Event) : List LogEntry :=
  h.filterMap fun
    | .called (.insertLog entry) (.ok _) => some entry
    | _ => none

/-- What the steps that are no longer waited for have come to, in the order of their start. -/
def ends (h : List Event) : List Outcome :=
  h.flatMap fun
    | .joined outcomes => outcomes
    | _ => []

/-- No log entry was refused. -/
def Served (h : List Event) : Prop := ∀ entry e, .called (.insertLog entry) (.error e) ∉ h

/-- The entry tells of the step that is started. -/
structure LogEntry.Announces (execution : Uuid) (entry : LogEntry) (i : Invocation) : Prop where
  execution : entry.execution = execution
  nodeId : entry.nodeId = i.node
  nodeType : entry.nodeType = i.stepType
  input : entry.input = Redaction.redact (.object i.input)

/-- If no entry was refused, each step has its entry. -/
def Paired (execution : Uuid) (h : List Event) : Prop :=
  Served h → List.Forall₂ (LogEntry.Announces execution) (entries h) (starts h)

/-- Logs no start and starts no step. -/
def Event.IsIdle : Event → Prop
  | .called c _ => c.method ≠ .insertLog
  | .started _ _ => False
  | _ => True

section

variable {execution : Uuid} {h h' : List Event}

@[simp] theorem entries_append (h h' : List Event) : entries (h ++ h') = entries h ++ entries h' :=
  List.filterMap_append

/-- What is no call takes no entry. -/
theorem entries_quiet {e : Event} (he : ∀ c r, e ≠ .called c r) (h : List Event) :
    entries (h ++ [e]) = entries h := by
  have hnone : entries [e] = [] := by
    cases e with
    | called c r => exact absurd rfl (he c r)
    | told | slept | warned | started | joined => rfl
  rw [entries_append, hnone, List.append_nil]

@[simp] theorem ends_append (h h' : List Event) : ends (h ++ h') = ends h ++ ends h' :=
  List.flatMap_append

theorem mem_entries {entry : LogEntry} :
    entry ∈ entries h ↔ ∃ row, .called (.insertLog entry) (.ok row) ∈ h := by
  simp only [entries, List.mem_filterMap]
  constructor
  · rintro ⟨e, he, hentry⟩
    split at hentry
    · exact ⟨_, Option.some.inj hentry ▸ he⟩
    · simp at hentry
  · rintro ⟨row, hrow⟩
    exact ⟨_, hrow, rfl⟩

theorem Served.of_prefix (hs : Served h') (hp : h <+: h') : Served h :=
  fun entry e he => hs entry e (hp.subset he)

theorem Event.IsIdle.entries_eq {e : Event} (he : e.IsIdle) : entries [e] = [] := by
  cases e with
  | called c r =>
    cases c with
    | insertLog => exact absurd rfl he
    | _ => rfl
  | told | slept | warned | started | joined => rfl

theorem Event.IsIdle.starts_eq {e : Event} (he : e.IsIdle) : starts [e] = [] := by
  cases e with
  | started => exact he.elim
  | called | told | slept | warned | joined => rfl

theorem Paired.adds (hp : Paired execution h) (ha : Adds Event.IsIdle h h') :
    Paired execution h' := by
  obtain ⟨more, rfl, hidle⟩ := ha
  induction more using List.reverseRecOn with
  | nil => rwa [List.append_nil]
  | append_singleton more e ih =>
    have he : e.IsIdle := hidle e (by simp)
    rw [← List.append_assoc]
    intro hs
    have hmore := ih (fun e he => hidle e (List.mem_append_left _ he))
      (hs.of_prefix (List.prefix_append _ _))
    simpa [he.entries_eq, he.starts_eq] using hmore

/-- One more entry is taken, and its step is started. -/
theorem Paired.attempt (hp : Paired execution h) {entry : LogEntry} {row : LogRow} {i : Invocation}
    (hi : entry.Announces execution i) (t : Instant) (w : Work) :
    Paired execution
      (h ++ [Event.told t, .called (.insertLog entry) (.ok row)] ++ [Event.started i w]) := by
  intro hs
  have hbefore := hp (hs.of_prefix ((List.prefix_append _ _).trans (List.prefix_append _ _)))
  have hpair := List.rel_append hbefore (List.Forall₂.cons hi .nil)
  simpa [entries, starts] using hpair

theorem Paired.exists_entry (hp : Paired execution h) (hs : Served h) {id : String}
    (hid : id ∈ (starts h).map (·.node)) : ∃ entry ∈ entries h, entry.nodeId = id := by
  obtain ⟨i, hi, rfl⟩ := List.mem_map.1 hid
  have hpair := hp hs
  generalize starts h = is, entries h = es at hi hpair ⊢
  induction hpair with
  | nil => simp at hi
  | @cons entry i' _ _ ha _ ih =>
    rcases List.mem_cons.1 hi with rfl | hi
    · exact ⟨entry, List.mem_cons_self, ha.nodeId⟩
    · obtain ⟨entry, hentry, hid⟩ := ih hi
      exact ⟨entry, List.mem_cons_of_mem _ hentry, hid⟩

end

namespace Action

/-- Where the action ends, every step has its entry if every step had it before. -/
def Keeps (config : TrackerConfig) (execution : Uuid) (a : Action α) : Prop :=
  ∀ h, Paired execution h →
    a.Ensures (fun _ => True) (Exhausted config) (fun _ h' => Paired execution h') h

variable {config : TrackerConfig} {execution : Uuid} {c : Call} {h : List Event}

theorem Keeps.bind {a : Action α} {f : α → Action β} (ha : a.Keeps config execution)
    (hf : ∀ r, (f r).Keeps config execution) : (a.bind f).Keeps config execution :=
  fun h hp => (ha h hp).bind fun r h' _ _ => hf r h'

theorem keeps_of_idle {a : Action α} (ha : ∀ h, a.Ensures (fun _ => True) (Exhausted config)
    (fun _ h' => Adds Event.IsIdle h h') h) : a.Keeps config execution :=
  fun h hp => (ha h).mono fun _ _ _ _ hadds => hp.adds hadds

theorem keeps_done (a : α) : (done a).Keeps config execution := fun _ hp => ⟨trivial, hp⟩

theorem keeps_clock : clock.Keeps config execution :=
  keeps_of_idle fun _ => ⟨trivial, fun _ => ⟨trivial, .one trivial⟩⟩

theorem keeps_outcomes : outcomes.Keeps config execution :=
  keeps_of_idle fun _ => ⟨trivial, fun _ _ => ⟨trivial, .one trivial⟩⟩

theorem keeps_note (e : TransitionError) : (note e).Keeps config execution :=
  keeps_of_idle fun _ => ⟨trivial, trivial, .one trivial⟩

theorem keeps_ask (hc : c.method ≠ .insertLog) : (ask c).Keeps config execution :=
  keeps_of_idle fun _ => ⟨trivial, fun _ => ⟨trivial, .one hc⟩⟩

theorem keeps_withRetry (hc : c.method ≠ .insertLog) :
    (withRetry config (ask c)).Keeps config execution := by
  refine keeps_of_idle fun h => (ensures_withRetry fun _ _ => trivial).mono ?_
  rintro r h' - - ⟨hadds, -⟩
  refine hadds.mono fun e he => ?_
  cases e with
  | called c' r => obtain rfl : c' = c := he; exact hc
  | slept => trivial
  | told | warned | started | joined => exact he.elim

/-- A call that is taken at once is not made again; one that is not leaves a refusal behind. -/
theorem ensures_withRetry_once :
    (withRetry config (ask c)).Ensures (fun _ => True) (Exhausted config)
      (fun _ h' => (∃ a, h' = h ++ [Event.called c (.ok a)]) ∨ ∃ e, .called c (.error e) ∈ h') h := by
  have hall : (withRetry config (ask c)).Ensures (fun _ => True) (Exhausted config)
      (fun r h' => Adds (IsTry c) h h' ∧ Replied config c r h') h :=
    ensures_withRetry fun _ _ => trivial
  unfold withRetry at hall ⊢
  generalize config.maxLogRetries.toNat = left at hall ⊢
  have hrefused : ∀ {b : Action c.Reply} {gives} (e : StoreError),
      b.Ensures (fun _ => True) (Exhausted config) gives (h ++ [Event.called c (.error e)]) →
      b.Ensures (fun _ => True) (Exhausted config)
        (fun _ h' => (∃ a, h' = h ++ [Event.called c (.ok a)]) ∨ ∃ e, .called c (.error e) ∈ h')
        (h ++ [Event.called c (.error e)]) :=
    fun e hb => hb.mono fun _ _ hp _ _ => Or.inr ⟨e, hp.subset (by simp)⟩
  -- the first try is the same whether there are more to come or not
  cases left with
  | zero | succ =>
    refine ⟨trivial, fun r => ?_⟩
    cases r with
    | error e => exact hrefused e (hall.2 (.error e))
    | ok a => exact ⟨trivial, Or.inl ⟨a, rfl⟩⟩

end Action

namespace Tracker

open Flowgraph.Action

variable {config : TrackerConfig} {execution : Uuid} {h : List Event}

theorem ensures_logStart_once {n : CompiledNode} {input : Json} :
    (logStart config execution n input).Ensures (fun _ => True) (Exhausted config)
      (fun _ h' => (∃ t row, h' = h ++ [Event.told t,
        .called (.insertLog (n.logEntry execution input t)) (.ok row)]) ∨ ¬ Served h') h := by
  refine Ensures.bind (ensures_clock trivial fun _ => trivial) ?_
  rintro t _ - - rfl
  refine Ensures.bind ensures_withRetry_once ?_
  rintro r h' - - hreply
  have hend : (∃ t row, h' = h ++ [Event.told t,
      .called (.insertLog (n.logEntry execution input t)) (.ok row)]) ∨ ¬ Served h' := by
    rcases hreply with ⟨row, rfl⟩ | ⟨e, he⟩
    · exact Or.inl ⟨t, row, List.append_assoc ..⟩
    · exact Or.inr fun hs => hs _ e he
  cases r <;> exact ⟨trivial, hend⟩

theorem keeps_logComplete (id : String) (handle : LogHandle) (r : StepResult) :
    (logComplete config execution id handle r).Keeps config execution := by
  have hcomplete : ∀ target c, (complete config target c).Keeps config execution :=
    fun _ _ => keeps_withRetry (by simp [Call.method])
  rw [logComplete_eq]
  refine keeps_clock.bind fun t => Keeps.bind ?_ fun byRow => Keeps.bind ?_ fun w => keeps_done _
  · rw [completeRow]
    split
    · exact hcomplete _ _
    · exact keeps_done _
  · rcases byRow with (_ | _ | _) | _
    · exact hcomplete _ _
    · exact keeps_done _
    · exact keeps_done _
    · exact keeps_done _

theorem keeps_refreshStatus (run : RunState) (finished : Bool) :
    (refreshStatus config execution run finished).Keeps config execution := by
  rw [refreshStatus_eq]
  refine Keeps.bind (keeps_ask (by simp [Call.method])) fun listed => ?_
  exact Keeps.bind (keeps_withRetry (by simp [Call.method])) fun _ => keeps_done _

theorem keeps_persistedStatus : (persistedStatus execution).Keeps config execution := by
  refine Keeps.bind (keeps_ask (by simp [Call.method])) fun r => ?_
  cases r <;> exact keeps_done _

end Tracker

namespace Executor

open Flowgraph.Action

variable {x : Executor} {ids : RunIds} {program : Program} {graph : Graph} {h : List Event}

theorem keeps_attempt (n : CompiledNode) (outputs : Outputs) :
    (x.attempt ids n outputs).Keeps x.config ids.execution := by
  intro h hp
  refine Ensures.bind Tracker.ensures_logStart_once ?_
  rintro log h₁ - - hlog
  refine Ensures.bind (ensures_start trivial trivial) ?_
  rintro _ h₂ hgrow - rfl
  refine ⟨trivial, ?_⟩
  rcases hlog with ⟨t, row, rfl⟩ | hrefused
  · exact hp.attempt ⟨rfl, rfl, rfl, rfl⟩ t _
  · exact fun hs => absurd (hs.of_prefix hgrow) hrefused

theorem keeps_dispatch (outputs : Outputs) (nodes : List CompiledNode) (run : RunState) :
    (x.dispatch ids outputs nodes run).Keeps x.config ids.execution := by
  induction nodes generalizing run with
  | nil => exact keeps_done _
  | cons n rest ih =>
    rw [dispatch]
    split
    · split
      · exact (keeps_note _).bind fun _ => ih run
      · exact (keeps_attempt n outputs).bind fun a => (ih _).bind fun _ => keeps_done _
    · exact ih run

theorem keeps_record (c : Course) (id : String) (r : StepResult) :
    (c.record id r).Keeps x.config ids.execution := by
  simp only [Course.record]
  split
  · exact keeps_done _
  · exact (keeps_note _).bind fun _ => keeps_done _

theorem keeps_collect (l : List (Attempt × Outcome)) (c : Course) :
    (x.collect ids l c).Keeps x.config ids.execution := by
  induction l generalizing c with
  | nil => exact keeps_done _
  | cons p rest ih =>
    obtain ⟨a, outcome⟩ := p
    rw [collect]
    exact (keeps_record c _ _).bind fun c =>
      (Tracker.keeps_logComplete _ _ _).bind fun _ => ih c

theorem keeps_runStage (nodes : List CompiledNode) (c : Course) :
    (x.runStage ids nodes c).Keeps x.config ids.execution :=
  (keeps_dispatch _ _ _).bind fun _ => keeps_outcomes.bind fun _ =>
    (keeps_collect _ _).bind fun _ => (Tracker.keeps_refreshStatus _ _).bind fun _ => keeps_done _

theorem keeps_runStages (stages : List Stage) (c : Course) :
    (x.runStages ids program stages c).Keeps x.config ids.execution := by
  induction stages generalizing c with
  | nil => exact keeps_done _
  | cons stage rest ih =>
    rw [runStages]
    refine (Tracker.keeps_persistedStatus.bind fun _ => keeps_done _).bind fun stopped => ?_
    cases stopped with
    | true => exact keeps_done _
    | false => exact (keeps_runStage _ _).bind fun c => ih c

/-- A run that has come to its end has logged every step that it has started, just before the start
and in the same order. -/
theorem paired_of_path {report : ExecutionReport}
    (p : Action.Path [] (x.drive ids program) h (.done report)) : Paired ids.execution h := by
  have hdrive : (x.drive ids program).Keeps x.config ids.execution :=
    (Tracker.keeps_refreshStatus _ _).bind fun _ => (keeps_runStages _ _).bind fun _ =>
      (Tracker.keeps_refreshStatus _ _).bind fun _ =>
        Tracker.keeps_persistedStatus.bind fun _ => keeps_done _
  exact (p.ensures (hdrive [] fun _ => .nil)).2

variable (x ids program) in
/-- The step of a node, run on its input, can come to the outcome. -/
def Came (i : Invocation) (o : Outcome) : Prop :=
  ∃ n ∈ program.nodes, n.id = i.node ∧ (x.work ids n i.input).ComesTo o

/-- What the steps have come to stands in the order of their start. -/
theorem Orderly.ends_eq (ho : x.Orderly ids program h) :
    ∃ past, starts h = past ++ (tally h).running.map (·.1) ∧
      List.Forall₂ (x.Came ids program) past (ends h) ∧
      (tally h).results = past.zipWith (fun i o => (i.node, o.result)) (ends h) := by
  induction ho with
  | nil => exact ⟨[], rfl, .nil, rfl⟩
  | @snoc h e ho ha ih =>
    obtain ⟨past, hstarts, hcame, hresults⟩ := ih
    cases e with
    | started i w =>
      exact ⟨past, by simp [hstarts], by simpa [ends] using hcame, by simpa [ends] using hresults⟩
    | joined os =>
      have hlen : past.length = (ends h).length := hcame.length_eq
      have hjoined : List.Forall₂ (x.Came ids program) ((tally h).running.map (·.1)) os := by
        rw [List.forall₂_map_left_iff, List.forall₂_iff_zip]
        refine ⟨List.Forall₂.length_eq ha, fun {s o} hso => ?_⟩
        obtain ⟨n, hd⟩ := ho.running s (List.of_mem_zip hso).1
        refine ⟨n, hd.mem, by rw [hd.invocation_eq]; rfl, ?_⟩
        rw [← hd.work_eq]
        exact (List.forall₂_iff_zip.1 ha).2 hso
      refine ⟨past ++ (tally h).running.map (·.1), by simp [hstarts], ?_, ?_⟩
      · simpa [ends] using List.rel_append hcame hjoined
      · rw [tally_joined, hresults, ends_append, List.zipWith_append hlen, List.zipWith_map_left]
        simp [ends]
    | called | told | slept | warned =>
      exact ⟨past, by simpa using hstarts, by simpa [ends] using hcame, by simpa [ends] using hresults⟩

end Executor

end Flowgraph
