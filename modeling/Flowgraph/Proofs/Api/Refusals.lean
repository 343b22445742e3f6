import Flowgraph.Proofs.Api.Process
import Flowgraph.Proofs.Api.Session

/-! Requests that fail. Each of them writes at most once, and writes last: whatever makes it fail comes
before the write or is the write, which then has not taken place. So the store is as all others have
left it, however many calls fail and whoever else uses the store between them. -/

namespace Flowgraph

namespace Call

/-- It only reads. -/
def Views (c : Call) : Prop :=
  c.method ∈ [.getWorkflow, .listWorkflows, .getExecution, .listLogs, .workflowTeam]

/-- It writes a log. A store that takes no logs counts such calls, though it refuses them. -/
def WritesLog (c : Call) : Prop := c.method = .insertLog ∨ c.method = .completeLog

end Call

/-- It leaves the store as it is: a call that reads, or one that writes no log and is refused. -/
def Event.Harmless : Event → Prop
  | .called c r => c.Views ∨ ¬ c.WritesLog ∧ ∃ e, r = .error e
  | _ => True

namespace MemoryStore

variable {s : MemoryStore} {supply : Supply} {c : Call}

theorem answer_of_views (hc : c.Views) : (s.answer supply c).2.1 = s := by
  cases c with
  | createWorkflow | deleteWorkflow | createExecution | updateStatus | insertLog | completeLog =>
    simp [Call.Views, Call.method] at hc
  | listWorkflows | listLogs => rfl
  | getWorkflow | getExecution | workflowTeam =>
    simp only [answer]
    split <;> rfl

theorem answer_of_error (hc : ¬ c.WritesLog) {e : StoreError}
    (he : (s.answer supply c).1 = .error e) : (s.answer supply c).2.1 = s := by
  cases c with
  | insertLog | completeLog => simp [Call.WritesLog, Call.method] at hc
  | getWorkflow | listWorkflows | getExecution | listLogs | workflowTeam =>
    exact answer_of_views (by simp [Call.Views, Call.method])
  | createWorkflow | createExecution => cases he
  | deleteWorkflow id =>
    simp only [answer] at he ⊢
    split at he
    · cases he
    · rfl
  | updateStatus id status finished =>
    simp only [answer] at he ⊢
    split at he
    · rfl
    · split at he
      · cases he
      · split at he <;> cases he

end MemoryStore

/-- What others have done. -/
def byOthers (l : List Entry) : List Entry :=
  l.filter fun
    | .own _ => false
    | .other _ _ => true

@[simp] theorem byOthers_map_own (h : List Event) : byOthers (h.map .own) = [] := by
  simp [byOthers, List.filter_eq_nil_iff]

namespace Setting

/-- Anybody may make any call, and any call may fail. -/
def anyone : Setting := ⟨True, fun _ _ => True, fun _ _ => True⟩

variable {S : Setting} {first s s' : MemoryStore} {l : List Entry}

theorem runs_nil_iff : S.Runs first [] s ↔ s = first := by
  constructor
  · intro h
    generalize hl : ([] : List Entry) = l at h
    cases h with
    | nil => rfl
    | snoc => simp at hl
  · rintro rfl
    exact .nil

theorem Answers.eq_of_harmless {c : Call} {r : c.Reply} (ha : S.Answers s c r s')
    (h : (Event.called c r).Harmless) : s' = s := by
  cases ha with
  | refused => rfl
  | @served supply _ _ _ _ hanswer =>
    have hstore : (s.answer supply c).2.1 = s' := by rw [hanswer]
    rw [← hstore]
    rcases h with hviews | ⟨hlog, e, rfl⟩
    · exact MemoryStore.answer_of_views hviews
    · exact MemoryStore.answer_of_error hlog (e := e) (by rw [hanswer])

/-- If what the run does leaves the store as it is, the store is as the others alone leave it. -/
theorem Runs.of_harmless (hr : S.Runs first l s) (hl : ∀ e ∈ own l, e.Harmless) :
    S.Runs first (byOthers l) s := by
  induction hr with
  | nil => exact .nil
  | @snoc l s e s' _ hs ih =>
    rw [own_append] at hl
    have hbefore := ih fun e he => hl e (List.mem_append_left _ he)
    rcases hs.cases with ⟨rfl, hq⟩ | ⟨c, r, rfl, ha⟩ | ⟨c, r, rfl, ho, ha⟩
    · cases e with
      | own e => simpa [byOthers] using hbefore
      | other c r => simpa [byOthers] using hbefore.snoc hs
    · have hsame := ha.eq_of_harmless (hl _ (by simp))
      simpa [byOthers, hsame] using hbefore
    · simpa [byOthers] using hbefore.snoc (.other ho ha)

end Setting

namespace Api

theorem Failure.le_status (f : Failure) : 400 ≤ f.status := by
  cases f <;> simp [status]

/-- All that has been done leaves the store as it is. -/
def Harmless (h : List Event) : Prop := ∀ e ∈ h, e.Harmless

theorem harmless_nil : Harmless [] := List.forall_mem_nil _

theorem Harmless.snoc {h : List Event} {e : Event} (hh : Harmless h) (he : e.Harmless) :
    Harmless (h ++ [e]) := by
  intro e' he'
  rcases List.mem_append.1 he' with he' | he'
  · exact hh e' he'
  · exact List.mem_singleton.1 he' ▸ he

/-- If it fails it has left the store as it is. -/
structure Handled.Careful (a : Handled) : Prop where
  ensures : ∀ h, Harmless h → a.Ensures (fun _ => True) (fun _ => True)
    (fun r h' => match r with
      | .ok answer => answer.response.status < 400
      | .error _ => Harmless h') h

section

variable {α : Type} {x : Executor} {team id : Uuid}

theorem careful_error (f : Failure) : Handled.Careful (.done (.error f)) :=
  ⟨fun _ hh => ⟨trivial, hh⟩⟩

theorem careful_reply {status : Nat} (hs : status < 400) (body : Body) :
    Handled.Careful (.done (.ok (reply status body))) :=
  ⟨fun _ _ => ⟨trivial, hs⟩⟩

/-- After a call that reads, the request can still fail. -/
theorem careful_view {c : Call} {next : c.Answer → Handled} (hc : c.Views)
    (hnext : ∀ a, Handled.Careful (next a)) : Handled.Careful (ask c next) := by
  refine ⟨fun h hh => ⟨trivial, fun r => ?_⟩⟩
  cases r with
  | ok a => exact (hnext a).ensures _ (hh.snoc (Or.inl hc))
  | error e => exact (careful_error _).ensures _ (hh.snoc (Or.inl hc))

/-- After a call that writes, nothing is left that can fail. -/
theorem careful_write {c : Call} {answer : c.Answer → Answer} (hc : ¬ c.WritesLog)
    (hanswer : ∀ a, (answer a).response.status < 400) :
    Handled.Careful (ask c fun a => .done (.ok (answer a))) := by
  refine ⟨fun h hh => ⟨trivial, fun r => ?_⟩⟩
  cases r with
  | ok a => exact ⟨trivial, hanswer a⟩
  | error e => exact (careful_error _).ensures _ (hh.snoc (Or.inr ⟨hc, e, rfl⟩))

theorem careful_read {a : Action (Except AccessError α)} {next : α → Answer}
    (ha : ∀ h, Harmless h → a.Ensures (fun _ => True) (fun _ => True)
      (fun r h' => ∀ f, r = .error f → Harmless h') h)
    (hnext : ∀ r, (next r).response.status < 400) :
    Handled.Careful (read a fun r => .done (.ok (next r))) := by
  refine ⟨fun h hh => (ha h hh).bind fun r h' _ _ hr => ?_⟩
  cases r with
  | ok r => exact ⟨trivial, hnext r⟩
  | error e => exact (careful_error _).ensures _ (hr e rfl)

/-- What a reader of an execution asks leaves the store as it is. -/
theorem ensures_reads {execution : Uuid} {a : Action α} (ha : a.Asks (Call.Reads execution))
    {h : List Event} (hh : Harmless h) :
    a.Ensures (fun _ => True) (fun _ => True) (fun _ h' => Harmless h') h := by
  have hviews : ∀ {c : Call} {r : c.Reply}, c.Reads execution → (Event.called c r).Harmless := by
    intro c r hc
    cases hc <;> exact Or.inl (by simp [Call.Views, Call.method])
  induction a generalizing h with
  | done => exact ⟨trivial, hh⟩
  | overflow => exact ⟨trivial, trivial⟩
  | call c next ih => exact ⟨trivial, fun r => ih r (ha.2 r) (hh.snoc (hviews ha.1))⟩
  | now next ih => exact ⟨trivial, fun t => ih t (ha t) (hh.snoc trivial)⟩
  | join next ih => exact ⟨trivial, fun os _ => ih os (ha os) (hh.snoc trivial)⟩
  | sleep _ _ ih | warn _ _ ih | spawn _ _ _ ih => exact ⟨trivial, ih ha (hh.snoc trivial)⟩

/-- A stop that comes to an error has not written. -/
theorem ensures_stop {h : List Event} (hh : Harmless h) :
    (Tracker.stop id team).Ensures (fun _ => True) (fun _ => True)
      (fun r h' => ∀ f, r = .error f → Harmless h') h := by
  refine (ensures_reads Tracker.asks_ownedExecution hh).bind fun r h' _ _ hh' => ?_
  cases r with
  | error e => exact ⟨trivial, fun _ _ => hh'⟩
  | ok row =>
    refine ⟨trivial, fun r => ?_⟩
    cases r with
    | error e =>
      have hrefused : (Event.called (.updateStatus id .error true) (.error e)).Harmless :=
        Or.inr ⟨by simp [Call.WritesLog, Call.method], e, rfl⟩
      exact ⟨trivial, fun _ _ => hh'.snoc hrefused⟩
    | ok stopped => exact ⟨trivial, by simp⟩

theorem careful_ownedWorkflow {next : WorkflowRow → Handled}
    (hnext : ∀ row, Handled.Careful (next row)) :
    Handled.Careful (ownedWorkflow id team next) := by
  refine careful_view (by simp [Call.Views, Call.method]) fun row => ?_
  split
  · exact hnext row
  · exact careful_error _

theorem careful_compiled {next : Workflow → Program → Handled}
    (hnext : ∀ w program, Handled.Careful (next w program)) :
    Handled.Careful (compiled x id team next) := by
  refine careful_ownedWorkflow fun row => ?_
  cases Workflow.ofRow row with
  | error e => exact careful_error _
  | ok w =>
    dsimp only
    split
    · exact hnext _ _
    · exact careful_error _

theorem careful_createWorkflow (team : Uuid) (new : NewWorkflow) :
    Handled.Careful (createWorkflow team new) := by
  unfold createWorkflow
  dsimp only
  split
  · exact careful_error _
  · split
    · exact careful_error _
    · exact careful_write (by simp [Call.WritesLog, Call.method]) fun _ => by simp [reply]

theorem careful_perform (operation : Operation) : Handled.Careful (perform x team operation) := by
  cases operation with
  | createWorkflow new => exact careful_createWorkflow team new
  | listWorkflows =>
    exact careful_view (by simp [Call.Views, Call.method]) fun _ => careful_reply (by decide) _
  | getWorkflow id => exact careful_ownedWorkflow fun _ => careful_reply (by decide) _
  | deleteWorkflow id =>
    exact careful_ownedWorkflow fun _ =>
      careful_write (by simp [Call.WritesLog, Call.method]) fun _ => by simp [reply]
  | workflowCode id => exact careful_compiled fun _ _ => careful_reply (by decide) _
  | execute id =>
    exact careful_compiled fun _ _ =>
      careful_write (by simp [Call.WritesLog, Call.method]) fun _ => by simp
  | stop id => exact careful_read (fun _ hh => ensures_stop hh) fun _ => by simp [reply]
  | executionLogs id =>
    exact careful_read
      (fun _ hh => (ensures_reads Tracker.asks_executionLogs hh).mono fun _ _ _ _ hh' _ _ => hh')
      fun _ => by simp [reply]
  | nodeStatuses id =>
    exact careful_read
      (fun _ hh => (ensures_reads Tracker.asks_nodeStatuses hh).mono fun _ _ _ _ hh' _ _ => hh')
      fun _ => by simp [reply]

end

/-- The request has been answered with a failure and starts no run. -/
def Refused (rest : Action Answer) : Prop :=
  ∃ answer, rest = .done answer ∧ 400 ≤ answer.response.status ∧ answer.run = none

section

variable {x : Executor} {r : Request} {team id : Uuid} {h₀ h : List Event} {rest : Action Answer}

theorem refused_of_done {answer : Answer} (hs : 400 ≤ answer.response.status)
    (hr : answer.run = none) (p : Action.Path h₀ (.done answer) h rest) :
    h = h₀ ∧ Refused rest := by
  cases p with
  | refl => exact ⟨rfl, answer, rfl, hs, hr⟩

@[simp] theorem status_sent (r : Request) (response : Response) :
    (sent r response).status = response.status := by
  unfold sent
  split <;> rfl

theorem le_status_ofNewWorkflow {response : Response}
    (h : NewWorkflow.ofRequest r = .error response) : 400 ≤ response.status := by
  unfold NewWorkflow.ofRequest at h
  split at h
  · cases h
    decide
  · split at h
    · cases h
      decide
    · split at h
      · cases h
      · cases h
        dsimp only
        split <;> decide

theorem le_status_onRow {segment : String} {operation : Uuid → Operation} {response : Response}
    (h : Operation.onRow segment operation = .error response) : 400 ≤ response.status := by
  unfold Operation.onRow at h
  split at h
  · cases h
  · cases h
    decide

/-- A request that asks for nothing that is served fails. -/
theorem le_status_ofRequest {response : Response} (h : Operation.ofRequest r = .error response) :
    400 ≤ response.status := by
  have hnot : Operation.notAllowed = .error response → 400 ≤ response.status := by
    rintro ⟨⟩
    decide
  unfold Operation.ofRequest at h
  split at h
  · cases h
    decide
  · rename_i route _
    cases route with
    | workflows =>
      simp only [Operation.ofRoute] at h
      split at h
      · cases hnew : NewWorkflow.ofRequest r with
        | ok new => simp [hnew, Except.map] at h
        | error e =>
          rw [hnew] at h
          cases h
          exact le_status_ofNewWorkflow hnew
      · split at h
        · cases h
        · exact hnot h
    | workflow id =>
      simp only [Operation.ofRoute] at h
      split at h
      · exact le_status_onRow h
      · split at h
        · exact le_status_onRow h
        · exact hnot h
    | code id | execute id | stop id | logs id | status id =>
      simp only [Operation.ofRoute] at h
      split at h
      · exact le_status_onRow h
      · exact hnot h

theorem refused_final (f : Failure) (p : Action.Path h₀ (.done (final r (.error f))) h rest) :
    h = h₀ ∧ Refused rest :=
  refused_of_done (by simpa [final, Failure.response] using f.le_status) rfl p

/-- Without a team a request fails before it makes a call. -/
theorem refused_of_no_team (hteam : ∀ team, r.team ≠ .ok team)
    (p : Action.Path [] (serve x r) h rest) : h = [] ∧ Refused rest := by
  unfold serve handle at p
  cases hop : Operation.ofRequest r with
  | error response =>
    have hs := le_status_ofRequest hop
    simp only [hop, Action.bind] at p
    refine refused_of_done ?_ ?_ p
    · split <;> exact hs
    · split <;> rfl
  | ok operation =>
    cases ht : r.team with
    | ok team => exact absurd ht (hteam team)
    | error f =>
      simp only [hop, ht, Action.bind] at p
      refine refused_of_done ?_ ?_ p
      · split <;> exact f.le_status
      · split <;> rfl

/-- A request that is answered with a failure has left the store as it is, and starts no run. -/
theorem harmless_of_failed {answer : Answer} (p : Action.Path [] (serve x r) h (.done answer))
    (hs : 400 ≤ answer.response.status) : answer.run = none ∧ Harmless h := by
  cases hop : Operation.ofRequest r with
  | error response =>
    obtain ⟨refusal, hserve, hrun⟩ := serve_of_error (x := x) hop
    rw [hserve] at p
    cases p with
    | refl => exact ⟨hrun, harmless_nil⟩
  | ok operation =>
    cases ht : r.team with
    | error f =>
      obtain ⟨rfl, refusal, hrest, -, hrun⟩ := refused_of_no_team (by simp [ht]) p
      obtain rfl := Action.done.inj hrest
      exact ⟨hrun, harmless_nil⟩
    | ok team =>
      rw [serve_of hop ht] at p
      have hcareful : ((perform x team operation).bind fun result => .done (final r result)).Ensures
          (fun _ => True) (fun _ => True) (fun answer h' =>
            400 ≤ answer.response.status → answer.run = none ∧ Harmless h') [] := by
        refine ((careful_perform operation).ensures [] harmless_nil).bind fun result h' _ _ hr => ?_
        cases result with
        | error f => exact ⟨trivial, fun _ => ⟨rfl, hr⟩⟩
        | ok answer =>
          refine ⟨trivial, fun hs => ?_⟩
          rw [final, status_sent] at hs
          exact absurd hs (Nat.not_le_of_lt hr)
      exact (p.ensures hcareful).2 hs

/-- Where the graph that has been read is not valid, the execution of a workflow ends there. -/
theorem refused_of_invalid {v : WorkflowRow} {graph : Graph} {violations : List Violation}
    (hg : Graph.ofJson v.definition = .ok graph) (hc : x.compile graph = .error violations)
    (p : Action.Path [] ((perform x team (.execute id)).bind fun result => .done (final r result))
      h rest)
    (hread : .called (.getWorkflow id) (.ok v) ∈ h) :
    h = [.called (.getWorkflow id) (.ok v)] ∧ Refused rest := by
  change Action.Path [] (.call (.getWorkflow id) _) h rest at p
  cases p with
  | refl => simp at hread
  | call reply p =>
    rcases reply with e | v'
    · obtain ⟨rfl, -⟩ := refused_final _ p
      simp at hread
    · dsimp only at p
      split at p
      · cases hw : Workflow.ofRow v' with
        | error e =>
          simp only [hw] at p
          obtain ⟨rfl, -⟩ := refused_final _ p
          obtain rfl : v = v' := by simpa using hread
          simp [Workflow.ofRow, hg, Except.map] at hw
        | ok w =>
          simp only [hw] at p
          obtain ⟨graph', hg', rfl⟩ := Workflow.of_ofRow hw
          cases hc' : x.compile graph' with
          | error violations' =>
            simp only [hc'] at p
            obtain ⟨rfl, hrefused⟩ := refused_final _ p
            obtain rfl : v = v' := by simpa using hread
            exact ⟨rfl, hrefused⟩
          | ok program =>
            simp only [hc'] at p
            have hsame : v = v' := by
              cases p with
              | refl => simpa using hread
              | call reply p =>
                rcases reply with e | row <;> cases p <;> simpa using hread
            obtain rfl := hsame
            obtain rfl : graph = graph' := Except.ok.inj (hg.symm.trans hg')
            simp [hc] at hc'
      · obtain ⟨rfl, hrefused⟩ := refused_final _ p
        obtain rfl : v = v' := by simpa using hread
        exact ⟨rfl, hrefused⟩

end

/-- What holds of a request of which so much is left to do, when the store has come from one state
to another along a trace. -/
structure Spares (S : Setting) (x : Executor) (r : Request) (first s : MemoryStore)
    (l : List Entry) (rest : Action Answer) : Prop where
  /-- A failure leaves the store as the others leave it. -/
  failed : ∀ answer, rest = .done answer → 400 ≤ answer.response.status →
    answer.run = none ∧ S.Runs first (byOthers l) s
  /-- For a graph that is not valid no execution is created, and the request fails. -/
  invalid : ∀ id v graph violations, Operation.ofRequest r = .ok (.execute id) →
    .called (.getWorkflow id) (.ok v) ∈ own l → Graph.ofJson v.definition = .ok graph →
    x.compile graph = .error violations →
    (∀ w reply, .called (.createExecution w) reply ∉ own l) ∧
      S.Runs first (byOthers l) s ∧ Refused rest
  /-- Without a team nothing is asked of the store, and the request fails. -/
  anonymous : (∀ team, r.team ≠ .ok team) →
    own l = [] ∧ S.Runs first (byOthers l) s ∧ Refused rest

/-- Requests that fail change nothing, whoever else uses the store and whichever calls fail. -/
theorem refusals_spare {S : Setting} {x : Executor} {r : Request} {first s : MemoryStore}
    {l : List Entry} {rest : Action Answer} (hr : S.Runs first l s)
    (p : Action.Path [] (serve x r) (own l) rest) : Spares S x r first s l rest where
  failed := by
    rintro answer rfl hs
    obtain ⟨hrun, hharmless⟩ := harmless_of_failed p hs
    exact ⟨hrun, hr.of_harmless hharmless⟩
  invalid := by
    intro id v graph violations hop hread hg hc
    cases ht : r.team with
    | error f =>
      obtain ⟨hnone, -⟩ := refused_of_no_team (by simp [ht]) p
      simp [hnone] at hread
    | ok team =>
      rw [serve_of hop ht] at p
      obtain ⟨hown, hrefused⟩ := refused_of_invalid hg hc p hread
      refine ⟨by simp [hown], hr.of_harmless ?_, hrefused⟩
      intro e he
      obtain rfl := List.mem_singleton.1 (hown ▸ he)
      exact Or.inl (by simp [Call.Views, Call.method])
  anonymous := by
    intro hteam
    obtain ⟨hnone, hrefused⟩ := refused_of_no_team hteam p
    exact ⟨hnone, hr.of_harmless (by simp [hnone]), hrefused⟩

/-- Alone with the store, a request that fails leaves it as it was. -/
theorem unchanged_of_failed {x : Executor} {r : Request} {fails : Prop} {first s : MemoryStore}
    {h : List Event} {answer : Answer} (hr : (Setting.alone fails).Runs first (h.map .own) s)
    (p : Action.Path [] (serve x r) h (.done answer)) (hs : 400 ≤ answer.response.status) :
    s = first := by
  have hharmless : ∀ e ∈ own (h.map .own), e.Harmless := by
    rw [own_map]
    exact (harmless_of_failed p hs).2
  have hothers := hr.of_harmless hharmless
  rw [byOthers_map_own] at hothers
  exact Setting.runs_nil_iff.1 hothers

section

/-- A workflow of the team with the nil identifier. -/
def heldRow (graph : Graph) : WorkflowRow := ⟨.ofNat 1, .nil, "held", graph.toJson, ⟨0, 0⟩⟩

/-- It stands in the store with an execution of it. -/
def held (graph : Graph) (status : RunStatus) (finishedAt : Option Instant) : MemoryStore where
  tables := ⟨[heldRow graph],
    [⟨.ofNat 2, .ofNat 1, status, ⟨0, 0⟩, finishedAt⟩], []⟩
  logWritesFail := false
  rejectedLogWrites := 0

/-- What happens when a request has read the workflow: its run comes to an end. -/
def afterRead (graph : Graph) : List Entry :=
  [.own (.called (.getWorkflow (.ofNat 1)) (.ok (heldRow graph))),
    .other (.updateStatus (.ofNat 2) .success true) (.ok true)]

theorem runs_afterRead (graph : Graph) :
    Setting.anyone.Runs (held graph .running none) (afterRead graph)
      (held graph .success (some (.ofMicros 0))) := by
  have hanswers : ∀ s c, Setting.anyone.Answers s c (s.answer ⟨0, 0⟩ c).1 (s.answer ⟨0, 0⟩ c).2.1 :=
    fun s c => .served trivial rfl
  have hread : Setting.anyone.Runs (held graph .running none) ((afterRead graph).take 1)
      (held graph .running none) :=
    .snoc .nil (.own (hanswers _ _))
  exact hread.snoc (.other trivial (hanswers _ _))

/-- Its only step is of a type that nobody knows. -/
def unknownStep : Graph := ⟨[⟨"only", "unknown", none, []⟩], []⟩

theorem unknownStep_refused :
    Executor.failing.compile unknownStep = .error [.unknownStepType "only" "unknown"] := by
  cbv

/-- Neither a deletion that the store refuses nor the execution of a graph that is not valid does
more than the run that ends meanwhile. -/
theorem held_spared :
    (∃ l s answer, Setting.anyone.Runs (held Workflow.lone.graph .running none) l s ∧
      Action.Path [] (serve .failing (about "DELETE" "")) (own l) (.done answer) ∧
      answer.response.status = 500 ∧ s ≠ held Workflow.lone.graph .running none ∧
      Setting.anyone.Runs (held Workflow.lone.graph .running none) (byOthers l) s) ∧
    ∃ l s answer, Setting.anyone.Runs (held unknownStep .running none) l s ∧
      Action.Path [] (serve .failing (about "POST" "/execute")) (own l) (.done answer) ∧
      answer.response.status = 422 ∧ s ≠ held unknownStep .running none ∧
      (∀ w reply, .called (.createExecution w) reply ∉ own l) ∧
      Setting.anyone.Runs (held unknownStep .running none) (byOthers l) s := by
  have hchanged : ∀ graph,
      held graph .success (some (.ofMicros 0)) ≠ held graph .running none := by
    simp [held]
  constructor
  · let e : StoreError := .unavailable "no connection"
    let refusal : Entry := .own (.called (.deleteWorkflow (.ofNat 1)) (.error e))
    have hr : Setting.anyone.Runs _ (afterRead Workflow.lone.graph ++ [refusal]) _ :=
      (runs_afterRead Workflow.lone.graph).snoc (.own (.refused trivial))
    have p : Action.Path [] (serve .failing (about "DELETE" ""))
        (own (afterRead Workflow.lone.graph ++ [refusal]))
        (.done (final (about "DELETE" "") (.error (.ofStore e)))) := by
      rw [serve_of ofRequest_delete (team_about _ _)]
      exact .call (.ok (heldRow Workflow.lone.graph)) (.call (.error e) .refl)
    exact ⟨_, _, _, hr, p, rfl, hchanged _, ((refusals_spare hr p).failed _ rfl (by decide)).2⟩
  · have hr := runs_afterRead unknownStep
    have hgraph : Graph.ofJson unknownStep.toJson = .ok unknownStep :=
      ok_of_toOption (by decide +kernel)
    have p : Action.Path [] (serve .failing (about "POST" "/execute"))
        (own (afterRead unknownStep)) (.done (final (about "POST" "/execute")
          (.error (.invalid [.unknownStepType "only" "unknown"])))) := by
      rw [serve_of ofRequest_execute (team_about _ _)]
      refine .call (.ok (heldRow unknownStep)) ?_
      simp only [heldRow, if_pos, Workflow.ofRow, hgraph, Except.map, unknownStep_refused]
      exact .refl
    obtain ⟨hcreated, hothers, -⟩ := (refusals_spare hr p).invalid (.ofNat 1) _ unknownStep _
      ofRequest_execute (List.mem_singleton_self _) hgraph unknownStep_refused
    exact ⟨_, _, _, hr, p, rfl, hchanged _, hcreated, hothers⟩

end

end Api

end Flowgraph
