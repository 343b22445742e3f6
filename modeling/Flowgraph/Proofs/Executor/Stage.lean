import Flowgraph.Proofs.Executor.Dispatch

/-! One stage of a run. When the nodes that were started have ended, their results stand behind
the earlier ones, and the statuses, outputs and logs of the run agree with them. -/

namespace Flowgraph

/-- The result of every node is in its log, unless writing it there was given up. -/
def Logged (config : TrackerConfig) (execution : Uuid) (h : List Event) (R : Results) : Prop :=
  ∀ id r, (id, r) ∈ R → Recorded execution h id r ∨ Unrecorded config execution h id r

theorem Logged.grows {config : TrackerConfig} {execution : Uuid} {h h' : List Event}
    (hp : h <+: h') {R : Results} (hl : Logged config execution h R) :
    Logged config execution h' R :=
  fun id r hr => (hl id r hr).imp (·.grows hp) (·.grows hp)

/-- What the attempts have come to. -/
def attemptResults (l : List (Attempt × Outcome)) : Results :=
  l.map fun p => (p.1.node.id, p.2.result)

theorem Course.record_eq {c : Course} {id : String} {r : StepResult} {run : RunState}
    (h : c.run.finish id r.isSuccess = .ok run) :
    c.record id r = .done ⟨run, Results.enter c.outputs (id, r)⟩ := by
  cases r with
  | success data => simp only [record, keep, h]; rfl
  | failure e => simp only [record, keep, h]; rfl

theorem isInner_of_isEndLog {execution : Uuid} {h : List Event} {id : String} {r : StepResult}
    {e : Event} (he : IsEndLog execution h id r e) : e.IsInner := by
  cases e with
  | called c r =>
    cases c with
    | completeLog target c => exact ⟨by simp [Event.IsQuiet, Call.method], trivial⟩
    | _ => exact he.elim
  | told | slept => exact ⟨trivial, trivial⟩
  | warned | started | joined => exact he.elim

theorem Adds.inner_quiet {h h' : List Event} (ha : Adds Event.IsInner h h') :
    Adds Event.IsQuiet h h' :=
  ha.mono fun _ he => he.1

namespace Executor

open Flowgraph.Action

variable {x : Executor} {ids : RunIds} {program : Program} {h : List Event}

theorem Orderly.adds_endLog (ho : x.Orderly ids program h) {id : String} {r : StepResult}
    (hr : (id, r) ∈ (tally h).results) {h' : List Event}
    (ha : Adds (IsEndLog ids.execution h id r) h h') : x.Orderly ids program h' := by
  refine ho.adds (fun h₁ h1 e he => ?_) ha
  cases e with
  | called c reply =>
    cases c with
    | completeLog target c =>
      obtain ⟨ht, t, rfl⟩ := he
      have htally := (h1.mono fun _ => isInner_of_isEndLog).inner_quiet.tally_eq
      exact ⟨id, r, t, htally ▸ hr, rfl, ht.grows h1.grows⟩
    | _ => exact he.elim
  | told | slept => trivial
  | warned | started | joined => exact he.elim

/-- The results are taken in one after the other. Those still to come are shown as running. -/
theorem ensures_collect {l : List (Attempt × Outcome)} {c : Course} {R : Results}
    (ho : x.Orderly ids program h) (hR : (tally h).results = R ++ attemptResults l)
    (hs : c.run.Shows program.nodeIds R (attemptResults l).ids) (hout : c.outputs = R.outputs)
    (hl : ∀ p ∈ l, p.1.node.id ∈ program.nodeIds ∧ p.1.log.Of ids.execution h p.1.node.id)
    (hlog : Logged x.config ids.execution h R) :
    (x.collect ids l c).Ensures (x.Orderly ids program) (Exhausted x.config)
      (fun c' h' => Adds Event.IsInner h h' ∧
        c'.run.Shows program.nodeIds (tally h').results [] ∧
        c'.outputs = (tally h').results.outputs ∧
        Logged x.config ids.execution h' (tally h').results) h := by
  induction l generalizing c R h with
  | nil =>
    rw [attemptResults, List.map_nil, List.append_nil] at hR
    subst hR
    exact ⟨ho, .refl _ _, hs, hout, hlog⟩
  | cons p rest ih =>
    obtain ⟨a, outcome⟩ := p
    have hnodup := ho.nodup_ids
    rw [hR, attemptResults, List.map_cons, Results.ids_append, List.nodup_append] at hnodup
    obtain ⟨-, hrest, hdisjoint⟩ := hnodup
    have hfree : a.node.id ∉ R.ids := fun hm => hdisjoint _ hm a.node.id (by simp [Results.ids]) rfl
    have hnew : a.node.id ∉ (attemptResults rest).ids := (List.nodup_cons.1 hrest).1
    obtain ⟨hmem, hrow⟩ := hl (a, outcome) List.mem_cons_self
    obtain ⟨run', hfinish, hs'⟩ := hs.finish hmem hnew hfree outcome.result
    have hr : (a.node.id, outcome.result) ∈ (tally h).results := by simp [hR, attemptResults]
    rw [collect, Course.record_eq hfinish, done_bind]
    refine Ensures.bind (Tracker.ensures_logComplete hrow fun h' ha => ho.adds_endLog hr ha) ?_
    rintro _ h₁ hp₁ ho₁ ⟨ha, hrec⟩
    have hinner := ha.mono fun _ => isInner_of_isEndLog
    refine (ih ho₁ (R := R ++ [(a.node.id, outcome.result)]) ?_ hs' ?_ ?_ ?_).mono ?_
    · rw [hinner.inner_quiet.tally_eq, hR]
      simp [attemptResults]
    · rw [Results.outputs_concat, ← hout]
    · intro p hp
      obtain ⟨hp, ho⟩ := hl p (List.mem_cons_of_mem _ hp)
      exact ⟨hp, ho.grows hp₁⟩
    · intro id r hmem
      rcases List.mem_append.1 hmem with hmem | hmem
      · exact hlog.grows hp₁ id r hmem
      · obtain ⟨rfl, rfl⟩ := Prod.mk.inj (List.mem_singleton.1 hmem)
        exact hrec
    · rintro c' h₂ - - ⟨hadds, hrest⟩
      exact ⟨hinner.trans hadds, hrest⟩

theorem Orderly.adds_refresh (ho : x.Orderly ids program h)
    {listed : Except StoreError (List LogRow)} {s : RunStatus} {finished : Bool}
    (hs : finished = false → s = .running) {h' : List Event}
    (ha : Adds (IsTry (.updateStatus ids.execution s finished))
      (h ++ [Event.called (.listLogs ids.execution) listed]) h') : x.Orderly ids program h' := by
  have hlisted : x.Orderly ids program (h ++ [Event.called (.listLogs ids.execution) listed]) :=
    ho.snoc rfl
  refine hlisted.adds (fun h₁ h1 e he => ?_) ha
  cases e with
  | called c r => obtain rfl : c = _ := he; exact ⟨rfl, hs⟩
  | slept => trivial
  | told | warned | started | joined => exact he.elim

theorem isQuiet_of_isTry {s : RunStatus} {finished : Bool} {e : Event}
    (he : IsTry (.updateStatus ids.execution s finished) e) : e.IsQuiet := by
  cases e with
  | called c r => obtain rfl : c = _ := he; simp [Event.IsQuiet, Call.method]
  | slept => trivial
  | told | warned | started | joined => exact he.elim

/-- Until the run has finished, writing its status changes nothing about it. -/
theorem ensures_refresh (ho : x.Orderly ids program h) (run : RunState) :
    (Tracker.refreshStatus x.config ids.execution run false).Ensures (x.Orderly ids program)
      (Exhausted x.config) (fun _ h' => Adds Event.IsInner h h') h := by
  refine (Tracker.ensures_refreshStatus false ho fun _ h' => ho.adds_refresh fun _ => rfl).mono ?_
  rintro _ h' - - ⟨listed, -, ha⟩
  have hlist : Event.IsInner (.called (.listLogs ids.execution) listed) :=
    ⟨by simp [Event.IsQuiet, Call.method], trivial⟩
  refine (Adds.one hlist).trans (ha.mono fun e he => ?_)
  refine ⟨isQuiet_of_isTry he, ?_⟩
  cases e with
  | called c r => obtain rfl : c = _ := he; rfl
  | slept => trivial
  | told | warned | started | joined => exact he.elim

variable (x ids program) in
/-- How a run stands between two stages, when these nodes have had their turn. -/
structure Boundary (done : List CompiledNode) (c : Course) (h : List Event) : Prop where
  shows : c.run.Shows program.nodeIds (tally h).results []
  outputs : c.outputs = (tally h).results.outputs
  idle : (tally h).running = []
  started : (starts h).map (·.node) =
    (done.filter fun n => n.Ready (tally h).results).map (·.id)
  fits : FitsAll h
  logged : Logged x.config ids.execution h (tally h).results

variable (program) in
/-- A stage that follows after nodes. None of all these depends on one of the stage. -/
structure Follows (done stage : List CompiledNode) : Prop where
  mem : ∀ n ∈ stage, n ∈ program.nodes
  nodup : (stage.map (·.id)).Nodup
  new : ∀ n ∈ stage, n.id ∉ done.map (·.id)
  apart : ∀ n ∈ done ++ stage, ∀ d ∈ n.dependencies,
    d ∈ program.nodeIds ∧ d ∉ stage.map (·.id)

theorem Boundary.of_eq {done : List CompiledNode} {c : Course}
    (hb : x.Boundary ids program done c h) {h' : List Event} (hp : h <+: h')
    (ht : tally h' = tally h) (hs : starts h' = starts h) (hf : FitsAll h') :
    x.Boundary ids program done c h' := by
  obtain ⟨hshows, hout, hidle, hstarted, -, hlogged⟩ := hb
  rw [← ht] at hshows hout hidle hstarted hlogged
  rw [← hs] at hstarted
  exact ⟨hshows, hout, hidle, hstarted, hf, hlogged.grows hp⟩

theorem Boundary.adds {done : List CompiledNode} {c : Course} (hb : x.Boundary ids program done c h)
    {h' : List Event} (ha : Adds Event.IsInner h h') : x.Boundary ids program done c h' :=
  hb.of_eq ha.grows ha.inner_quiet.tally_eq ha.inner_quiet.starts_eq (hb.fits.adds ha)

theorem Boundary.waiting {done stage : List CompiledNode} {c : Course}
    (hb : x.Boundary ids program done c h) (hf : Follows program done stage) :
    Waiting program h stage := by
  refine ⟨hf.mem, hf.nodup, fun n hn hs => ?_, fun n hn d hd => ?_⟩
  · rw [hb.started, List.mem_map] at hs
    obtain ⟨m, hm, hid⟩ := hs
    exact hf.new n hn (hid ▸ List.mem_map_of_mem (List.mem_of_mem_filter hm))
  · obtain ⟨hd, hs⟩ := hf.apart n (List.mem_append_right _ hn) d hd
    exact ⟨hd, by simp [busy, hb.idle], hs⟩

/-- The nodes that were ready before the stage are those that are ready after it. -/
theorem Follows.filter_ready {done stage : List CompiledNode} (hf : Follows program done stage)
    {R S : Results} (hS : S.ids ⊆ stage.map (·.id)) {nodes : List CompiledNode}
    (hn : nodes ⊆ done ++ stage) :
    (nodes.filter fun n => n.Ready (R ++ S)) = nodes.filter fun n => n.Ready R := by
  refine List.filter_congr fun n hmem => ?_
  have hready : n.Ready (R ++ S) ↔ n.Ready R :=
    n.ready_append_iff fun d hd hd' => (hf.apart n (hn hmem) d hd).2 (hS hd')
  simp [hready]

theorem attemptResults_zip {h : List Event} {attempts : List Attempt} {os : List Outcome}
    (hb : busy h = attempts.map (·.node.id)) :
    (tally h).running.zipWith (fun s o => (s.1.node, o.result)) os =
      attemptResults (attempts.zip os) := by
  have hl : (tally h).running.zipWith (fun s o => (s.1.node, o.result)) os =
      (busy h).zipWith (fun id o => (id, o.result)) os := by
    rw [busy, List.zipWith_map_left]
  rw [hl, hb, List.zipWith_map_left, attemptResults, List.zip, List.map_zipWith]

section

variable {R : Results} {stage : List CompiledNode} {run : RunState} {attempts : List Attempt}
  {h₁ : List Event} {os : List Outcome}

theorem Dispatched.results_joined (hd : Dispatched ids program R h stage (run, attempts) h₁)
    (hidle : Flowgraph.busy h = []) :
    (tally (h₁ ++ [Event.joined os])).results = R ++ attemptResults (attempts.zip os) := by
  have hids : Flowgraph.busy h₁ = attempts.map (·.node.id) := by
    rw [hd.busy, hidle, List.nil_append, ← hd.nodes, List.map_map]
    rfl
  rw [tally_joined, attemptResults_zip hids, hd.results]

/-- The results that join are those of the nodes that were started. -/
theorem Dispatched.ids_joined (hd : Dispatched ids program R h stage (run, attempts) h₁)
    (hidle : Flowgraph.busy h = []) (ho₁ : x.Orderly ids program h₁)
    (ho₂ : x.Orderly ids program (h₁ ++ [Event.joined os])) :
    (attemptResults (attempts.zip os)).ids = Flowgraph.busy h₁ := by
  have hbefore := ho₁.ids_eq
  have hafter := ho₂.ids_eq
  rw [hd.results_joined hidle, starts_append, starts_joined, List.append_nil, hbefore,
    hd.results] at hafter
  simpa [Flowgraph.busy] using hafter.symm

theorem Dispatched.handles_joined (hd : Dispatched ids program R h stage (run, attempts) h₁)
    (hmem : ∀ n ∈ stage, n ∈ program.nodes) :
    ∀ p ∈ attempts.zip os, p.1.node.id ∈ program.nodeIds ∧
      p.1.log.Of ids.execution (h₁ ++ [Event.joined os]) p.1.node.id := by
  rintro ⟨a, o⟩ hp
  have ha := (List.of_mem_zip hp).1
  have hnode : a.node ∈ stage.filter fun n => n.Ready R := hd.nodes ▸ List.mem_map_of_mem ha
  exact ⟨List.mem_map_of_mem (hmem _ (List.mem_of_mem_filter hnode)),
    (hd.handles a ha).grows (List.prefix_append _ _)⟩

theorem FitsAll.joined (hf : FitsAll h₁) : FitsAll (h₁ ++ [Event.joined os]) := by
  intro e he
  rw [starts_append, starts_joined, List.append_nil]
  rcases List.mem_append.1 he with he | he
  · exact hf e he
  · obtain rfl := List.mem_singleton.1 he
    trivial

/-- After a stage the nodes that were started are those that are ready. -/
theorem Boundary.started_joined {done : List CompiledNode} {c : Course}
    (hb : x.Boundary ids program done c h) (ho : x.Orderly ids program h)
    (hf : Follows program done stage)
    (hd : Dispatched ids program (tally h).results h stage (run, attempts) h₁)
    (ho₁ : x.Orderly ids program h₁) (ho₂ : x.Orderly ids program (h₁ ++ [Event.joined os])) :
    (starts (h₁ ++ [Event.joined os])).map (·.node) = ((done ++ stage).filter fun n =>
      n.Ready (tally (h₁ ++ [Event.joined os])).results).map (·.id) := by
  have hidle : busy h = [] := by rw [busy, hb.idle]; rfl
  have hbefore := ho.ids_eq
  rw [hb.started, hb.idle, List.map_nil, List.append_nil] at hbefore
  have hS : (attemptResults (attempts.zip os)).ids =
      (stage.filter fun n => n.Ready (tally h).results).map (·.id) := by
    rw [hd.ids_joined hidle ho₁ ho₂, hd.busy, hidle, List.nil_append]
  have hsub : (attemptResults (attempts.zip os)).ids ⊆ stage.map (·.id) := by
    rw [hS]
    exact List.map_subset _ (List.filter_subset_self _)
  rw [ho₂.ids_eq, hd.results_joined hidle, hf.filter_ready hsub (List.Subset.refl _),
    List.filter_append, List.map_append, hbefore, ← hS]
  simp

end

/-- A stage leads from one boundary to the next. -/
theorem ensures_runStage {done stage : List CompiledNode} {c : Course}
    (ho : x.Orderly ids program h) (hb : x.Boundary ids program done c h)
    (hu : Unstopped ids.execution h) (hf : Follows program done stage) :
    (x.runStage ids stage c).Ensures (x.Orderly ids program) (Exhausted x.config)
      (fun c' h' => x.Boundary ids program (done ++ stage) c' h' ∧ Unstopped ids.execution h')
      h := by
  have hidle : busy h = [] := by rw [busy, hb.idle]; rfl
  have hshows : c.run.Shows program.nodeIds (tally h).results (busy h) := hidle ▸ hb.shows
  rw [runStage, hb.outputs]
  refine Ensures.bind (ensures_dispatch ho hu hb.fits rfl (hb.waiting hf) hshows) ?_
  rintro ⟨run, attempts⟩ h₁ hp₁ ho₁ hd
  refine Ensures.bind (ensures_outcomes ho₁ fun os hos => ho₁.snoc hos) ?_
  rintro os h₂ hp₂ ho₂ ⟨-, rfl⟩
  refine Ensures.bind (ensures_collect ho₂ (hd.results_joined hidle)
    (hd.ids_joined hidle ho₁ ho₂ ▸ hd.shows) rfl (hd.handles_joined hf.mem)
    (hb.logged.grows (hp₁.trans hp₂))) ?_
  rintro c' h₃ - ho₃ ⟨ha₃, hshows, hout, hlogged⟩
  have ht₃ := ha₃.inner_quiet.tally_eq
  have hboundary : x.Boundary ids program (done ++ stage) c' h₃ := by
    refine ⟨hshows, hout, by rw [ht₃, tally_joined], ?_, (FitsAll.joined hd.fits).adds ha₃, hlogged⟩
    rw [ha₃.inner_quiet.starts_eq, ht₃]
    exact hb.started_joined ho hf hd ho₁ ho₂
  refine Ensures.bind (ensures_refresh ho₃ c'.run) ?_
  rintro _ h₄ - ho₄ ha₄
  refine ⟨ho₄, hboundary.adds ha₄, ha₄.inner_quiet.unstopped (ha₃.inner_quiet.unstopped ?_)⟩
  intro row hr
  exact hd.unstopped row (by simpa using hr)

end Executor

end Flowgraph
