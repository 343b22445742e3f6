import Flowgraph.Proofs.Executor.Protocol
import Flowgraph.Proofs.Run.Statuses

/-! Starting the nodes of a stage. A node is started exactly if all that it depends on has
succeeded, and the others of the stage have no say in that. -/

namespace Flowgraph

/-- The steps that are waited for. -/
def busy (h : List Event) : List String := (tally h).running.map (·.1.node)

/-- Logs are written for nodes that are started, and the run is not marked as finished. -/
def Event.Fits (nodes : List String) : Event → Prop
  | .called (.insertLog entry) _ => entry.nodeId ∈ nodes
  | .called (.updateStatus _ _ finished) _ => finished = false
  | _ => True

theorem Event.Fits.mono {nodes nodes' : List String} (hs : nodes ⊆ nodes') {e : Event}
    (he : e.Fits nodes) : e.Fits nodes' := by
  cases e with
  | called c r =>
    cases c with
    | insertLog entry => exact hs he
    | updateStatus => exact he
    | _ => trivial
  | _ => trivial

def FitsAll (h : List Event) : Prop := ∀ e ∈ h, e.Fits ((starts h).map (·.node))

/-- An event that changes nothing about which nodes run. -/
def Event.IsInner (e : Event) : Prop := e.IsQuiet ∧ e.Fits []

theorem FitsAll.adds {h h' : List Event} (hf : FitsAll h) (ha : Adds Event.IsInner h h') :
    FitsAll h' := by
  have hs := (ha.mono fun _ he => he.1).starts_eq
  intro e he
  rw [hs]
  rcases ha.mem he with he | he
  · exact hf e he
  · exact he.2.mono (List.nil_subset _)

/-- The row that the handle names was written for the node. -/
def LogHandle.Of (execution : Uuid) (h : List Event) (id : String) (handle : LogHandle) : Prop :=
  ∀ row, handle.row = some row → Targets execution h id (.row row)

theorem LogHandle.Of.grows {execution : Uuid} {h h' : List Event} (hp : h <+: h') {id : String}
    {handle : LogHandle} (ho : handle.Of execution h id) : handle.Of execution h' id :=
  fun row hr => (ho row hr).grows hp

namespace Executor

open Flowgraph.Action

variable {x : Executor} {ids : RunIds} {program : Program}

section

variable {h : List Event}

theorem isQuiet_of_isStartLog {n : CompiledNode} {input : Json} {e : Event}
    (he : IsStartLog n ids.execution input e) : e.IsQuiet := by
  cases e with
  | called c r =>
    cases c with
    | insertLog entry => simp [Event.IsQuiet, Call.method]
    | _ => exact he.elim
  | told | slept => trivial
  | warned | started | joined => exact he.elim

theorem fits_of_isStartLog {n : CompiledNode} {input : Json} {e : Event}
    (he : IsStartLog n ids.execution input e) : e.Fits [n.id] := by
  cases e with
  | called c r =>
    cases c with
    | insertLog entry => obtain ⟨t, rfl⟩ := he; simp [Event.Fits, CompiledNode.logEntry]
    | _ => exact he.elim
  | told | slept => trivial
  | warned | started | joined => exact he.elim

/-- A node that is ready and new may be logged, however often it takes. -/
theorem Orderly.adds_startLog {n : CompiledNode} (ho : x.Orderly ids program h)
    (hn : n ∈ program.nodes) (hr : n.Ready (tally h).results)
    (hnew : n.id ∉ (starts h).map (·.node)) {h' : List Event}
    (ha : Adds (IsStartLog n ids.execution (.object (n.resolveInput (tally h).results.outputs)))
      h h') : x.Orderly ids program h' := by
  refine ho.adds (fun h₁ h1 e he => ?_) ha
  have hquiet : Adds Event.IsQuiet h h₁ := h1.mono fun _ => isQuiet_of_isStartLog
  cases e with
  | called c r =>
    cases c with
    | insertLog entry =>
      rw [Allowed, hquiet.tally_eq, hquiet.starts_eq]
      exact ⟨n, hn, hr, hnew, he⟩
    | _ => exact he.elim
  | told | slept => trivial
  | warned | started | joined => exact he.elim

variable (ids) in
/-- What has changed once one more node has been started. -/
structure Attempted (h : List Event) (n : CompiledNode) (a : Attempt) (h' : List Event) : Prop where
  node : a.node = n
  handle : a.log.Of ids.execution h' n.id
  results : (tally h').results = (tally h).results
  busy : busy h' = Flowgraph.busy h ++ [n.id]
  starts : (starts h').map (·.node) = (Flowgraph.starts h).map (·.node) ++ [n.id]
  unstopped : Unstopped ids.execution h'
  fits : FitsAll h'

/-- A node that is ready and new is logged and started. -/
theorem ensures_attempt {n : CompiledNode} (ho : x.Orderly ids program h)
    (hu : Unstopped ids.execution h) (hf : FitsAll h) (hn : n ∈ program.nodes)
    (hr : n.Ready (tally h).results) (hnew : n.id ∉ (starts h).map (·.node)) :
    (x.attempt ids n (tally h).results.outputs).Ensures (x.Orderly ids program)
      (Exhausted x.config) (Attempted ids h n) h := by
  let input := n.resolveInput (tally h).results.outputs
  refine Ensures.bind (Tracker.ensures_logStart fun h' => ho.adds_startLog hn hr hnew) ?_
  rintro handle h₁ - ho₁ ⟨ha, hrow⟩
  have hquiet : Adds Event.IsQuiet h h₁ := ha.mono fun _ => isQuiet_of_isStartLog
  have ht₁ := hquiet.tally_eq
  have hs₁ := hquiet.starts_eq
  have hu₁ := hquiet.unstopped hu
  have hstart : x.Orderly ids program
      (h₁ ++ [.started (n.invocation (tally h).results.outputs) (x.work ids n input)]) := by
    refine ho₁.snoc ⟨n, ?_, ?_, hu₁⟩
    · rw [ht₁]
      exact ⟨hn, hr, rfl, rfl⟩
    · rwa [hs₁]
  refine Ensures.bind (ensures_start ho₁ hstart) ?_
  rintro _ _ hp ho₂ rfl
  refine ⟨ho₂, rfl, LogHandle.Of.grows hp hrow, ?_, ?_, ?_, ?_, ?_⟩
  · rw [tally_started, ht₁]
  · simp [busy, ht₁]
  · simp [hs₁]
  · intro row hr
    exact hu₁ row (by simpa using hr)
  · intro e he
    rw [starts_append, hs₁, starts_started, List.map_append]
    rcases List.mem_append.1 he with he | he
    · rcases ha.mem he with he | he
      · exact (hf e he).mono (List.subset_append_left _ _)
      · exact (fits_of_isStartLog he).mono (List.subset_append_right _ _)
    · obtain rfl := List.mem_singleton.1 he
      trivial

variable (program) in
/-- Nodes of a stage that have not been looked at. None depends on another one of the stage. -/
structure Waiting (h : List Event) (nodes : List CompiledNode) : Prop where
  mem : ∀ n ∈ nodes, n ∈ program.nodes
  nodup : (nodes.map (·.id)).Nodup
  new : ∀ n ∈ nodes, n.id ∉ (starts h).map (·.node)
  apart : ∀ n ∈ nodes, ∀ d ∈ n.dependencies,
    d ∈ program.nodeIds ∧ d ∉ busy h ∧ d ∉ nodes.map (·.id)

theorem Waiting.skip {n : CompiledNode} {rest : List CompiledNode}
    (hw : Waiting program h (n :: rest)) : Waiting program h rest := by
  refine ⟨fun m hm => hw.mem m (List.mem_cons_of_mem _ hm), (List.nodup_cons.1 hw.nodup).2,
    fun m hm => hw.new m (List.mem_cons_of_mem _ hm), fun m hm d hd => ?_⟩
  obtain ⟨hd, hb, hr⟩ := hw.apart m (List.mem_cons_of_mem _ hm) d hd
  exact ⟨hd, hb, fun hmem => hr (List.mem_cons_of_mem _ hmem)⟩

theorem Waiting.start {n : CompiledNode} {rest : List CompiledNode} {a : Attempt}
    {h' : List Event} (hw : Waiting program h (n :: rest)) (ha : Attempted ids h n a h') :
    Waiting program h' rest := by
  refine ⟨hw.skip.mem, hw.skip.nodup, fun m hm => ?_, fun m hm d hd => ?_⟩
  · rw [ha.starts, List.mem_append, List.mem_singleton]
    rintro (hs | hid)
    · exact hw.skip.new m hm hs
    · exact (List.nodup_cons.1 hw.nodup).1 (List.mem_map.2 ⟨m, hm, hid⟩)
  · obtain ⟨hd, hb, hr⟩ := hw.apart m (List.mem_cons_of_mem _ hm) d hd
    rw [List.map_cons, List.mem_cons, not_or] at hr
    exact ⟨hd, by simp [ha.busy, hb, hr.1], hr.2⟩

variable (ids program) in
/-- What has changed once the nodes that are ready have been started. -/
structure Dispatched (R : Results) (h : List Event) (stage : List CompiledNode)
    (out : RunState × List Attempt) (h' : List Event) : Prop where
  nodes : out.2.map (·.node) = stage.filter fun n => n.Ready R
  handles : ∀ a ∈ out.2, a.log.Of ids.execution h' a.node.id
  results : (tally h').results = R
  busy : busy h' = Flowgraph.busy h ++ (stage.filter fun n => n.Ready R).map (·.id)
  shows : out.1.Shows program.nodeIds R (Flowgraph.busy h')
  unstopped : Unstopped ids.execution h'
  fits : FitsAll h'

theorem ensures_dispatch {R : Results} {nodes : List CompiledNode} {run : RunState}
    (ho : x.Orderly ids program h) (hu : Unstopped ids.execution h) (hf : FitsAll h)
    (hR : (tally h).results = R) (hw : Waiting program h nodes)
    (hs : run.Shows program.nodeIds R (busy h)) :
    (x.dispatch ids R.outputs nodes run).Ensures (x.Orderly ids program) (Exhausted x.config)
      (Dispatched ids program R h nodes) h := by
  induction nodes generalizing run h with
  | nil => exact ⟨ho, rfl, by simp, hR, by simp, hs, hu, hf⟩
  | cons n rest ih =>
    have hapart := hw.apart n List.mem_cons_self
    have hready : run.isReady n = true ↔ n.Ready R :=
      hs.isReady_iff fun d hd => ⟨(hapart d hd).1, (hapart d hd).2.1⟩
    rw [dispatch]
    split
    · next hr =>
      rw [hready] at hr
      have hnew := hw.new n List.mem_cons_self
      have hids := ho.ids_eq
      rw [hids, hR, List.mem_append, not_or] at hnew
      obtain ⟨run', hbegin, hs'⟩ := hs.begin (List.mem_map_of_mem (hw.mem n List.mem_cons_self))
        hnew.2 hnew.1
      rw [hbegin]
      subst hR
      refine Ensures.bind (ensures_attempt ho hu hf (hw.mem n List.mem_cons_self) hr
        (hw.new n List.mem_cons_self)) ?_
      rintro a h₁ hp₁ ho₁ ha
      rw [← ha.busy] at hs'
      refine Ensures.bind (ih ho₁ ha.unstopped ha.fits ha.results (hw.start ha) hs') ?_
      rintro ⟨run'', attempts⟩ h₂ hp₂ ho₂ hd
      refine ⟨ho₂, ?_, ?_, hd.results, ?_, hd.shows, hd.unstopped, hd.fits⟩
      · rw [List.filter_cons_of_pos (by simpa using hr), ← hd.nodes, List.map_cons, ha.node]
      · intro b hb
        rcases List.mem_cons.1 hb with rfl | hb
        · rw [ha.node]
          exact ha.handle.grows hp₂
        · exact hd.handles b hb
      · rw [hd.busy, ha.busy, List.filter_cons_of_pos (by simpa using hr)]
        simp
    · next hr =>
      rw [hready] at hr
      refine (ih ho hu hf hR hw.skip hs).mono fun out h' _ _ hd => ?_
      refine ⟨?_, hd.handles, hd.results, ?_, hd.shows, hd.unstopped, hd.fits⟩
      · rw [hd.nodes, List.filter_cons_of_neg (by simpa using hr)]
      · rw [hd.busy, List.filter_cons_of_neg (by simpa using hr)]

end

end Executor

end Flowgraph
