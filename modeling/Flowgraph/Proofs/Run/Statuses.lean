import Flowgraph.Executor
import Flowgraph.Proofs.Run.Results

/-! What the moves of a run do to the status of each of its nodes. At every moment the statuses
show the results so far and which nodes are busy. -/

namespace Flowgraph.RunState

theorem lookup_map_pair {α β : Type} [BEq α] [LawfulBEq α] [DecidableEq α] (l : List α)
    (f : α → β) (a : α) :
    (l.map fun b => (b, f b)).lookup a = if a ∈ l then some (f a) else none := by
  induction l with
  | nil => simp
  | cons b rest ih =>
    rw [List.map_cons, List.lookup_cons, ih]
    by_cases hab : a = b
    · simp [hab]
    · simp [hab, beq_eq_false_iff_ne.2 hab]

theorem status?_new (ids : List String) (id : String) :
    (new ids).status? id = if id ∈ ids then some .pending else none := by
  rw [status?, new, lookup_map_pair]
  simp

@[simp] theorem order_new (ids : List String) : (new ids).order = ids := rfl

@[simp] theorem order_set (run : RunState) (id : String) (s : RunStatus) :
    (run.set id s).order = run.order := rfl

theorem status?_set (run : RunState) (id : String) (s : RunStatus) (other : String) :
    (run.set id s).status? other =
      if other = id then (run.status? id).map fun _ => s else run.status? other := by
  obtain ⟨order, statuses⟩ := run
  simp only [status?, set]
  induction statuses with
  | nil => split <;> rfl
  | cons kv rest ih =>
    obtain ⟨k, t⟩ := kv
    rw [List.map_cons, List.lookup_cons, List.lookup_cons, List.lookup_cons, ih]
    by_cases ho : other = id
    · subst ho
      by_cases hk : other = k
      · simp [hk]
      · simp [beq_eq_false_iff_ne.2 hk]
    · by_cases hk : other = k
      · subst hk
        simp [ho]
      · simp [ho, beq_eq_false_iff_ne.2 hk]

theorem status?_set_of_ne (run : RunState) {id other : String} (h : other ≠ id) (s : RunStatus) :
    (run.set id s).status? other = run.status? other := by
  rw [status?_set, if_neg h]

theorem status?_set_self {run : RunState} {id : String} {t : RunStatus}
    (h : run.status? id = some t) (s : RunStatus) : (run.set id s).status? id = some s := by
  rw [status?_set, if_pos rfl, h]
  rfl

theorem begin_of_pending {run : RunState} {id : String} (h : run.status? id = some .pending) :
    run.begin id = .ok (run.set id .running) := by
  simp [begin, move, h]

theorem finish_of_running {run : RunState} {id : String} (h : run.status? id = some .running)
    (succeeded : Bool) :
    run.finish id succeeded = .ok (run.set id (if succeeded then .success else .error)) := by
  simp [finish, move, h]

theorem snapshot_eq_map {run : RunState} {f : String → RunStatus}
    (h : ∀ id ∈ run.order, run.status? id = some (f id)) :
    run.snapshot = run.order.map fun id => (id, f id) := by
  rw [snapshot, ← List.filterMap_eq_map]
  exact List.filterMap_congr fun id hid => by simp [h id hid]

/-- The nodes that are busy are running, and all others are as their results say. -/
structure Shows (run : RunState) (ids : List String) (R : Results) (busy : List String) : Prop where
  order : run.order = ids
  status : ∀ id ∈ ids, run.status? id = some (if id ∈ busy then .running else R.status id)

variable {run : RunState} {ids : List String} {R : Results} {busy : List String} {id : String}

theorem shows_new (ids : List String) : (new ids).Shows ids [] [] := by
  refine ⟨rfl, fun id hid => ?_⟩
  rw [status?_new, if_pos hid]
  rfl

theorem Shows.isReady_iff (h : run.Shows ids R busy) {n : CompiledNode}
    (hn : ∀ d ∈ n.dependencies, d ∈ ids ∧ d ∉ busy) : run.isReady n = true ↔ n.Ready R := by
  rw [isReady, List.all_eq_true]
  refine forall₂_congr fun d hd => ?_
  obtain ⟨hmem, hfree⟩ := hn d hd
  rw [h.status d hmem, if_neg hfree]
  simp [Results.Succeeded]

theorem Shows.begin (h : run.Shows ids R busy) (hid : id ∈ ids) (hb : id ∉ busy)
    (hR : id ∉ R.ids) :
    ∃ run', run.begin id = .ok run' ∧ run'.Shows ids R (busy ++ [id]) := by
  have hs : run.status? id = some .pending := by
    rw [h.status id hid, if_neg hb, Results.status_eq_pending_iff.2 hR]
  refine ⟨_, begin_of_pending hs, h.order, fun other ho => ?_⟩
  by_cases he : other = id
  · subst he
    rw [status?_set_self hs, if_pos (by simp)]
  · rw [status?_set_of_ne _ he, h.status other ho]
    simp [he]

theorem Shows.finish (h : run.Shows ids R (id :: busy)) (hid : id ∈ ids) (hb : id ∉ busy)
    (hR : id ∉ R.ids) (r : StepResult) :
    ∃ run', run.finish id r.isSuccess = .ok run' ∧
      run'.Shows ids (R ++ [(id, r)]) busy := by
  have hs : run.status? id = some .running := by rw [h.status id hid, if_pos (by simp)]
  refine ⟨_, finish_of_running hs _, h.order, fun other ho => ?_⟩
  by_cases he : other = id
  · subst he
    rw [status?_set_self hs, if_neg hb, Results.status_of_lookup (Results.lookup_concat_self hR r)]
    cases r <;> rfl
  · have hlookup : (R ++ [(id, r)]).lookup other = R.lookup other :=
      Results.lookup_append_of_not_mem (by simp [Results.ids, he])
    rw [status?_set_of_ne _ he, h.status other ho, Results.status_congr hlookup]
    simp [he]

theorem Shows.snapshot (h : run.Shows ids R []) :
    run.snapshot = ids.map fun id => (id, R.status id) := by
  rw [← h.order]
  exact snapshot_eq_map fun id hid => by simpa using h.status id (h.order ▸ hid)

end Flowgraph.RunState
