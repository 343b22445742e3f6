import Flowgraph.Proofs.Run.Overall
import Flowgraph.Proofs.Run.Statuses

/-! A run as a machine: whoever asks it for transitions, in whatever sequence, is refused or moves one
node by one move. What holds of every moment, of every answer and from one moment to every later one. -/

namespace Flowgraph

namespace RunState

open Function (update)
open Relation (ReflTransGen)

/-- What a run can be asked for. -/
inductive Transition
  | begin (id : String)
  | finish (id : String) (succeeded : Bool)

namespace Transition

def id : Transition → String
  | .begin id => id
  | .finish id _ => id

/-- The status that the node must have. -/
def required : Transition → RunStatus
  | .begin _ => .pending
  | .finish _ _ => .running

/-- The status that the node is given. -/
def target : Transition → RunStatus
  | .begin _ => .running
  | .finish _ succeeded => if succeeded then .success else .error

def ask (t : Transition) (run : RunState) : Except TransitionError RunState :=
  match t with
  | .begin id => run.begin id
  | .finish id succeeded => run.finish id succeeded

/-- On a run that is changed in place: the status is looked up, then compared, then written. What was
written before a refusal would stay. -/
def perform (t : Transition) : ExceptT TransitionError (StateM RunState) Unit := do
  match (← get).status? t.id with
  | none => throw (.unknownNode t.id)
  | some s =>
    if s = t.required then modify (·.set t.id t.target)
    else throw (.invalid t.id s t.target)

/-- The answer, and the run afterwards. -/
def answer (t : Transition) (run : RunState) : Except TransitionError Unit × RunState :=
  Id.run (t.perform.run.run run)

theorem moves (t : Transition) : t.required.Moves t.target := by
  cases t with
  | begin id => exact .begins
  | finish id succeeded =>
    cases succeeded
    · exact .fails
    · exact .succeeds

theorem ask_eq_move (t : Transition) (run : RunState) :
    t.ask run = run.move t.id t.required t.target := by
  cases t <;> rfl

theorem answer_eq (t : Transition) (run : RunState) : t.answer run =
    match t.ask run with
    | .ok run' => (.ok (), run')
    | .error e => (.error e, run) := by
  have hanswer : t.answer run = Id.run (StateT.run (ExceptT.run
      (match run.status? t.id with
      | none => throw (.unknownNode t.id)
      | some s =>
        if s = t.required then modify (·.set t.id t.target)
        else throw (.invalid t.id s t.target))) run) := rfl
  rw [hanswer, ask_eq_move, move]
  cases run.status? t.id with
  | none => rfl
  | some s =>
    by_cases hs : s = t.required
    · simp only [if_pos hs]
      rfl
    · simp only [if_neg hs]
      rfl

end Transition

/-- The run after it was asked for all of them. -/
def after (run : RunState) (ts : List Transition) : RunState :=
  ts.foldl (fun run t => (t.answer run).2) run

/-- The snapshot that looks each id up and cannot do without its status. -/
def snapshot? (run : RunState) : Option (List (String × RunStatus)) :=
  run.order.mapM fun id => (run.status? id).map (id, ·)

/-- The run whose nodes have the statuses `f`. -/
def showing (ids : List String) (f : String → RunStatus) : RunState :=
  ⟨ids, ids.eraseDups.map fun id => (id, f id)⟩

section Showing

variable (ids : List String) (f : String → RunStatus) (id : String) (s : RunStatus)

theorem new_eq_showing : new ids = showing ids fun _ => .pending := rfl

theorem status?_showing : (showing ids f).status? id = if id ∈ ids then some (f id) else none := by
  rw [status?, showing, lookup_map_pair]
  simp

variable {ids f id s} in
theorem status?_showing_eq_some :
    (showing ids f).status? id = some s ↔ id ∈ ids ∧ f id = s := by
  rw [status?_showing]
  split <;> simp [*]

theorem set_showing : (showing ids f).set id s = showing ids (update f id s) := by
  unfold set showing
  rw [List.map_map]
  refine congrArg (RunState.mk ids) (List.map_congr_left fun k _ => ?_)
  simp [Function.update_apply]

theorem overall_showing : (showing ids f).overall = .derive (ids.map f) := by
  unfold overall showing
  rw [List.map_map]
  refine RunStatus.derive_congr fun s => ?_
  simp

theorem snapshot_showing : (showing ids f).snapshot = ids.map fun id => (id, f id) :=
  snapshot_eq_map fun k hk => (status?_showing ids f k).trans (if_pos hk)

theorem snapshot?_showing : (showing ids f).snapshot? = some (ids.map fun id => (id, f id)) := by
  unfold snapshot?
  have hall : ∀ l : List String, (∀ k ∈ l, k ∈ ids) →
      l.mapM (fun k => ((showing ids f).status? k).map (k, ·)) = some (l.map fun k => (k, f k)) := by
    intro l hl
    induction l with
    | nil => rfl
    | cons k rest ih =>
      obtain ⟨hk, hrest⟩ := List.forall_mem_cons.1 hl
      rw [List.mapM_cons, ih hrest, status?_showing, if_pos hk]
      rfl
  exact hall ids fun k hk => hk

end Showing

/-- What a run tells of its nodes at one moment. -/
structure Tells (ids : List String) (run : RunState) : Prop where
  known_iff : ∀ id, (∃ s, run.status? id = some s) ↔ id ∈ ids
  snapshot : run.snapshot? = some run.snapshot
  listed : run.snapshot.map (·.1) = ids
  shown : ∀ p ∈ run.snapshot, run.status? p.1 = some p.2
  overall : run.overall =
    if ∃ id ∈ ids, run.status? id = some .error then .error
    else if ∀ id ∈ ids, run.status? id = some .success then .success
    else if ∀ id ∈ ids, run.status? id = some .pending then .pending
    else .running
  /-- In whatever order the nodes are gone through. -/
  unordered : ∀ keys : List String, (∀ id, id ∈ keys ↔ id ∈ ids) →
    RunStatus.scan true true (keys.filterMap run.status?) = run.overall

theorem tells_showing (ids : List String) (f : String → RunStatus) : Tells ids (showing ids f) := by
  have hstatus : ∀ id ∈ ids, (showing ids f).status? id = some (f id) := fun id hid =>
    (status?_showing ids f id).trans (if_pos hid)
  constructor
  · intro id
    simp [status?_showing_eq_some]
  · rw [snapshot?_showing, snapshot_showing]
  · rw [snapshot_showing, List.map_map]
    exact List.map_id ids
  · intro p hp
    rw [snapshot_showing] at hp
    obtain ⟨id, hid, rfl⟩ := List.mem_map.1 hp
    exact hstatus id hid
  · rw [overall_showing, RunStatus.derive_eq]
    simp +contextual [status?_showing_eq_some]
  · intro keys hkeys
    rw [RunStatus.scan_eq_derive, overall_showing]
    refine RunStatus.derive_congr fun s => ?_
    simp only [List.mem_filterMap, status?_showing_eq_some, hkeys, List.mem_map]
    exact exists_congr fun id => and_self_left

/-- All that can come of a transition. -/
theorem answer_cases (run : RunState) (t : Transition) :
    (run.status? t.id = none ∧ t.answer run = (.error (.unknownNode t.id), run)) ∨
    (∃ s, run.status? t.id = some s ∧ s ≠ t.required ∧
      t.answer run = (.error (.invalid t.id s t.target), run)) ∨
    (run.status? t.id = some t.required ∧ t.answer run = (.ok (), run.set t.id t.target)) := by
  rw [t.answer_eq, t.ask_eq_move, move]
  cases run.status? t.id with
  | none => exact Or.inl ⟨rfl, rfl⟩
  | some s =>
    by_cases hs : s = t.required
    · subst hs
      exact Or.inr (Or.inr ⟨rfl, by simp only [if_pos]⟩)
    · exact Or.inr (Or.inl ⟨s, rfl, hs, by simp only [if_neg hs]⟩)

/-- What a run answers, and what it is afterwards. -/
structure Answers (run : RunState) (t : Transition) : Prop where
  /-- In place it is the move that is asked for. -/
  agrees : t.answer run = match t.ask run with
    | .ok run' => (.ok (), run')
    | .error e => (.error e, run)
  accepted_iff : (t.answer run).1 = .ok () ↔ run.status? t.id = some t.required
  unknown_iff : (t.answer run).1 = .error (.unknownNode t.id) ↔ run.status? t.id = none
  invalid_iff : ∀ s, (t.answer run).1 = .error (.invalid t.id s t.target) ↔
    run.status? t.id = some s ∧ s ≠ t.required
  rejected : (t.answer run).1 ≠ .ok () → (t.answer run).2 = run
  accepted : (t.answer run).1 = .ok () → (t.answer run).2.status? t.id = some t.target
  moves : t.required.Moves t.target
  others : ∀ id ≠ t.id, (t.answer run).2.status? id = run.status? id
  overall : (t.answer run).2.overall = run.overall ∨ run.overall.Moves (t.answer run).2.overall

theorem answers_showing (ids : List String) (f : String → RunStatus) (t : Transition) :
    Answers (showing ids f) t := by
  rcases answer_cases (showing ids f) t with ⟨hs, ha⟩ | ⟨s, hs, hreq, ha⟩ | ⟨hs, ha⟩
  · refine ⟨t.answer_eq _, ?_, ?_, ?_, ?_, ?_, t.moves, ?_, ?_⟩ <;> simp [ha, hs]
  · refine ⟨t.answer_eq _, ?_, ?_, ?_, ?_, ?_, t.moves, ?_, ?_⟩ <;> simp [ha, hs, hreq]
  · obtain ⟨hid, hf⟩ := status?_showing_eq_some.1 hs
    have hmoved := RunStatus.derive_moves hid (hf ▸ t.moves)
    rw [← overall_showing, ← overall_showing, ← set_showing] at hmoved
    constructor
    case agrees => exact t.answer_eq _
    case accepted => simp [ha, status?_set_self hs]
    case others =>
      intro id hne
      rw [ha]
      exact status?_set_of_ne _ hne _
    case overall =>
      rw [ha]
      exact hmoved
    all_goals simp [ha, hs, t.moves]

theorem exists_showing_answer (ids : List String) (f : String → RunStatus) (t : Transition) :
    ∃ g, (t.answer (showing ids f)).2 = showing ids g := by
  rcases answer_cases (showing ids f) t with ⟨-, ha⟩ | ⟨s, -, -, ha⟩ | ⟨-, ha⟩
  · exact ⟨f, by rw [ha]⟩
  · exact ⟨f, by rw [ha]⟩
  · exact ⟨_, by rw [ha, set_showing]⟩

/-- From one moment to a later one: nodes and the whole move on, and never back. -/
structure Progress (run run' : RunState) : Prop where
  node : ∀ id s, run.status? id = some s →
    ∃ s', run'.status? id = some s' ∧ ReflTransGen RunStatus.Moves s s'
  overall : ReflTransGen RunStatus.Moves run.overall run'.overall

theorem Progress.refl (run : RunState) : Progress run run :=
  ⟨fun _ s hs => ⟨s, hs, .refl⟩, .refl⟩

theorem Progress.trans {a b c : RunState} (h : Progress a b) (h' : Progress b c) : Progress a c := by
  refine ⟨fun id s hs => ?_, h.overall.trans h'.overall⟩
  obtain ⟨s', hs', hm⟩ := h.node id s hs
  obtain ⟨s'', hs'', hm'⟩ := h'.node id s' hs'
  exact ⟨s'', hs'', hm.trans hm'⟩

theorem Answers.progress {run : RunState} {t : Transition} (h : Answers run t) :
    Progress run (t.answer run).2 := by
  refine ⟨fun id s hs => ?_, ?_⟩
  · by_cases hok : (t.answer run).1 = .ok ()
    · by_cases hid : id = t.id
      · subst hid
        obtain rfl : t.required = s := Option.some.inj ((h.accepted_iff.1 hok).symm.trans hs)
        exact ⟨t.target, h.accepted hok, .single h.moves⟩
      · exact ⟨s, (h.others id hid).trans hs, .refl⟩
    · rw [h.rejected hok]
      exact ⟨s, hs, .refl⟩
  · rcases h.overall with heq | hmove
    · rw [heq]
    · exact .single hmove

theorem after_cons (run : RunState) (t : Transition) (ts : List Transition) :
    run.after (t :: ts) = (t.answer run).2.after ts := rfl

/-- A run stays one that shows statuses, and it makes progress. -/
theorem after_showing (ids : List String) (f : String → RunStatus) (ts : List Transition) :
    (∃ g, (showing ids f).after ts = showing ids g) ∧
      Progress (showing ids f) ((showing ids f).after ts) := by
  induction ts generalizing f with
  | nil => exact ⟨⟨f, rfl⟩, .refl _⟩
  | cons t ts ih =>
    have hstep := (answers_showing ids f t).progress
    obtain ⟨g, hg⟩ := exists_showing_answer ids f t
    rw [hg] at hstep
    rw [after_cons, hg]
    exact ⟨(ih g).1, hstep.trans (ih g).2⟩

/-- All that holds at one moment of a run: of what it tells, of its next answer, whatever it is asked for,
and of all later moments. -/
structure Ordered (ids : List String) (run : RunState) : Prop where
  tells : Tells ids run
  answers : ∀ t, Answers run t
  progress : ∀ ts, Progress run (run.after ts)
  nodeFinal : ∀ ts id s, run.status? id = some s → s.isTerminal = true →
    (run.after ts).status? id = some s
  final : ∀ ts, run.overall.isTerminal = true → (run.after ts).overall = run.overall

/-- All nodes are pending first. Then whatever is asked for, in whatever sequence, the run is in order at
every moment. -/
theorem machine_ordered (ids : List String) :
    (∀ id ∈ ids, (new ids).status? id = some .pending) ∧
      ∀ ts, Ordered ids ((new ids).after ts) := by
  refine ⟨fun id hid => (status?_new ids id).trans (if_pos hid), fun ts => ?_⟩
  obtain ⟨f, hf⟩ := (after_showing ids (fun _ => .pending) ts).1
  rw [new_eq_showing, hf]
  have hprogress : ∀ later, Progress (showing ids f) ((showing ids f).after later) :=
    fun later => (after_showing ids f later).2
  constructor
  · exact tells_showing ids f
  · exact answers_showing ids f
  · exact hprogress
  · intro later id s hs hterminal
    obtain ⟨s', hs', hm⟩ := (hprogress later).node id s hs
    rwa [RunStatus.eq_of_terminal hterminal hm] at hs'
  · intro later hterminal
    exact RunStatus.eq_of_terminal hterminal (hprogress later).overall

end RunState

end Flowgraph
