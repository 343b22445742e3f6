import Flowgraph.Proofs.Action.Underway
import Flowgraph.Proofs.Executor.Seclusion
import Mathlib.Logic.Hydra

/-! Runs that are driven side by side over one store that does not fail. They take turns in any order,
and so do the steps that they have started. Each comes to what it comes to by itself, and every order
of turns comes to an end. -/

namespace Flowgraph

/-- A program that is driven for an execution, with steps that do nothing but wait. -/
structure Errand where
  executor : Executor
  ids : RunIds
  graph : Graph
  program : Program
  compiles : executor.compile graph = .ok program
  silent : executor.registry.Silent

def Errand.drive (errand : Errand) : Action ExecutionReport :=
  errand.executor.drive errand.ids errand.program

theorem Errand.layered (errand : Errand) : errand.program.Layered errand.graph :=
  Graph.compile_layered errand.compiles

theorem Errand.silent_of_path (errand : Errand) (h : List Event) (i : Invocation) (w : Work)
    (next : Action ExecutionReport) (p : Action.Path [] errand.drive h (.spawn i w next)) :
    w.Silent :=
  Executor.silent_of_path errand.silent errand.layered p

/-- Programs that are driven for one execution each, and the store that they find. -/
structure Crew (ι : Type) where
  errand : ι → Errand
  first : MemoryStore
  distinct : Function.Injective fun i => (errand i).ids.execution
  awaits : ∀ i, first.Awaits (errand i).ids.execution

/-- Who has done what, the store, and how each run stands. -/
structure Scene (ι : Type) extends Moment ι where
  job : ι → Underway ExecutionReport

namespace Crew

section

variable {ι : Type} (crew : Crew ι)

/-- The identifier is that of no execution and no row of a log. -/
def New (past : List (ι × Event)) (id : Uuid) : Prop :=
  (∀ i, id ≠ (crew.errand i).ids.execution) ∧ ¬ Taken crew.first past id

/-- No call fails, and no identifier is given out twice. -/
def setting (past : List (ι × Event)) : Setting := ⟨False, fun _ => crew.New past, fun _ _ => False⟩

def start : Scene ι := ⟨⟨[], crew.first⟩, fun i => ⟨(crew.errand i).drive, []⟩⟩

variable [DecidableEq ι]

/-- A run takes a turn, or a step that it has started does. -/
inductive Step : Scene ι → Scene ι → Prop
  | run {m i e s j} : (m.job i).Goes e j → (crew.setting m.past).Step m.store (.own e) s →
    Step m ⟨⟨m.past ++ [(i, e)], s⟩, Function.update m.job i j⟩
  | step {m i j} : (m.job i).Works j → Step m ⟨m.toMoment, Function.update m.job i j⟩

/-- The runs can come there from the start. -/
def Reaches (m : Scene ι) : Prop := Relation.ReflTransGen crew.Step crew.start m

/-- A run takes a turn, whatever it has been waiting for. -/
inductive Turn : Moment ι → Moment ι → Prop
  | take {m i e s} : (∃ rest, Action.Path [] (crew.errand i).drive (eventsOf i m.past ++ [e]) rest) →
    (crew.setting m.past).Step m.store (.own e) s → Turn m ⟨m.past ++ [(i, e)], s⟩

def Leads : Moment ι → Moment ι → Prop := Relation.ReflTransGen crew.Turn

variable {crew} {i j : ι} {e : Event}

section

variable {m m' : Moment ι} {s : MemoryStore}

theorem Turn.inv (h : crew.Turn m ⟨m.past ++ [(i, e)], s⟩) :
    ∃ rest, Action.Path [] (crew.errand i).drive (eventsOf i m.past ++ [e]) rest := by
  generalize hm' : (⟨m.past ++ [(i, e)], s⟩ : Moment ι) = m' at h
  obtain ⟨hpath, -⟩ := h
  obtain ⟨hpast, rfl⟩ := Moment.mk.inj hm'
  obtain ⟨rfl, rfl⟩ := Prod.mk.inj (List.singleton_inj.1 (List.append_inj' hpast rfl).2)
  exact hpath

theorem Turn.moves (h : crew.Turn m m') : Setting.Moves crew.setting m m' := by
  obtain ⟨-, hs⟩ := h
  exact .turn hs

theorem Leads.traced (h : crew.Leads ⟨[], crew.first⟩ m) : Traced crew.first m := by
  induction h with
  | refl => exact .start crew.first
  | tail _ ht ih => exact ih.move (S := crew.setting) (fun _ hid => hid.2) ht.moves

/-- To each run the others leave its execution alone. -/
theorem Leads.view (h : crew.Leads ⟨[], crew.first⟩ m) (i : ι) :
    (Setting.secluded (crew.errand i).ids.execution).Runs crew.first (viewOf i m.past) m.store := by
  obtain ⟨more, hpast, hruns⟩ := runs_view (fun _ _ => Turn.moves) h
    (T := .secluded (crew.errand i).ids.execution) (i := i)
    fun m₁ j c r s (hm₁ : crew.Leads _ m₁) hturn _ ha => by
      have ht := hm₁.traced
      refine ⟨ha.mono (S := crew.setting m₁.past) id fun id hid => ⟨hid.1 i, ?_⟩, fun hij _ => ?_⟩
      · rintro row hrow rfl
        exact hid.2 (ht.taken hrow)
      · obtain ⟨rest, p⟩ := hturn.inv
        have ho := Executor.orderly_of_path (crew.errand j).layered p
        have hne : (crew.errand j).ids.execution ≠ (crew.errand i).ids.execution :=
          crew.distinct.ne hij
        refine ⟨Executor.leaves_of_allowed ht ho.of_append (fun _ => mem_past) ho.allowed hne, ?_⟩
        rintro st finished rfl
        exact hne ho.allowed.1.symm
  rw [List.nil_append] at hpast
  rwa [hpast]

end

variable {m m' : Scene ι}

/-- Each run stands as its history says. -/
theorem Reaches.tracks (h : crew.Reaches m) (i : ι) :
    Underway.Tracks (crew.errand i).drive (eventsOf i m.past) (m.job i) := by
  induction h with
  | refl => exact Underway.tracks_start _
  | tail _ hstep ih =>
    cases hstep with
    | @run k e s j hg hs =>
      dsimp only
      by_cases hik : k = i
      · subst hik
        rw [eventsOf_self, Function.update_self]
        exact ih.goes hg (crew.errand k).silent_of_path
      · rw [eventsOf_other hik, Function.update_of_ne (Ne.symm hik)]
        exact ih
    | @step k j hw =>
      dsimp only
      by_cases hik : k = i
      · subst hik
        rw [Function.update_self]
        exact ih.works hw
      · rw [Function.update_of_ne (Ne.symm hik)]
        exact ih

theorem Reaches.leads (h : crew.Reaches m) : crew.Leads ⟨[], crew.first⟩ m.toMoment := by
  induction h with
  | refl => exact .refl
  | @tail m₁ m₂ h hstep ih =>
    have ht := Reaches.tracks h
    cases hstep with
    | @run i e s j hg hs =>
      refine ih.tail (.take ?_ hs)
      exact ⟨_, ((ht i).goes hg (crew.errand i).silent_of_path).path⟩
    | step => exact ih

/-- A run that has come to its end has come to what the program calls for. -/
theorem Reaches.settled (h : crew.Reaches m) {report : ExecutionReport}
    (hdone : (m.job i).rest = .done report) :
    (crew.errand i).executor.Settled (crew.errand i).ids (crew.errand i).program
      (crew.errand i).graph report (eventsOf i m.past) m.store := by
  have hpath := (h.tracks i).path
  rw [hdone, ← own_viewOf] at hpath
  have hsettled := Executor.settled_of_runs (crew.errand i).compiles (crew.awaits i)
    (h.leads.view i) hpath
  rwa [own_viewOf] at hsettled

/-- As long as a run has not come to its end, somebody can take a turn. -/
theorem Reaches.goes (h : crew.Reaches m) (hnew : ∃ supply : Supply, crew.New m.past supply.fresh.1)
    (i : ι) : (∃ report, (m.job i).rest = .done report) ∨ ∃ m', crew.Step m m' := by
  obtain ⟨supply, hnew⟩ := hnew
  rcases (h.tracks i).cases with hdone | hover | ⟨c, hg⟩ | ⟨e, j, he, hg⟩ | ⟨j, hw⟩
  · exact Or.inl hdone
  · have hpath := (h.tracks i).path
    rw [hover, ← own_viewOf] at hpath
    obtain ⟨-, c, hspent⟩ := Executor.exhausted_of_path (crew.errand i).layered hpath
    exact absurd hspent (Executor.not_spent (crew.awaits i).serves (h.leads.view i))
  · obtain ⟨j, hg⟩ := hg (m.store.answer supply c).1
    exact Or.inr ⟨_, .run hg (.own (.served hnew rfl))⟩
  · exact Or.inr ⟨_, .run hg (.quiet he)⟩
  · exact Or.inr ⟨_, .step hw⟩

/-- What is left of all runs. -/
theorem wellFounded_step [Finite ι] (crew : Crew ι) :
    WellFounded fun m' m => crew.Step m m' := by
  have := Fintype.ofFinite ι
  let left : Scene ι → Multiset (Underway ExecutionReport) := fun m =>
    (Finset.univ : Finset ι).val.map m.job
  refine Subrelation.wf ?_ (InvImage.wf left Underway.wellFounded_later.cutExpand)
  have hcut : ∀ (m m' : Scene ι) i j, m'.job = Function.update m.job i j →
      Underway.Later j (m.job i) → Relation.CutExpand Underway.Later (left m') (left m) := by
    intro m m' i j hjob hlater
    have hsplit : (Finset.univ : Finset ι).val = i ::ₘ (Finset.univ.erase i).val := by
      rw [← Finset.insert_val_of_notMem (Finset.notMem_erase i _),
        Finset.insert_erase (Finset.mem_univ i)]
    have hothers : (Finset.univ.erase i).val.map m'.job = (Finset.univ.erase i).val.map m.job := by
      refine Multiset.map_congr rfl fun k hk => ?_
      rw [hjob, Function.update_of_ne (Finset.ne_of_mem_erase hk)]
    refine ⟨{j}, m.job i, by simpa using hlater, ?_⟩
    simp only [left]
    rw [hsplit, Multiset.map_cons, Multiset.map_cons, hothers, hjob, Function.update_self,
      ← Multiset.singleton_add, ← Multiset.singleton_add]
    abel
  intro m' m hstep
  cases hstep with
  | run hg hs => exact hcut _ _ _ _ rfl (.goes hg)
  | step hw => exact hcut _ _ _ _ rfl (.works hw)

end

end Crew

/-- A world in which a program can be driven by itself: no call fails, nothing has come of the
execution yet, and there are identifiers for all nodes. -/
structure World.Hosts (w : World) (errand : Errand) : Prop where
  no_faults : w.faults = []
  awaits : w.store.Awaits errand.ids.execution
  lasts : w.supply.Lasts errand.program.nodes.length w.store errand.ids.execution

namespace Crew

variable {ι : Type} [DecidableEq ι]

/-- However the runs and their steps take turns, they come to an end. Whoever cannot go on is done,
and what a run that is done has reported, written to its row and logged is what it comes to by itself,
but for identifiers and times. -/
theorem ends_as_alone [Finite ι] (crew : Crew ι) :
    (∀ scene : Nat → Scene ι, ∃ n, ¬ crew.Step (scene n) (scene (n + 1))) ∧
    ∀ m, crew.Reaches m →
      ((∃ supply : Supply, crew.New m.past supply.fresh.1) → (∀ m', ¬ crew.Step m m') →
        ∀ i, ∃ report, (m.job i).rest = .done report) ∧
      ∀ i (w : World), w.Hosts (crew.errand i) → ∃ report p,
        (crew.errand i).drive.perform World.service (.new w) = (some report, p) ∧
        ∀ report', (m.job i).rest = .done report' → report' = report ∧
          m.store.status? (crew.errand i).ids.execution = some report.status ∧
          m.store.Concurs p.state.store (crew.errand i).ids.execution := by
  refine ⟨fun scene => ?_, fun m h => ⟨fun hnew hstuck i => ?_, fun i w hw => ?_⟩⟩
  · have hwf : IsWellFounded (Scene ι) fun m' m => crew.Step m m' := ⟨wellFounded_step crew⟩
    exact WellFounded.not_rel_apply_succ (r := fun m' m => crew.Step m m') scene
  · exact (h.goes hnew i).resolve_right fun ⟨m', hm'⟩ => hstuck m' hm'
  · have hc := (crew.errand i).compiles
    have hx := (crew.errand i).silent
    obtain ⟨report, p, h', hperform, halone⟩ :=
      Executor.perform_settled hc hx hw.no_faults hw.awaits hw.lasts
    refine ⟨report, p, hperform, fun report' hdone => ?_⟩
    have hsettled := h.settled hdone
    obtain ⟨rfl, hconcurs⟩ := hsettled.concurs hc hx halone
    exact ⟨rfl, hsettled.status, hconcurs⟩

end Crew

def Action.isDone {α : Type} : Action α → Bool
  | .done _ => true
  | _ => false

section

variable {ι : Type} [DecidableEq ι]

/-- A run has its turn, or the step at a place. The store gives out one identifier in each turn. -/
def Scene.turn (n : Nat) (m : Scene ι) (i : ι) : Option Nat → Scene ι
  | some k =>
    match (m.job i).steps[k]? with
    | some (.working w) =>
      ⟨m.toMoment, Function.update m.job i ⟨(m.job i).rest, (m.job i).steps.set k w.goOn⟩⟩
    | _ => m
  | none =>
    let take (e : Event) (j : Underway ExecutionReport) : Scene ι :=
      ⟨⟨m.past ++ [(i, e)], m.store⟩, Function.update m.job i j⟩
    match m.job i with
    | ⟨.call c next, steps⟩ =>
      let (r, store, _) := m.store.answer ⟨n, 0⟩ c
      ⟨⟨m.past ++ [(i, .called c r)], store⟩, Function.update m.job i ⟨next r, steps⟩⟩
    | ⟨.now next, steps⟩ => take (.told ⟨0, 0⟩) ⟨next ⟨0, 0⟩, steps⟩
    | ⟨.sleep d next, steps⟩ => take (.slept d) ⟨next, steps⟩
    | ⟨.warn e next, steps⟩ => take (.warned e) ⟨next, steps⟩
    | ⟨.spawn i w next, steps⟩ => take (.started i w) ⟨next, steps ++ [.working w]⟩
    | ⟨.join next, steps⟩ =>
      match Job.outcomes? steps with
      | some os => take (.joined os) ⟨next os, []⟩
      | none => m
    | _ => m

def Scene.turns (n : Nat) (m : Scene ι) : List (ι × Option Nat) → Scene ι
  | [] => m
  | (i, k) :: rest => (m.turn n i k).turns (n + 1) rest

namespace Crew

variable (crew : Crew ι) {n : Nat} {m : Scene ι} {schedule : List (ι × Option Nat)}

/-- The runs can come there with so many identifiers given out, one after the other. -/
structure Comes (n : Nat) (m : Scene ι) : Prop where
  reaches : crew.Reaches m
  counted : ∀ id, Taken crew.first m.past id → ∃ k < n, id = (Supply.fresh ⟨k, 0⟩).1

variable {crew}

theorem Comes.turn (hm : crew.Comes n m) (i : ι) (k : Option Nat) (hn : n < 2 ^ 64)
    (hother : ∀ i, (Supply.fresh ⟨n, 0⟩).1 ≠ (crew.errand i).ids.execution) :
    crew.Comes (n + 1) (m.turn n i k) := by
  have hmore : ∀ {past : List (ι × Event)}, (∀ id, Taken crew.first past id →
      ∃ k < n, id = (Supply.fresh ⟨k, 0⟩).1) →
      ∀ id, Taken crew.first past id → ∃ k < n + 1, id = (Supply.fresh ⟨k, 0⟩).1 := by
    intro past h id hid
    obtain ⟨k, hk, hkid⟩ := h id hid
    exact ⟨k, hk.trans n.lt_succ_self, hkid⟩
  have hstay : crew.Comes (n + 1) m := ⟨hm.reaches, hmore hm.counted⟩
  have htake : ∀ {e j}, (∀ c r, e ≠ .called c r) → (m.job i).Goes e j →
      crew.Comes (n + 1) ⟨⟨m.past ++ [(i, e)], m.store⟩, Function.update m.job i j⟩ :=
    fun he hg => ⟨hm.reaches.tail (.run hg (.quiet he)),
      hmore fun id hid => hm.counted id (taken_quiet he hid)⟩
  cases k with
  | some k =>
    rw [Scene.turn]
    split
    · next w hw =>
      exact ⟨hm.reaches.tail (.step (.step hw ((hm.reaches.tracks i).silent hw).goes)),
        hstay.counted⟩
    · exact hstay
  | none =>
    rw [Scene.turn]
    dsimp only
    split
    · next c next steps hj =>
      have hnew : crew.New m.past (Supply.fresh ⟨n, 0⟩).1 := by
        refine ⟨hother, fun htaken => ?_⟩
        obtain ⟨k, hk, hid⟩ := hm.counted _ htaken
        exact Supply.fresh_ne hk hn hid.symm
      exact ⟨hm.reaches.tail (.run (hj ▸ .call _) (.own (.served hnew rfl))),
        taken_counted hm.counted i rfl⟩
    · next hj => exact htake (by simp) (hj ▸ .now _)
    · next hj => exact htake (by simp) (hj ▸ .sleep)
    · next hj => exact htake (by simp) (hj ▸ .warn)
    · next hj => exact htake (by simp) (hj ▸ .spawn)
    · next hj =>
      split
      · next hos => exact htake (by simp) (hj ▸ .join hos)
      · exact hstay
    · exact hstay

theorem Comes.turns (hm : crew.Comes n m) (hn : n + schedule.length < 2 ^ 64)
    (hother : ∀ k < 2 ^ 64, ∀ i, (Supply.fresh ⟨k, 0⟩).1 ≠ (crew.errand i).ids.execution) :
    crew.Reaches (m.turns n schedule) := by
  induction schedule generalizing n m with
  | nil => exact hm.reaches
  | cons p rest ih =>
    rw [List.length_cons] at hn
    exact ih (hm.turn p.1 p.2 (by omega) (hother n (by omega))) (by omega)

/-- Two runs of one workflow. -/
def pair : Crew Bool where
  errand later := {
    executor := .failing
    ids := ⟨.ofNat 1, if later then .ofNat 3 else .ofNat 2⟩
    graph := Workflow.lone.graph
    program := ⟨[⟨"only", "only", "broken", 0, [], [], none⟩], [⟨0, ["only"]⟩]⟩
    compiles := Executor.lone_compiles
    silent := Executor.failing_silent }
  first := ⟨⟨[], [⟨.ofNat 2, .ofNat 1, .pending, ⟨0, 0⟩, none⟩,
    ⟨.ofNat 3, .ofNat 1, .pending, ⟨0, 0⟩, none⟩], []⟩, false, 0⟩
  distinct := by decide
  awaits := by
    intro later
    refine ⟨⟨?_, by simp⟩, ?_, rfl⟩
    · intro row hrow _
      fin_cases hrow <;> rfl
    · cases later
      · exact ⟨_, List.mem_cons_self, rfl⟩
      · exact ⟨_, List.mem_cons_of_mem _ List.mem_cons_self, rfl⟩

theorem pair_new {k : Nat} (hk : k < 2 ^ 64) (later : Bool) :
    (Supply.fresh ⟨k, 0⟩).1 ≠ (pair.errand later).ids.execution := by
  intro he
  have hbits := Supply.toNat_fresh hk
  rw [he] at hbits
  have hsmall : (pair.errand later).ids.execution.bits.toNat ≤ 3 := by
    cases later <;> decide
  omega

/-- The one that starts first ends last. -/
def turns : List (Bool × Option Nat) :=
  List.replicate 6 (true, none) ++ List.replicate 6 (false, none) ++
    (false, some 0) :: List.replicate 8 (false, none) ++
    (true, some 0) :: List.replicate 8 (true, none)

theorem pair_ends_as_alone : ∃ m, pair.Reaches m ∧ ∀ later, ∃ report p,
    let ids := (pair.errand later).ids
    (pair.errand later).drive.perform World.service (.new ⟨.opened ids, [], ⟨0, 0⟩⟩) =
      (some report, p) ∧
    (m.job later).rest = .done report ∧ m.store.status? ids.execution = some report.status ∧
    m.store.Concurs p.state.store ids.execution := by
  have hreaches : pair.Reaches (pair.start.turns 0 turns) :=
    Comes.turns ⟨.refl, by simp [Taken, Wrote, start, pair]⟩ (by decide) fun k hk => pair_new hk
  refine ⟨_, hreaches, fun later => ?_⟩
  have hdone : ∃ report, ((pair.start.turns 0 turns).job later).rest = .done report := by
    have hisDone : ((pair.start.turns 0 turns).job later).rest.isDone = true := by
      cases later <;> decide +kernel
    generalize ((pair.start.turns 0 turns).job later).rest = rest at hisDone
    cases rest <;> first | exact ⟨_, rfl⟩ | simp [Action.isDone] at hisDone
  have hhosts : World.Hosts ⟨.opened (pair.errand later).ids, [], ⟨0, 0⟩⟩ (pair.errand later) := by
    refine ⟨rfl, ⟨Executor.fresh_opened _, ⟨_, List.mem_singleton_self _, rfl⟩, rfl⟩, ?_⟩
    have hfew : (pair.errand later).program.nodes.length = 1 := rfl
    rw [hfew]
    refine ⟨fun k hk => ?_, by simp [MemoryStore.opened], fun k hk j hjk => ?_⟩
    · rw [Supply.nth, Nat.zero_add]
      exact pair_new (by omega) later
    · rw [Supply.nth, Supply.nth, Nat.zero_add, Nat.zero_add]
      exact Supply.fresh_ne hjk (by omega)
  obtain ⟨report', hdone⟩ := hdone
  obtain ⟨report, p, hperform, hsame⟩ := ((ends_as_alone pair).2 _ hreaches).2 later _ hhosts
  obtain ⟨rfl, hstatus, hconcurs⟩ := hsame report' hdone
  exact ⟨report', p, hperform, hdone, hstatus, hconcurs⟩

end Crew

end

end Flowgraph
