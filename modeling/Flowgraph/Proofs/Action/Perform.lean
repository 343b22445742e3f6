import Flowgraph.Proofs.Store.Trace

/-! Performing an action by itself takes one of its paths, and its calls are a trace of the store
behind the service. The steps here make no calls of their own. -/

namespace Flowgraph

/-- The step does nothing but wait. -/
def Work.Silent : Work → Prop
  | done _ => True
  | call _ _ => False
  | sleep _ next => next.Silent
  | await next => next.Silent

theorem Work.Silent.comesTo_unique {w : Work} (hw : w.Silent) {o o' : Outcome}
    (ho : w.ComesTo o) (ho' : w.ComesTo o') : o = o' := by
  induction ho with
  | done => cases ho'; rfl
  | call => exact hw.elim
  | sleep _ ih =>
    cases ho' with
    | sleep ho' => exact ih hw ho'
  | await _ ih =>
    cases ho' with
    | await ho' => exact ih hw ho'

/-- A service that passes calls on to a store, as long as its state is as it should be. -/
structure Service.Backed {σ : Type} (service : Service σ) (S : Setting) (store : σ → MemoryStore)
    (valid : σ → Prop) : Prop where
  answers : ∀ s c, valid s →
    S.Answers (store s) c (service.answer s c).1 (store (service.answer s c).2)
  tells : ∀ s, store (service.now s).2 = store s
  valid_answer : ∀ s c, valid s → valid (service.answer s c).2
  valid_now : ∀ s, valid s → valid (service.now s).2

/-- What a service has answered along a history, from one of its states to another. -/
inductive Service.Performs {σ : Type} (service : Service σ) (first : σ) : List Event → σ → Prop
  | nil : Performs service first [] first
  | call {h s} (c : Call) : Performs service first h s →
    Performs service first (h ++ [.called c (service.answer s c).1]) (service.answer s c).2
  | now {h s} : Performs service first h s →
    Performs service first (h ++ [.told (service.now s).1]) (service.now s).2
  | quiet {h s e} : (∀ c r, e ≠ .called c r) → Performs service first h s →
    Performs service first (h ++ [e]) s

/-- If calls are passed on to a store, its trace is the history. -/
theorem Service.Performs.runs {σ : Type} {service : Service σ} {S : Setting}
    {store : σ → MemoryStore} {valid : σ → Prop} {first s : σ} {h : List Event}
    (hp : service.Performs first h s) (hS : service.Backed S store valid) (hv : valid first) :
    S.Runs (store first) (h.map .own) (store s) ∧ valid s := by
  induction hp with
  | nil => exact ⟨.nil, hv⟩
  | @call h s c _ ih =>
    rw [List.map_append]
    exact ⟨ih.1.snoc (.own (hS.answers s c ih.2)), hS.valid_answer s c ih.2⟩
  | @now h s _ ih =>
    rw [List.map_append, hS.tells]
    exact ⟨ih.1.snoc (.quiet fun _ _ => Event.noConfusion), hS.valid_now s ih.2⟩
  | quiet he _ ih =>
    rw [List.map_append]
    exact ⟨ih.1.snoc (.quiet he), ih.2⟩

section

variable {σ : Type}

theorem Work.Silent.perform {w : Work} (hw : w.Silent) (service : Service σ) (elapsed : Nat)
    (s : σ) :
    w.ComesTo (w.perform service elapsed s).1 ∧ (w.perform service elapsed s).2.2 = s := by
  induction w generalizing elapsed with
  | done o => exact ⟨.done, rfl⟩
  | call => exact hw.elim
  | sleep d next ih =>
    obtain ⟨ho, hs⟩ := ih hw (elapsed + d.nanos)
    exact ⟨.sleep ho, hs⟩
  | await next ih =>
    obtain ⟨ho, hs⟩ := ih hw elapsed
    exact ⟨.await ho, hs⟩

theorem Work.performAll_silent {waiting : List (Nat × Work)} (hw : ∀ p ∈ waiting, p.2.Silent)
    (service : Service σ) (elapsed : Nat) (s : σ) :
    List.Forall₂ (fun p o => Work.ComesTo p.2 o) waiting
      (Work.performAll service elapsed s waiting).1 ∧
    (Work.performAll service elapsed s waiting).2.2 = s := by
  induction waiting generalizing elapsed with
  | nil => exact ⟨.nil, rfl⟩
  | cons p rest ih =>
    obtain ⟨began, w⟩ := p
    have hfirst : w.Silent := hw (began, w) List.mem_cons_self
    have hrest : ∀ p ∈ rest, p.2.Silent := fun p hp => hw p (List.mem_cons_of_mem _ hp)
    obtain ⟨ho, hs⟩ := hfirst.perform service began s
    rw [Work.performAll]
    generalize w.perform service began s = r at ho hs ⊢
    obtain ⟨outcome, ended, s'⟩ := r
    obtain rfl : s' = s := hs
    obtain ⟨hos, hs⟩ := ih hrest (max elapsed ended)
    exact ⟨.cons ho hos, hs⟩

end

namespace Action

variable {σ : Type} {service : Service σ}

/-- What stands before an action that has come to a result, or has none. -/
def ending : Option α → Action α
  | some a => .done a
  | none => .overflow

/-- How a run that is performed by itself agrees with a history of it. -/
structure Follows (service : Service σ) (first : σ) (h : List Event) (p : Progress σ) : Prop where
  performs : service.Performs first h p.state
  waiting : (tally h).running.map (·.2) = p.waiting.map (·.2)
  started : p.started = starts h
  silent : ∀ q ∈ p.waiting, q.2.Silent

section

variable {first : σ} {h : List Event} {p : Progress σ}

theorem Follows.start (hf : Follows service first h p) (i : Invocation) {w : Work}
    (hw : w.Silent) :
    Follows service first (h ++ [.started i w])
      { p with started := p.started ++ [i], waiting := p.waiting ++ [(p.elapsed, w)] } := by
  refine ⟨hf.performs.quiet (by simp), by simp [hf.waiting], by simp [hf.started], ?_⟩
  intro q hq
  rcases List.mem_append.1 hq with hq | hq
  · exact hf.silent q hq
  · obtain rfl := List.mem_singleton.1 hq
    exact hw

/-- The steps that are waited for come to their outcomes and leave the state alone. -/
theorem Follows.join (hf : Follows service first h p) :
    let r := Work.performAll service p.elapsed p.state p.waiting
    Outcomes h r.1 ∧ Follows service first (h ++ [.joined r.1])
      { p with state := r.2.2, elapsed := r.2.1, waiting := [] } := by
  intro r
  obtain ⟨hos, hs⟩ := Work.performAll_silent hf.silent service p.elapsed p.state
  have houtcomes : Outcomes h r.1 := by
    have hmap := List.forall₂_map_left_iff.2 hos
    rw [← hf.waiting] at hmap
    exact List.forall₂_map_left_iff.1 hmap
  have hstate : r.2.2 = p.state := hs
  refine ⟨houtcomes, ?_, by simp, by simpa using hf.started, by simp⟩
  rw [hstate]
  exact hf.performs.quiet (by simp)

end

/-- Performing takes a path. -/
theorem perform_follows {first : σ} (a : Action α) {h : List Event} {p : Progress σ}
    (hf : Follows service first h p)
    (hspawn : ∀ h' i w next, Path h a h' (.spawn i w next) → w.Silent) :
    ∃ h', Path h a h' (ending (a.perform service p).1) ∧
      Follows service first h' (a.perform service p).2 := by
  induction a generalizing h p with
  | done a => exact ⟨h, .refl, hf⟩
  | overflow => exact ⟨h, .refl, hf⟩
  | call c next ih =>
    have hcalled : Follows service first (h ++ [Event.called c (service.answer p.state c).1])
        { p with state := (service.answer p.state c).2 } :=
      ⟨hf.performs.call c, by simpa using hf.waiting, by simpa using hf.started, hf.silent⟩
    obtain ⟨h', hp, hf'⟩ := ih _ hcalled fun h' i w n hp => hspawn h' i w n (.call _ hp)
    exact ⟨h', .call _ hp, hf'⟩
  | now next ih =>
    have htold : Follows service first (h ++ [Event.told (service.now p.state).1])
        { p with state := (service.now p.state).2 } :=
      ⟨hf.performs.now, by simpa using hf.waiting, by simpa using hf.started, hf.silent⟩
    obtain ⟨h', hp, hf'⟩ := ih _ htold fun h' i w n hp => hspawn h' i w n (.now _ hp)
    exact ⟨h', .now _ hp, hf'⟩
  | sleep d next ih =>
    have hslept : Follows service first (h ++ [Event.slept d])
        { p with elapsed := p.elapsed + d.nanos } :=
      ⟨hf.performs.quiet (by simp), by simpa using hf.waiting, by simpa using hf.started,
        hf.silent⟩
    obtain ⟨h', hp, hf'⟩ := ih hslept fun h' i w n hp => hspawn h' i w n (.sleep hp)
    exact ⟨h', .sleep hp, hf'⟩
  | warn e next ih =>
    have hwarned : Follows service first (h ++ [Event.warned e]) p :=
      ⟨hf.performs.quiet (by simp), by simpa using hf.waiting, by simpa using hf.started,
        hf.silent⟩
    obtain ⟨h', hp, hf'⟩ := ih hwarned fun h' i w n hp => hspawn h' i w n (.warn hp)
    exact ⟨h', .warn hp, hf'⟩
  | spawn i w next ih =>
    have hw : w.Silent := hspawn h i w next .refl
    obtain ⟨h', hp, hf'⟩ := ih (hf.start i hw) fun h' i w n hp => hspawn h' i w n (.spawn hp)
    exact ⟨h', .spawn hp, hf'⟩
  | join next ih =>
    obtain ⟨hos, hjoined⟩ := hf.join
    obtain ⟨h', hp, hf'⟩ := ih _ hjoined fun h' i w n hp => hspawn h' i w n (.join _ hos hp)
    exact ⟨h', .join _ hos hp, hf'⟩

/-- A run from its beginning. -/
theorem perform_performs (service : Service σ) (s : σ) (a : Action α)
    (hspawn : ∀ h' i w next, Path [] a h' (.spawn i w next) → w.Silent) :
    ∃ h, Path [] a h (ending (a.perform service (.new s)).1) ∧
      service.Performs s h (a.perform service (.new s)).2.state ∧
      (a.perform service (.new s)).2.started = starts h := by
  have hnew : Follows service s [] (.new s) := ⟨.nil, rfl, rfl, by simp [Progress.new]⟩
  obtain ⟨h, hp, hf⟩ := perform_follows a hnew hspawn
  exact ⟨h, hp, hf.performs, hf.started⟩

/-- The store behind the service answers along the path of a run. -/
theorem perform_path {S : Setting} {store : σ → MemoryStore} {valid : σ → Prop}
    (hS : service.Backed S store valid) {s : σ} (hs : valid s) (a : Action α)
    (hspawn : ∀ h' i w next, Path [] a h' (.spawn i w next) → w.Silent) :
    ∃ h, Path [] a h (ending (a.perform service (.new s)).1) ∧
      S.Runs (store s) (h.map .own) (store (a.perform service (.new s)).2.state) ∧
      (a.perform service (.new s)).2.started = starts h := by
  obtain ⟨h, hp, hperforms, hstarted⟩ := perform_performs service s a hspawn
  exact ⟨h, hp, (hperforms.runs hS hs).1, hstarted⟩

/-- When one action has come to a result, the next one is performed. -/
theorem perform_bind {β : Type} {a : Action α} {f : α → Action β} {p q : Progress σ} {r : α}
    (h : a.perform service p = (some r, q)) :
    (a.bind f).perform service p = (f r).perform service q := by
  induction a generalizing p with
  | done a =>
    obtain ⟨rfl, rfl⟩ : a = r ∧ p = q := by simpa [perform] using h
    rfl
  | overflow => simp [perform] at h
  | call _ _ ih | now _ ih | join _ ih => exact ih _ h
  | sleep _ _ ih | warn _ _ ih | spawn _ _ _ ih => exact ih h

/-- An action without a result is not followed by another one. -/
theorem perform_bind_none {β : Type} {a : Action α} {f : α → Action β} {p q : Progress σ}
    (h : a.perform service p = (none, q)) : (a.bind f).perform service p = (none, q) := by
  induction a generalizing p with
  | done a => simp [perform] at h
  | overflow =>
    obtain rfl : p = q := by simpa [perform] using h
    rfl
  | call _ _ ih | now _ ih | join _ ih => exact ih _ h
  | sleep _ _ ih | warn _ _ ih | spawn _ _ _ ih => exact ih h

end Action

/-- Whatever its faults, a world passes calls on to its store. -/
theorem World.backed : World.service.Backed (.alone True) World.store fun _ => True := by
  refine ⟨fun w c _ => ?_, fun _ => rfl, fun _ _ _ => trivial, fun _ _ => trivial⟩
  simp only [service, answer]
  generalize Fault.consult c.method w.faults = r
  obtain ⟨refused, faults⟩ := r
  cases refused with
  | some e => exact .refused trivial
  | none => exact .served trivial rfl

/-- Without faults every call reaches the store. -/
theorem World.backed_of_no_faults :
    World.service.Backed (.alone False) World.store fun w => w.faults = [] := by
  refine ⟨fun w c hw => ?_, fun _ => rfl, fun w c hw => ?_, fun w hw => hw⟩
  · simp only [service, answer, hw, Fault.consult]
    exact .served trivial rfl
  · simp only [service, answer, hw, Fault.consult]

end Flowgraph
