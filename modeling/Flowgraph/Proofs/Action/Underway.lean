import Flowgraph.Background
import Flowgraph.Proofs.Action.Asks
import Flowgraph.Proofs.Action.Perform

/-! A run that is under way, turn by turn: the run itself goes on by one event, or one of the steps
that it has started goes on. It waits until all its steps have ended, and these may end in any order. -/

namespace Flowgraph

/-- What a run has yet to do, and the steps that it has started since it last waited for any. -/
structure Underway (α : Type) where
  rest : Action α
  steps : List StepProgress

/-- A step goes on for itself. -/
inductive Work.Goes : Work → StepProgress → Prop
  | done {o} : Goes (.done o) (.ended o)
  | sleep {d next} : Goes (.sleep d next) (.working next)
  | await {next} : Goes (.await next) (.working next)

/-- What a step is after a turn. One that makes a call stays as it is. -/
def Work.goOn : Work → StepProgress
  | done o => .ended o
  | call c next => .working (call c next)
  | sleep _ next => .working next
  | await next => .working next

/-- How many turns are left to a step that makes no calls. -/
def Work.turns : Work → Nat
  | done _ => 1
  | call _ _ => 1
  | sleep _ next => next.turns + 1
  | await next => next.turns + 1

def StepProgress.turns : StepProgress → Nat
  | working w => w.turns
  | ended _ => 0

theorem Work.Goes.turns_lt {w : Work} {p : StepProgress} (h : w.Goes p) : p.turns < w.turns := by
  cases h <;> simp [StepProgress.turns, Work.turns]

theorem Work.Silent.goes {w : Work} (hw : w.Silent) : w.Goes w.goOn := by
  cases w with
  | done => exact .done
  | call => exact hw.elim
  | sleep => exact .sleep
  | await => exact .await

/-- What a step has come to so far, when this is how it was started. -/
def StepProgress.Continues (w : Work) : StepProgress → Prop
  | working v => v.Silent ∧ ∀ o, v.ComesTo o → w.ComesTo o
  | ended o => w.ComesTo o

theorem StepProgress.Continues.goes {w v : Work} {p : StepProgress}
    (hc : (StepProgress.working v).Continues w) (hg : v.Goes p) : p.Continues w := by
  obtain ⟨hsilent, hcomes⟩ := hc
  cases hg with
  | done => exact hcomes _ .done
  | sleep => exact ⟨hsilent, fun o ho => hcomes o (.sleep ho)⟩
  | await => exact ⟨hsilent, fun o ho => hcomes o (.await ho)⟩

namespace Job

variable {steps : List StepProgress}

@[simp] theorem outcomes?_nil : outcomes? [] = some [] := rfl

@[simp] theorem outcomes?_ended (o : Outcome) :
    outcomes? (.ended o :: steps) = (outcomes? steps).map (o :: ·) := by
  rw [Option.map_eq_bind, outcomes?, outcomes?, List.mapM_cons]
  rfl

@[simp] theorem outcomes?_working (w : Work) : outcomes? (.working w :: steps) = none := by
  simp [outcomes?, List.mapM_cons]

/-- One can tell what the steps have come to when all have ended. -/
theorem outcomes?_eq_some {os : List Outcome} :
    outcomes? steps = some os ↔ steps = os.map .ended := by
  induction steps generalizing os with
  | nil => simp [eq_comm]
  | cons p rest ih =>
    cases p with
    | working => cases os <;> simp
    | ended o => cases os <;> simp [ih, and_comm]

/-- As long as one cannot tell, there is a step that has not ended. -/
theorem exists_of_outcomes?_eq_none (h : outcomes? steps = none) :
    ∃ (k : Nat) (w : Work), steps[k]? = some (.working w) := by
  induction steps with
  | nil => simp at h
  | cons p rest ih =>
    cases p with
    | working w => exact ⟨0, w, rfl⟩
    | ended o =>
      obtain ⟨k, w, hk⟩ := ih (by simpa using h)
      exact ⟨k + 1, w, hk⟩

end Job

namespace Action

variable {α : Type} {a b c : Action α} {h h' h'' : List Event}

theorem Path.trans (p : Path h a h' b) (q : Path h' b h'' c) : Path h a h'' c := by
  induction p with
  | refl => exact q
  | call r _ ih => exact .call r (ih q)
  | now t _ ih => exact .now t (ih q)
  | sleep _ ih => exact .sleep (ih q)
  | warn _ ih => exact .warn (ih q)
  | spawn _ ih => exact .spawn (ih q)
  | join os ho _ ih => exact .join os ho (ih q)

end Action

namespace Underway

variable {α : Type}

/-- A run goes on by one event. -/
inductive Goes : Underway α → Event → Underway α → Prop
  | call {c next steps} (r) : Goes ⟨.call c next, steps⟩ (.called c r) ⟨next r, steps⟩
  | now {next steps} (t) : Goes ⟨.now next, steps⟩ (.told t) ⟨next t, steps⟩
  | sleep {d next steps} : Goes ⟨.sleep d next, steps⟩ (.slept d) ⟨next, steps⟩
  | warn {e next steps} : Goes ⟨.warn e next, steps⟩ (.warned e) ⟨next, steps⟩
  | spawn {i w next steps} :
    Goes ⟨.spawn i w next, steps⟩ (.started i w) ⟨next, steps ++ [.working w]⟩
  | join {next steps os} : Job.outcomes? steps = some os →
    Goes ⟨.join next, steps⟩ (.joined os) ⟨next os, []⟩

/-- One of its steps goes on. -/
inductive Works : Underway α → Underway α → Prop
  | step {rest steps k w p} : steps[k]? = some (.working w) → w.Goes p →
    Works ⟨rest, steps⟩ ⟨rest, steps.set k p⟩

/-- It has taken a turn. -/
inductive Later : Underway α → Underway α → Prop
  | goes {j e j'} : j.Goes e j' → Later j' j
  | works {j j'} : j.Works j' → Later j' j

/-- How a run stands that has this history behind it. -/
structure Tracks (a : Action α) (h : List Event) (j : Underway α) : Prop where
  path : Action.Path [] a h j.rest
  steps : List.Forall₂ (fun s p => p.Continues s.2) (tally h).running j.steps

variable {a : Action α} {h : List Event} {j j' : Underway α} {e : Event}

theorem tracks_start (a : Action α) : Tracks a [] ⟨a, []⟩ := ⟨.refl, .nil⟩

theorem Tracks.goes (ht : Tracks a h j) (hg : j.Goes e j')
    (hspawn : ∀ h i w next, Action.Path [] a h (.spawn i w next) → w.Silent) :
    Tracks a (h ++ [e]) j' := by
  obtain ⟨hpath, hsteps⟩ := ht
  cases hg with
  | call r => exact ⟨hpath.trans (.call r .refl), by simpa using hsteps⟩
  | now t => exact ⟨hpath.trans (.now t .refl), by simpa using hsteps⟩
  | sleep => exact ⟨hpath.trans (.sleep .refl), by simpa using hsteps⟩
  | warn => exact ⟨hpath.trans (.warn .refl), by simpa using hsteps⟩
  | spawn =>
    refine ⟨hpath.trans (.spawn .refl), ?_⟩
    rw [tally_started]
    exact List.rel_append hsteps (.cons ⟨hspawn _ _ _ _ hpath, fun _ => id⟩ .nil)
  | join hos =>
    obtain rfl := Job.outcomes?_eq_some.1 hos
    have houtcomes := List.forall₂_map_right_iff.1 hsteps
    exact ⟨hpath.trans (.join _ houtcomes .refl), by simp⟩

theorem Tracks.works (ht : Tracks a h j) (hw : j.Works j') : Tracks a h j' := by
  obtain ⟨hpath, hsteps⟩ := ht
  obtain ⟨hk, hg⟩ := hw
  rename_i rest steps k w p
  refine ⟨hpath, ?_⟩
  rw [List.forall₂_iff_get] at hsteps ⊢
  obtain ⟨hlen, hget⟩ := hsteps
  refine ⟨by simpa using hlen, fun i hi hi' => ?_⟩
  have hi₂ : i < steps.length := by simpa using hi'
  have hold := hget i hi hi₂
  obtain ⟨hkl, hkw⟩ := List.getElem?_eq_some_iff.1 hk
  simp only [List.get_eq_getElem, List.getElem_set] at hold ⊢
  split
  · next heq =>
    subst heq
    rw [hkw] at hold
    exact hold.goes hg
  · exact hold

theorem Tracks.silent (ht : Tracks a h j) {k : Nat} {w : Work}
    (hk : j.steps[k]? = some (.working w)) : w.Silent := by
  obtain ⟨hlen, hget⟩ := List.forall₂_iff_get.1 ht.steps
  obtain ⟨hkl, hkw⟩ := List.getElem?_eq_some_iff.1 hk
  have hpair := hget k (hlen ▸ hkl) hkl
  rw [List.get_eq_getElem, List.get_eq_getElem, hkw] at hpair
  exact hpair.1

/-- A run that has not come to its end can go on if its calls are answered, or one of its steps
can. -/
theorem Tracks.cases (ht : Tracks a h j) : (∃ r, j.rest = .done r) ∨ j.rest = .overflow ∨
    (∃ c, ∀ r, ∃ j', j.Goes (.called c r) j') ∨
    (∃ e j', (∀ c r, e ≠ .called c r) ∧ j.Goes e j') ∨ ∃ j', j.Works j' := by
  obtain ⟨rest, steps⟩ := j
  cases rest with
  | done r => exact Or.inl ⟨r, rfl⟩
  | overflow => exact Or.inr (Or.inl rfl)
  | call c next => exact Or.inr (Or.inr (Or.inl ⟨c, fun r => ⟨_, .call r⟩⟩))
  | now next => exact Or.inr (Or.inr (Or.inr (Or.inl ⟨_, _, by simp, .now ⟨0, 0⟩⟩)))
  | sleep => exact Or.inr (Or.inr (Or.inr (Or.inl ⟨_, _, by simp, .sleep⟩)))
  | warn => exact Or.inr (Or.inr (Or.inr (Or.inl ⟨_, _, by simp, .warn⟩)))
  | spawn => exact Or.inr (Or.inr (Or.inr (Or.inl ⟨_, _, by simp, .spawn⟩)))
  | join next =>
    cases hos : Job.outcomes? steps with
    | some os => exact Or.inr (Or.inr (Or.inr (Or.inl ⟨_, _, by simp, .join hos⟩)))
    | none =>
      obtain ⟨k, w, hk⟩ := Job.exists_of_outcomes?_eq_none hos
      have hsilent := ht.silent hk
      exact Or.inr (Or.inr (Or.inr (Or.inr ⟨_, .step hk hsilent.goes⟩)))

/-- What is left to the steps becomes less with each of their turns. -/
theorem acc_of_goes {rest : Action α}
    (hgoes : ∀ steps e j, Goes ⟨rest, steps⟩ e j → Acc Later j) (steps : List StepProgress) :
    Acc Later ⟨rest, steps⟩ := by
  induction hn : (steps.map (·.turns)).sum using Nat.strongRecOn generalizing steps with
  | _ n ih =>
    refine ⟨_, fun j' hj' => ?_⟩
    cases hj' with
    | goes hg => exact hgoes _ _ _ hg
    | works hw =>
      obtain ⟨hk, hp⟩ := hw
      rename_i k w p
      refine ih _ ?_ _ rfl
      obtain ⟨hkl, hkw⟩ := List.getElem?_eq_some_iff.1 hk
      have hlt := hp.turns_lt
      have hsplit : steps = steps.take k ++ .working w :: steps.drop (k + 1) := by
        rw [← hkw, List.getElem_cons_drop, List.take_append_drop]
      have hset : steps.set k p = steps.take k ++ p :: steps.drop (k + 1) :=
        List.set_eq_take_append_cons_drop ▸ if_pos hkl
      rw [hset, ← hn]
      conv_rhs => rw [hsplit]
      simp only [List.map_append, List.map_cons, List.sum_append, List.sum_cons,
        StepProgress.turns] at hlt ⊢
      omega

/-- A run takes only so many turns, whatever it is answered. -/
theorem wellFounded_later : WellFounded (Later (α := α)) := by
  suffices hall : ∀ (rest : Action α) (steps : List StepProgress), Acc Later ⟨rest, steps⟩ from
    ⟨fun j => hall j.rest j.steps⟩
  intro rest
  induction rest with
  | done | overflow => exact acc_of_goes fun _ _ _ hg => by cases hg
  | call c next ih => exact acc_of_goes fun _ _ _ hg => by cases hg; exact ih _ _
  | now next ih => exact acc_of_goes fun _ _ _ hg => by cases hg; exact ih _ _
  | join next ih => exact acc_of_goes fun _ _ _ hg => by cases hg; exact ih _ _
  | sleep _ _ ih | warn _ _ ih | spawn _ _ _ ih =>
    exact acc_of_goes fun _ _ _ hg => by cases hg; exact ih _

end Underway

end Flowgraph
