import Flowgraph.Action
import Flowgraph.Proofs.Run.Results
import Mathlib.Data.List.Forall2
import Mathlib.Data.List.Induction

/-! Histories: what an action has done so far, each call with its reply. Replies are arbitrary,
so whatever holds along every history holds with every store, every pattern of failing calls
and every other client. -/

namespace Flowgraph

inductive Event
  | called (c : Call) (reply : c.Reply)
  | told (t : Instant)
  | slept (d : Duration)
  | warned (e : TransitionError)
  | started (i : Invocation) (w : Work)
  | joined (outcomes : List Outcome)

/-- A step can come to an outcome, given some replies to its calls. -/
inductive Work.ComesTo : Work → Outcome → Prop
  | done {o} : ComesTo (.done o) o
  | call {c next r o} : ComesTo (next r) o → ComesTo (.call c next) o
  | sleep {d next o} : ComesTo next o → ComesTo (.sleep d next) o
  | await {next o} : ComesTo next o → ComesTo (.await next) o

/-- What a history tells of steps: those not waited for yet, and what the others came to. -/
structure Tally where
  running : List (Invocation × Work)
  results : Results

def Tally.enter (t : Tally) : Event → Tally
  | .started i w => { t with running := t.running ++ [(i, w)] }
  | .joined outcomes =>
    ⟨[], t.results ++ t.running.zipWith (fun s o => (s.1.node, o.result)) outcomes⟩
  | _ => t

def tally (h : List Event) : Tally := h.foldl Tally.enter ⟨[], []⟩

/-- The steps that have been started, in order. -/
def starts (h : List Event) : List Invocation :=
  h.filterMap fun
    | .started i _ => some i
    | _ => none

@[simp] theorem tally_nil : tally [] = ⟨[], []⟩ := rfl

@[simp] theorem starts_nil : starts [] = [] := rfl

@[simp] theorem starts_append (h h' : List Event) : starts (h ++ h') = starts h ++ starts h' :=
  List.filterMap_append

@[simp] theorem starts_called (c : Call) (r : c.Reply) : starts [.called c r] = [] := rfl

@[simp] theorem starts_told (t : Instant) : starts [.told t] = [] := rfl

@[simp] theorem starts_slept (d : Duration) : starts [.slept d] = [] := rfl

@[simp] theorem starts_warned (e : TransitionError) : starts [.warned e] = [] := rfl

@[simp] theorem starts_started (i : Invocation) (w : Work) : starts [.started i w] = [i] := rfl

@[simp] theorem starts_joined (os : List Outcome) : starts [.joined os] = [] := rfl

theorem tally_append (h h' : List Event) : tally (h ++ h') = h'.foldl Tally.enter (tally h) :=
  List.foldl_append

@[simp] theorem tally_called (h : List Event) (c : Call) (r : c.Reply) :
    tally (h ++ [.called c r]) = tally h := tally_append h _

@[simp] theorem tally_told (h : List Event) (t : Instant) : tally (h ++ [.told t]) = tally h :=
  tally_append h _

@[simp] theorem tally_slept (h : List Event) (d : Duration) : tally (h ++ [.slept d]) = tally h :=
  tally_append h _

@[simp] theorem tally_warned (h : List Event) (e : TransitionError) :
    tally (h ++ [Event.warned e]) = tally h := tally_append h _

@[simp] theorem tally_started (h : List Event) (i : Invocation) (w : Work) :
    tally (h ++ [Event.started i w]) = { tally h with running := (tally h).running ++ [(i, w)] } :=
  tally_append h _

@[simp] theorem tally_joined (h : List Event) (os : List Outcome) :
    tally (h ++ [.joined os]) =
      ⟨[], (tally h).results ++
        (tally h).running.zipWith (fun s o => (s.1.node, o.result)) os⟩ :=
  tally_append h _

/-- Results are never taken back. -/
theorem results_grow {h h' : List Event} (hp : h <+: h') :
    (tally h).results <+: (tally h').results := by
  obtain ⟨more, rfl⟩ := hp
  induction more using List.reverseRecOn with
  | nil => simp
  | append_singleton more e ih =>
    rw [← List.append_assoc]
    rw [tally_append (h ++ more)]
    cases e with
    | joined os => exact ih.trans (List.prefix_append _ _)
    | called | told | slept | warned | started => exact ih

theorem mem_starts {h : List Event} {i : Invocation} : i ∈ starts h ↔ ∃ w, .started i w ∈ h := by
  simp only [starts, List.mem_filterMap]
  constructor
  · rintro ⟨e, he, hi⟩
    cases e with
    | started j w => exact ⟨w, Option.some.inj hi ▸ he⟩
    | called | told | slept | warned | joined => simp at hi
  · rintro ⟨w, hw⟩
    exact ⟨_, hw, rfl⟩

/-- What all steps that are waited for can come to. -/
def Outcomes (h : List Event) (os : List Outcome) : Prop :=
  List.Forall₂ (fun s o => Work.ComesTo s.2 o) (tally h).running os

namespace Action

/-- With one history behind it, an action can go on until it has another one behind it and
something else before it. -/
inductive Path {α : Type} : List Event → Action α → List Event → Action α → Prop
  | refl {h a} : Path h a h a
  | call {h c next h' b} (r) : Path (h ++ [.called c r]) (next r) h' b → Path h (.call c next) h' b
  | now {h next h' b} (t) : Path (h ++ [.told t]) (next t) h' b → Path h (.now next) h' b
  | sleep {h d next h' b} : Path (h ++ [.slept d]) next h' b → Path h (.sleep d next) h' b
  | warn {h e next h' b} : Path (h ++ [.warned e]) next h' b → Path h (.warn e next) h' b
  | spawn {h i w next h' b} :
    Path (h ++ [.started i w]) next h' b → Path h (.spawn i w next) h' b
  | join {h next h' b} (os) : Outcomes h os →
    Path (h ++ [.joined os]) (next os) h' b → Path h (.join next) h' b

/-- Along every path the history stays in `keeps`; where the action ends its result is in
`gives`, and where a counter overflows the history is in `fails`. -/
def Ensures (keeps fails : List Event → Prop) (gives : α → List Event → Prop) :
    Action α → List Event → Prop
  | .done a, h => keeps h ∧ gives a h
  | .call c next, h => keeps h ∧ ∀ r, (next r).Ensures keeps fails gives (h ++ [.called c r])
  | .now next, h => keeps h ∧ ∀ t, (next t).Ensures keeps fails gives (h ++ [.told t])
  | .sleep d next, h => keeps h ∧ next.Ensures keeps fails gives (h ++ [.slept d])
  | .warn e next, h => keeps h ∧ next.Ensures keeps fails gives (h ++ [.warned e])
  | .spawn i w next, h => keeps h ∧ next.Ensures keeps fails gives (h ++ [.started i w])
  | .join next, h => keeps h ∧ ∀ os, Outcomes h os →
    (next os).Ensures keeps fails gives (h ++ [.joined os])
  | .overflow, h => keeps h ∧ fails h

variable {keeps fails : List Event → Prop}

theorem Ensures.here {gives : α → List Event → Prop} {a : Action α} {h : List Event}
    (ha : a.Ensures keeps fails gives h) : keeps h := by
  cases a <;> exact ha.1

theorem Ensures.mono {gives gives' : α → List Event → Prop} {a : Action α} {h : List Event}
    (ha : a.Ensures keeps fails gives h)
    (hg : ∀ r h', h <+: h' → keeps h' → gives r h' → gives' r h') :
    a.Ensures keeps fails gives' h := by
  induction a generalizing h with
  | done r => exact ⟨ha.1, hg r h (List.prefix_refl _) ha.1 ha.2⟩
  | overflow => exact ha
  | call c next ih =>
    exact ⟨ha.1, fun r => ih r (ha.2 r) fun s h' hp => hg s h' ((List.prefix_append _ _).trans hp)⟩
  | now next ih =>
    exact ⟨ha.1, fun t => ih t (ha.2 t) fun s h' hp => hg s h' ((List.prefix_append _ _).trans hp)⟩
  | join next ih =>
    exact ⟨ha.1, fun os ho =>
      ih os (ha.2 os ho) fun s h' hp => hg s h' ((List.prefix_append _ _).trans hp)⟩
  | sleep d next ih | warn e next ih | spawn i w next ih =>
    exact ⟨ha.1, ih ha.2 fun s h' hp => hg s h' ((List.prefix_append _ _).trans hp)⟩

theorem ensures_bind {gives : β → List Event → Prop} {a : Action α} {f : α → Action β}
    {h : List Event} :
    (a.bind f).Ensures keeps fails gives h ↔
      a.Ensures keeps fails (fun r h' => (f r).Ensures keeps fails gives h') h := by
  induction a generalizing h with
  | done r => exact ⟨fun hf => ⟨hf.here, hf⟩, fun hf => hf.2⟩
  | overflow => exact Iff.rfl
  | call c next ih | now next ih => exact and_congr_right fun _ => forall_congr' fun r => ih r
  | join next ih =>
    exact and_congr_right fun _ => forall_congr' fun os => imp_congr_right fun _ => ih os
  | sleep d next ih | warn e next ih | spawn i w next ih => exact and_congr_right fun _ => ih

/-- To run one action after another, reach what the second needs. -/
theorem Ensures.bind {gives : α → List Event → Prop} {gives' : β → List Event → Prop}
    {a : Action α} {f : α → Action β} {h : List Event} (ha : a.Ensures keeps fails gives h)
    (hf : ∀ r h', h <+: h' → keeps h' → gives r h' → (f r).Ensures keeps fails gives' h') :
    (a.bind f).Ensures keeps fails gives' h :=
  ensures_bind.2 (ha.mono hf)

theorem Path.ensures {gives : α → List Event → Prop} {a b : Action α} {h h' : List Event}
    (p : Path h a h' b) (ha : a.Ensures keeps fails gives h) : b.Ensures keeps fails gives h' := by
  induction p with
  | refl => exact ha
  | call r _ ih => exact ih (ha.2 r)
  | now t _ ih => exact ih (ha.2 t)
  | sleep _ ih | warn _ ih | spawn _ ih => exact ih ha.2
  | join os ho _ ih => exact ih (ha.2 os ho)

end Action

end Flowgraph
