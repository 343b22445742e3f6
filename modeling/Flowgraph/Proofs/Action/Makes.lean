import Flowgraph.Proofs.Action.Perform

/-! What an action does when it is performed by itself, event by event: its result, the path that it
takes and the answers on its way, in one statement that goes on from action to action. -/

namespace Flowgraph.Action

variable {σ : Type} {service : Service σ}

/-- Performed by itself, the action makes these events, comes to a result or to none, and leaves the
service behind. -/
structure Makes (service : Service σ) (a : Action α) (p : Progress σ) (l : List Event)
    (result : Option α) (q : Progress σ) : Prop where
  perform : a.perform service p = (result, q)
  path : ∀ h, Path h a (h ++ l) (ending result)
  performs : ∀ first h, service.Performs first h p.state → service.Performs first (h ++ l) q.state

theorem makes_ending (result : Option α) (p : Progress σ) :
    (ending result).Makes service p [] result p where
  perform := by cases result <;> rfl
  path h := by rw [List.append_nil]; exact .refl
  performs first h hp := by rwa [List.append_nil]

theorem makes_done (a : α) (p : Progress σ) : (done a).Makes service p [] (some a) p :=
  makes_ending (some a) p

theorem makes_clock (p : Progress σ) : clock.Makes service p [.told (service.now p.state).1]
    (some (service.now p.state).1) { p with state := (service.now p.state).2 } where
  perform := rfl
  path _ := .now _ .refl
  performs _ _ hp := hp.now

theorem makes_ask (c : Call) (p : Progress σ) :
    (ask c).Makes service p [.called c (service.answer p.state c).1]
      (some (service.answer p.state c).1) { p with state := (service.answer p.state c).2 } where
  perform := rfl
  path _ := .call _ .refl
  performs _ _ hp := hp.call c

theorem Makes.sleep {a : Action α} {p q : Progress σ} {l : List Event} {result : Option α}
    {d : Duration} (ha : a.Makes service { p with elapsed := p.elapsed + d.nanos } l result q) :
    (sleep d a).Makes service p (.slept d :: l) result q where
  perform := ha.perform
  path h := List.append_cons .. ▸ .sleep (ha.path _)
  performs first h hp := List.append_cons .. ▸ ha.performs first _ (hp.quiet (by simp))

/-- A path to a result goes on with what comes after the result. -/
theorem Path.bind {a : Action α} {f : α → Action β} {b : Action β} {h h' h'' : List Event} {x : α}
    (p : Path h a h' (done x)) (q : Path h' (f x) h'' b) : Path h (a.bind f) h'' b := by
  generalize hx : done x = d at p
  induction p with
  | refl => subst hx; exact q
  | call r _ ih => exact .call r (ih q hx)
  | now t _ ih => exact .now t (ih q hx)
  | sleep _ ih => exact .sleep (ih q hx)
  | warn _ ih => exact .warn (ih q hx)
  | spawn _ ih => exact .spawn (ih q hx)
  | join os ho _ ih => exact .join os ho (ih q hx)

theorem Makes.bind {a : Action α} {f : α → Action β} {p q s : Progress σ} {l m : List Event} {x : α}
    {result : Option β} (ha : a.Makes service p l (some x) q) (hf : (f x).Makes service q m result s) :
    (a.bind f).Makes service p (l ++ m) result s where
  perform := (perform_bind ha.perform).trans hf.perform
  path h := (ha.path h).bind (by simpa using hf.path (h ++ l))
  performs first h hp := by simpa using hf.performs first _ (ha.performs first h hp)

end Flowgraph.Action
