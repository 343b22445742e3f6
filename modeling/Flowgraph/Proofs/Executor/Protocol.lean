import Flowgraph.Executor
import Flowgraph.Proofs.Program.Layered
import Flowgraph.Proofs.Tracker.Calls

/-! What a run may do next, given what it has done so far, and what follows for every history in
which it has done nothing else: no step is started twice, and the results are those of steps that
were started on the outputs of all that they refer to. -/

namespace Flowgraph

def CompiledNode.invocation (n : CompiledNode) (outputs : Outputs) : Invocation :=
  ⟨n.stepType, n.id, n.integrationId, n.resolveInput outputs⟩

/-- No reading of the row has shown a final status. -/
def Unstopped (execution : Uuid) (h : List Event) : Prop :=
  ∀ row, .called (.getExecution execution) (.ok row) ∈ h → row.status.isTerminal = false

/-- Neither starts nor ends a step, and does not read the row. -/
def Event.IsQuiet : Event → Prop
  | .called c _ => c.method ≠ .getExecution
  | .told _ => True
  | .slept _ => True
  | _ => False

namespace Adds

variable {h h' : List Event}

theorem tally_starts_eq (ha : Adds Event.IsQuiet h h') :
    tally h' = tally h ∧ starts h' = starts h := by
  obtain ⟨more, rfl, hq⟩ := ha
  induction more using List.reverseRecOn with
  | nil => simp
  | append_singleton more e ih =>
    obtain ⟨ht, hs⟩ := ih fun e he => hq e (List.mem_append_left _ he)
    have he : e.IsQuiet := hq e (by simp)
    rw [← List.append_assoc]
    cases e with
    | called | told | slept => exact ⟨(tally_append _ _).trans ht, by simpa using hs⟩
    | warned | started | joined => exact he.elim

theorem tally_eq (ha : Adds Event.IsQuiet h h') : tally h' = tally h := ha.tally_starts_eq.1

theorem starts_eq (ha : Adds Event.IsQuiet h h') : starts h' = starts h := ha.tally_starts_eq.2

theorem unstopped (ha : Adds Event.IsQuiet h h') {execution : Uuid} (hu : Unstopped execution h) :
    Unstopped execution h' := by
  intro row hr
  rcases ha.mem hr with hr | hr
  · exact hu row hr
  · exact absurd rfl hr

end Adds

namespace Executor

variable (x : Executor) (ids : RunIds) (program : Program)

/-- A node of the program is started on the outputs of these results. -/
structure Dispatch (R : Results) (n : CompiledNode) (i : Invocation) (w : Work) : Prop where
  mem : n ∈ program.nodes
  ready : n.Ready R
  invocation_eq : i = n.invocation R.outputs
  work_eq : w = x.work ids n i.input

/-- What may come after a history. A move of a node is never refused. -/
def Allowed (h : List Event) : Event → Prop
  | .called (.insertLog entry) _ => ∃ n ∈ program.nodes, n.Ready (tally h).results ∧
    n.id ∉ (starts h).map (·.node) ∧
    ∃ t, entry = n.logEntry ids.execution (.object (n.resolveInput (tally h).results.outputs)) t
  | .called (.completeLog target c) _ => ∃ id r t, (id, r) ∈ (tally h).results ∧
    c = Tracker.completion r t ∧ Targets ids.execution h id target
  | .called (.listLogs e) _ => e = ids.execution
  | .called (.getExecution e) _ => e = ids.execution
  | .called (.updateStatus e s finished) _ => e = ids.execution ∧ (finished = false → s = .running)
  | .called _ _ => False
  | .told _ => True
  | .slept _ => True
  | .warned _ => False
  | .started i w => ∃ n, x.Dispatch ids program (tally h).results n i w ∧
    n.id ∉ (starts h).map (·.node) ∧ Unstopped ids.execution h
  | .joined os => Outcomes h os

inductive Orderly : List Event → Prop
  | nil : Orderly []
  | snoc {h e} : Orderly h → x.Allowed ids program h e → Orderly (h ++ [e])

variable {x ids program}

theorem Orderly.of_append {h more : List Event} (ho : x.Orderly ids program (h ++ more)) :
    x.Orderly ids program h := by
  induction more using List.reverseRecOn with
  | nil => rwa [List.append_nil] at ho
  | append_singleton more e ih =>
    rw [← List.append_assoc] at ho
    generalize hl : h ++ more ++ [e] = l at ho
    cases ho with
    | nil => simp at hl
    | snoc ho _ =>
      obtain ⟨rfl, -⟩ := List.append_inj' hl rfl
      exact ih ho

theorem Orderly.allowed {before after : List Event} {e : Event}
    (ho : x.Orderly ids program (before ++ e :: after)) : x.Allowed ids program before e := by
  rw [List.append_cons] at ho
  have h := ho.of_append
  generalize hl : before ++ [e] = l at h
  cases h with
  | nil => simp at hl
  | snoc _ ha =>
    obtain ⟨rfl, he⟩ := List.append_inj' hl rfl
    obtain rfl := List.singleton_inj.1 he
    exact ha

theorem Orderly.adds {h h' : List Event} {P : Event → Prop} (ho : x.Orderly ids program h)
    (hP : ∀ h', Adds P h h' → ∀ e, P e → x.Allowed ids program h' e) (ha : Adds P h h') :
    x.Orderly ids program h' := by
  obtain ⟨more, rfl, hmore⟩ := ha
  induction more using List.reverseRecOn with
  | nil => simpa using ho
  | append_singleton more e ih =>
    have hinit : ∀ e ∈ more, P e := fun e he => hmore e (List.mem_append_left _ he)
    rw [← List.append_assoc]
    exact (ih hinit).snoc (hP _ ⟨more, rfl, hinit⟩ e (hmore e (by simp)))

theorem Orderly.not_warned {h : List Event} (ho : x.Orderly ids program h) (e : TransitionError) :
    .warned e ∉ h := by
  intro he
  obtain ⟨before, after, rfl⟩ := List.append_of_mem he
  exact ho.allowed

theorem Orderly.nodup_starts {h : List Event} (ho : x.Orderly ids program h) :
    ((starts h).map (·.node)).Nodup := by
  induction ho with
  | nil => simp
  | @snoc h e _ ha ih =>
    cases e with
    | started i w =>
      obtain ⟨n, hd, hnew, -⟩ := ha
      obtain rfl := hd.invocation_eq
      rw [starts_append, List.map_append, List.nodup_append]
      refine ⟨ih, by simp, ?_⟩
      rintro a ha b hb rfl
      obtain rfl : a = n.id := by simpa [CompiledNode.invocation] using hb
      exact hnew ha
    | called | told | slept | warned | joined => simpa using ih

/-- Every node that was started is waited for or has a result, in the order of starting. -/
theorem Orderly.ids_eq {h : List Event} (ho : x.Orderly ids program h) :
    (starts h).map (·.node) = (tally h).results.ids ++ (tally h).running.map (·.1.node) := by
  induction ho with
  | nil => rfl
  | @snoc h e _ ha ih =>
    cases e with
    | started i w => simp [ih]
    | joined os =>
      have hlen : (tally h).running.length = os.length := List.Forall₂.length_eq ha
      have hzip : Results.ids ((tally h).running.zipWith (fun s o => (s.1.node, o.result)) os) =
          (tally h).running.map (·.1.node) := by
        rw [Results.ids, List.map_zipWith]
        apply List.ext_getElem <;> simp [hlen]
      simp [ih, hzip]
    | called | told | slept | warned => simpa using ih

theorem Orderly.nodup_ids {h : List Event} (ho : x.Orderly ids program h) :
    (tally h).results.ids.Nodup := by
  have hnodup := ho.nodup_starts
  rw [ho.ids_eq] at hnodup
  exact (List.nodup_append.1 hnodup).1

variable (x ids program) in
/-- Results of steps that were started on the outputs of all that they depend on. -/
structure Sound (R : Results) : Prop where
  nodup : R.ids.Nodup
  known : ∀ id ∈ R.ids, ∃ n ∈ program.nodes, n.id = id
  ready : ∀ n ∈ program.nodes, n.id ∈ R.ids → n.Ready R
  comes : ∀ n ∈ program.nodes, ∀ r, R.lookup n.id = some r →
    ∃ o, (x.work ids n (n.resolveInput R.outputs)).ComesTo o ∧ o.result = r

section

variable {graph : Graph}

/-- A node whose direct dependencies have succeeded has only ancestors that have succeeded. -/
theorem Sound.upstream {R : Results} (hs : x.Sound ids program R) (hp : program.Layered graph)
    {a : String} {n : CompiledNode} (hn : n ∈ program.nodes) (hr : n.Ready R)
    (ha : graph.Upstream a n.id) : R.Succeeded a := by
  generalize he : n.id = id at ha
  induction ha generalizing n with
  | single ha =>
    subst he
    exact hr _ ((hp.mem_dependencies n hn _).2 ha)
  | tail _ hb ih =>
    subst he
    have hsucc := hr _ ((hp.mem_dependencies n hn _).2 hb)
    obtain ⟨m, hm, rfl⟩ := hs.known _ hsucc.mem_ids
    exact ih hm (hs.ready m hm hsucc.mem_ids) rfl

/-- What comes later does not change the input of a node that is ready. -/
theorem Sound.resolveInput_eq {R S : Results} (hs : x.Sound ids program R)
    (hp : program.Layered graph) (hRS : R <+: S) (hS : S.ids.Nodup) {n : CompiledNode}
    (hn : n ∈ program.nodes) (hr : n.Ready R) :
    n.resolveInput R.outputs = n.resolveInput S.outputs :=
  CompiledNode.resolveInput_congr <| Results.outputs_agreeOn hRS hS fun r hmem =>
    hs.upstream hp hn hr (hp.upstream n hn r hmem)

theorem Orderly.running {h : List Event} (ho : x.Orderly ids program h) :
    ∀ s ∈ (tally h).running, ∃ n, x.Dispatch ids program (tally h).results n s.1 s.2 := by
  induction ho with
  | nil => simp
  | @snoc h e _ ha ih =>
    cases e with
    | started i w =>
      intro s hs
      rw [tally_started, List.mem_append, List.mem_singleton] at hs
      rcases hs with hs | rfl
      · simpa using ih s hs
      · obtain ⟨n, hd, -⟩ := ha
        exact ⟨n, by simpa using hd⟩
    | joined os => simp
    | called | told | slept | warned => simpa using ih

theorem exists_of_mem_zipWith {running : List (Invocation × Work)} {os : List Outcome}
    (ho : List.Forall₂ (fun s o => Work.ComesTo s.2 o) running os) {id : String} {r : StepResult}
    (hr : (id, r) ∈ running.zipWith (fun s o => (s.1.node, o.result)) os) :
    ∃ s ∈ running, s.1.node = id ∧ ∃ o, s.2.ComesTo o ∧ o.result = r := by
  induction ho with
  | nil => simp at hr
  | @cons s o _ _ hso _ ih =>
    rcases List.mem_cons.1 hr with he | hr
    · obtain ⟨rfl, rfl⟩ := Prod.mk.injEq .. ▸ he
      exact ⟨s, List.mem_cons_self, rfl, o, hso, rfl⟩
    · obtain ⟨t, ht, hid, hto⟩ := ih hr
      exact ⟨t, List.mem_cons_of_mem _ ht, hid, hto⟩

/-- When the steps that are waited for have ended, their results join the others. -/
theorem Sound.join {R S : Results} (hs : x.Sound ids program R) (hp : program.Layered graph)
    (hn : (R ++ S).ids.Nodup)
    (hS : ∀ id r, (id, r) ∈ S → ∃ n i w, x.Dispatch ids program R n i w ∧ n.id = id ∧
      ∃ o, w.ComesTo o ∧ o.result = r) :
    x.Sound ids program (R ++ S) := by
  have hgrow : R <+: R ++ S := List.prefix_append _ _
  have hnew : ∀ n ∈ program.nodes, ∀ r, (n.id, r) ∈ S →
      n.Ready R ∧ ∃ o, (x.work ids n (n.resolveInput R.outputs)).ComesTo o ∧ o.result = r := by
    intro n hnm r hr
    obtain ⟨m, i, w, hd, hid, hw⟩ := hS _ _ hr
    obtain rfl := Program.eq_of_id hp.nodup hd.mem hnm hid
    obtain rfl := hd.work_eq
    obtain rfl := hd.invocation_eq
    exact ⟨hd.ready, hw⟩
  refine ⟨hn, fun id hid => ?_, fun n hnm hid => ?_, fun n hnm r hr => ?_⟩
  · rw [Results.ids_append, List.mem_append] at hid
    rcases hid with hid | hid
    · exact hs.known id hid
    · obtain ⟨⟨_, r⟩, hr, rfl⟩ := List.mem_map.1 hid
      obtain ⟨n, i, w, hd, hid, -⟩ := hS _ _ hr
      exact ⟨n, hd.mem, hid⟩
  · rw [Results.ids_append, List.mem_append] at hid
    rcases hid with hid | hid
    · exact (hs.ready n hnm hid).grows hgrow
    · obtain ⟨⟨id, r⟩, hr, hid⟩ := List.mem_map.1 hid
      obtain rfl : id = n.id := hid
      exact (hnew n hnm r hr).1.grows hgrow
  · rcases List.mem_append.1 (Results.mem_of_lookup hr) with hr | hr
    · have hr := Results.lookup_of_mem hs.nodup hr
      have hready := hs.ready n hnm (Results.mem_ids_iff.2 ⟨r, hr⟩)
      rw [← hs.resolveInput_eq hp hgrow hn hnm hready]
      exact hs.comes n hnm r hr
    · obtain ⟨hready, hw⟩ := hnew n hnm r hr
      rwa [← hs.resolveInput_eq hp hgrow hn hnm hready]

theorem Orderly.sound {h : List Event} (ho : x.Orderly ids program h)
    (hp : program.Layered graph) : x.Sound ids program (tally h).results := by
  induction ho with
  | nil => exact ⟨by simp [Results.ids], by simp [Results.ids], by simp [Results.ids], by simp⟩
  | @snoc h e ho ha ih =>
    cases e with
    | joined os =>
      have hnodup := (Orderly.snoc ho ha).nodup_ids
      rw [tally_joined] at hnodup ⊢
      refine ih.join hp hnodup fun id r hr => ?_
      obtain ⟨s, hs, hid, hw⟩ := exists_of_mem_zipWith ha hr
      obtain ⟨n, hd⟩ := ho.running s hs
      refine ⟨n, s.1, s.2, hd, ?_, hw⟩
      rw [← hid, hd.invocation_eq]
      rfl
    | started | called | told | slept | warned => simpa using ih

end

end Executor

end Flowgraph
