import Flowgraph.Proofs.Executor.Alone

/-! Failing calls do not show in what a run does. Results are determined by the program alone, so
two runs that differ in which calls fail start the same steps and report the same. -/

namespace Flowgraph

/-- Which calls fail, each known by how many came before it and what it asks for. -/
abbrev FaultPattern := Nat → Call → Option StoreError

/-- A store that counts the calls made so far. -/
structure Metered where
  store : MemoryStore
  supply : Supply
  calls : Nat

namespace FaultPattern

def answer (f : FaultPattern) (s : Metered) (c : Call) : c.Reply × Metered :=
  match f s.calls c with
  | some e => (.error e, { s with calls := s.calls + 1 })
  | none =>
    let (reply, store, supply) := s.store.answer s.supply c
    (reply, ⟨store, supply, s.calls + 1⟩)

def service (f : FaultPattern) : Service Metered where
  answer := f.answer
  now s :=
    let (t, supply) := s.supply.now
    (t, { s with supply })

theorem backed (f : FaultPattern) :
    f.service.Backed (.alone True) Metered.store fun _ => True := by
  refine ⟨fun s c _ => ?_, fun _ => rfl, fun _ _ _ => trivial, fun _ _ => trivial⟩
  simp only [service, answer]
  cases f s.calls c with
  | some e => exact .refused trivial
  | none => exact .served trivial rfl

end FaultPattern

namespace Executor

variable {x : Executor} {ids : RunIds} {program : Program} {graph : Graph}

section

variable {R S : Results}

/-- A node has the same result in both if all its ancestors have. -/
theorem Complete.lookup_step (hx : x.registry.Silent) (hp : program.Layered graph)
    (hR : x.Complete ids program R) (hS : x.Complete ids program S) {n : CompiledNode}
    (hn : n ∈ program.nodes) (hup : ∀ a, graph.Upstream a n.id → R.lookup a = S.lookup a) :
    (n.Ready R ↔ n.Ready S) ∧ R.lookup n.id = S.lookup n.id := by
  have hready : n.Ready R ↔ n.Ready S := by
    refine forall₂_congr fun d hd => ?_
    have hd : graph.Upstream d n.id := .single ((hp.mem_dependencies n hn d).1 hd)
    rw [Results.Succeeded, Results.Succeeded, Results.status_congr (hup d hd)]
  refine ⟨hready, ?_⟩
  by_cases hr : n.Ready R
  · obtain ⟨r, hlookup⟩ := Results.mem_ids_iff.1 ((hR.mem_ids_iff hn).2 hr)
    obtain ⟨r', hlookup'⟩ := Results.mem_ids_iff.1 ((hS.mem_ids_iff hn).2 (hready.1 hr))
    have hinput : n.resolveInput R.outputs = n.resolveInput S.outputs := by
      refine CompiledNode.resolveInput_congr fun ref href => ?_
      rw [Results.lookup_outputs hR.nodup, Results.lookup_outputs hS.nodup,
        hup _ (hp.upstream n hn ref href)]
    obtain ⟨o, ho, rfl⟩ := hR.comes n hn r hlookup
    obtain ⟨o', ho', rfl⟩ := hS.comes n hn r' hlookup'
    rw [hinput] at ho
    have ho := (silent_work hx ids n _).comesTo_unique ho ho'
    rw [hlookup, hlookup', ho]
  · rw [Results.lookup_eq_none fun hid => hr ((hR.mem_ids_iff hn).1 hid),
      Results.lookup_eq_none fun hid => hr (hready.2 ((hS.mem_ids_iff hn).1 hid))]

/-- The results of a run on its own are determined by the program. -/
theorem Complete.unique (hx : x.registry.Silent) (hp : program.Layered graph)
    (hR : x.Complete ids program R) (hS : x.Complete ids program S) : R = S := by
  have hall : ∀ n ∈ program.nodes, (n.Ready R ↔ n.Ready S) ∧ R.lookup n.id = S.lookup n.id := by
    refine hp.induction fun n hn ih => hR.lookup_step hx hp hS hn fun a ha => ?_
    obtain ⟨m, hm, rfl, -⟩ := hp.exists_of_upstream hn ha
    exact (ih m hm ha).2
  have hids : R.ids = S.ids := by
    rw [hR.ids_eq, hS.ids_eq]
    congr 1
    exact List.filter_congr fun n hn => by simp [(hall n hn).1]
  refine eq_of_lookup hids hR.nodup fun id => ?_
  by_cases hid : id ∈ R.ids
  · obtain ⟨n, hn, rfl⟩ := hR.known id hid
    exact (hall n hn).2
  · rw [Results.lookup_eq_none hid, Results.lookup_eq_none (hids ▸ hid)]

end

/-- Whatever calls fail in two runs of an execution that is fresh in both stores, both start the
same steps on the same inputs in the same order, and come to the same report. -/
theorem drive_faults_invisible (hc : x.compile graph = .ok program) (hx : x.registry.Silent)
    (hmax : x.config.maxLogRetries.toNat + 1 < UInt32.size) (ids : RunIds) (f g : FaultPattern)
    {s t : Metered} (hs : Fresh ids.execution s.store) (ht : Fresh ids.execution t.store) :
    ∃ report started,
      ((x.drive ids program).perform f.service (.new s)).1 = some report ∧
      ((x.drive ids program).perform f.service (.new s)).2.started = started ∧
      ((x.drive ids program).perform g.service (.new t)).1 = some report ∧
      ((x.drive ids program).perform g.service (.new t)).2.started = started := by
  have hp := Graph.compile_layered hc
  obtain ⟨R, hR, hreport, hstarted⟩ := perform_drive_alone ids f.backed trivial hx hp hs
    fun h _ _ => not_exhausted hmax h
  obtain ⟨S, hS, hreport', hstarted'⟩ := perform_drive_alone ids g.backed trivial hx hp ht
    fun h _ _ => not_exhausted hmax h
  obtain rfl := hR.unique hx hp hS
  exact ⟨_, _, hreport, hstarted, hreport', hstarted'⟩

/-- Two nodes, once with a store that never answers and once with one that always does. -/
theorem relay_faults_invisible : ∃ program report started,
    let ids : RunIds := ⟨.ofNat 1, .ofNat 2⟩
    let dead : FaultPattern := fun _ _ => some (.unavailable "gone")
    let sound : FaultPattern := fun _ _ => none
    let first : Progress Metered := .new ⟨.opened ids, ⟨0, 0⟩, 0⟩
    echoing.compile .relay = .ok program ∧
    ((echoing.drive ids program).perform dead.service first).1 = some report ∧
    ((echoing.drive ids program).perform dead.service first).2.started = started ∧
    ((echoing.drive ids program).perform sound.service first).1 = some report ∧
    ((echoing.drive ids program).perform sound.service first).2.started = started := by
  obtain ⟨program, hc⟩ := relay_compiles
  have hfresh := fresh_opened ⟨.ofNat 1, .ofNat 2⟩
  obtain ⟨report, started, hrun⟩ := drive_faults_invisible hc echoing_silent
    (by decide) ⟨.ofNat 1, .ofNat 2⟩ (fun _ _ => some (.unavailable "gone")) (fun _ _ => none)
    (s := ⟨_, ⟨0, 0⟩, 0⟩) (t := ⟨_, ⟨0, 0⟩, 0⟩) hfresh hfresh
  exact ⟨program, report, started, hc, hrun⟩

end Executor

end Flowgraph
