import Flowgraph.Proofs.Dependency.Stages
import Mathlib.Data.Fintype.EquivFin
import Mathlib.Order.WellFounded

/-! Nodes are left over when the stages are peeled off exactly if there is a cycle. A node that is
left over waits for another one of them; a staged node waits for earlier stages only. -/

namespace Flowgraph.DependencyGraph

variable {size : Nat} {g : DependencyGraph size}

/-- Each node that is left over depends on one of them. -/
theorem feeds_of_peel (hg : g.Simple) {ds : Degrees size} {remaining : List (Fin size)}
    (hr : remaining.Nodup) (h : g.Counts ds remaining.contains) {i : Fin size}
    (hi : i ∈ (g.peel ds remaining).unresolved) :
    ∃ j ∈ (g.peel ds remaining).unresolved, g.Feeds j i := by
  induction ds, remaining using peel.induct g with
  | case1 ds remaining s hs =>
    rw [g.peel_eq_nil hs] at hi ⊢
    have hwait : ds.get i ≠ 0 := by
      intro h0
      have : i ∈ ready ds remaining := List.mem_filter.2 ⟨hi, decide_eq_true h0⟩
      rw [show ready ds remaining = [] from hs] at this
      cases this
    rw [h i] at hwait
    obtain ⟨j, hj, hjr⟩ := List.countP_pos_iff.1 (Nat.pos_of_ne_zero hwait)
    exact ⟨j, by simpa using hjr, hj⟩
  | case2 ds remaining s hs _ ih =>
    rw [g.peel_eq_cons hs] at hi ⊢
    exact ih (hr.filter _) (h.waiting hg hr) hi

/-- No chain of dependencies goes on forever below a staged node. -/
theorem acc_of_stage (hg : g.Simple) {before : List (List (Fin size))} {stage : List (Fin size)}
    {after : List (List (Fin size))} (hsplit : g.order.stages = before ++ stage :: after)
    {i : Fin size} (hi : i ∈ stage) : Acc g.Feeds i := by
  induction hn : before.length using Nat.strongRecOn generalizing before stage after i with
  | _ n ih =>
    refine .intro i fun j hj => ?_
    obtain ⟨stage', hstage, hmem⟩ := List.mem_flatten.1 (mem_stage_of_order hg hsplit hi hj)
    obtain ⟨before', after', rfl⟩ := List.append_of_mem hstage
    refine ih before'.length ?_ (hsplit.trans (List.append_assoc ..)) hmem rfl
    simp at hn
    omega

theorem unresolved_eq_nil_iff (hg : g.Simple) :
    g.order.unresolved = [] ↔ ∀ i, ¬ g.Precedes i i := by
  constructor
  · intro hnil i hcycle
    have hwf : WellFounded g.Feeds := by
      refine ⟨fun j => ?_⟩
      have hj : j ∈ g.order.stages.flatten := by
        have := (g.order_perm.mem_iff (a := j)).2 (List.mem_finRange j)
        simpa [hnil] using this
      obtain ⟨stage, hstage, hmem⟩ := List.mem_flatten.1 hj
      obtain ⟨before, after, hsplit⟩ := List.append_of_mem hstage
      exact acc_of_stage hg hsplit hmem
    exact hwf.transGen.irrefl.irrefl i hcycle
  · intro acyclic
    by_contra hne
    have hwf : WellFounded g.Precedes := by
      have : IsTrans (Fin size) g.Precedes := ⟨fun _ _ _ => Relation.TransGen.trans⟩
      have : Std.Irrefl g.Precedes := ⟨acyclic⟩
      exact Finite.wellFounded_of_trans_of_irrefl g.Precedes
    obtain ⟨i, hi, hmin⟩ := hwf.has_min {i | i ∈ g.order.unresolved}
      (List.exists_mem_of_ne_nil _ hne)
    obtain ⟨j, hj, hji⟩ := feeds_of_peel hg (List.nodup_finRange size) counts_inDegrees hi
    exact hmin j hj (.single hji)

end Flowgraph.DependencyGraph
