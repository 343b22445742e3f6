import Flowgraph.Proofs.Dependency.Cycle

/-! How deep a node lies. A stage takes the nodes whose longest chain of dependencies is as long as the
stage's number; a node that is left over has chains of any length, since one of them comes from a
cycle. -/

namespace Flowgraph

/-- A chain of so many steps ends there. -/
inductive Chain {α : Type} (r : α → α → Prop) : Nat → α → Prop
  | nil {a} : Chain r 0 a
  | snoc {n a b} : Chain r n a → r a b → Chain r (n + 1) b

/-- The longest chain that ends there has so many steps. -/
def Deep {α : Type} (r : α → α → Prop) (n : Nat) (a : α) : Prop :=
  Chain r n a ∧ ∀ m, Chain r m a → m ≤ n

theorem Deep.unique {α : Type} {r : α → α → Prop} {m n : Nat} {a : α} (hm : Deep r m a)
    (hn : Deep r n a) : m = n :=
  Nat.le_antisymm (hn.2 m hm.1) (hm.2 n hn.1)

theorem not_self_of_acc {α : Type} {r : α → α → Prop} {a : α} (h : Acc r a) : ¬ r a a := by
  induction h with
  | intro a _ ih =>
    intro haa
    exact ih a haa haa

namespace DependencyGraph

variable {size : Nat} (g : DependencyGraph size)

/-- The node is in the stage of this number. -/
def InStage (k : Nat) (i : Fin size) : Prop := ∃ stage, g.order.stages[k]? = some stage ∧ i ∈ stage

variable {g} {i j : Fin size} {k n : Nat}

theorem mem_flatten_iff : i ∈ g.order.stages.flatten ↔ ∃ k, g.InStage k i := by
  constructor
  · intro hi
    obtain ⟨stage, hstage, hmem⟩ := List.mem_flatten.1 hi
    obtain ⟨k, hk⟩ := List.mem_iff_getElem?.1 hstage
    exact ⟨k, stage, hk, hmem⟩
  · rintro ⟨k, stage, hk, hmem⟩
    exact List.mem_flatten.2 ⟨stage, List.mem_of_getElem? hk, hmem⟩

theorem staged_or_unresolved (g : DependencyGraph size) (i : Fin size) :
    (∃ k, g.InStage k i) ∨ i ∈ g.order.unresolved := by
  rw [← mem_flatten_iff, ← List.mem_append]
  exact g.order_perm.mem_iff.2 (List.mem_finRange i)

/-- The stages before one that is met, and those after it. -/
theorem InStage.split (h : g.InStage k i) : ∃ before : List (List (Fin size)), ∃ stage after,
    g.order.stages = before ++ stage :: after ∧ before.length = k ∧ i ∈ stage := by
  obtain ⟨stage, hk, hmem⟩ := h
  obtain ⟨hlt, rfl⟩ := List.getElem?_eq_some_iff.1 hk
  refine ⟨g.order.stages.take k, g.order.stages[k], g.order.stages.drop (k + 1), ?_, ?_, hmem⟩
  · rw [← List.drop_eq_getElem_cons hlt, List.take_append_drop]
  · rw [List.length_take]
    omega

theorem inStage_of_split {before after : List (List (Fin size))} {stage : List (Fin size)}
    (hsplit : g.order.stages = before ++ stage :: after) (hi : i ∈ stage) :
    g.InStage before.length i :=
  ⟨stage, by simp [hsplit], hi⟩

/-- A node comes later than all that it depends on. -/
theorem InStage.feeds (hg : g.Simple) (h : g.InStage k i) (hj : g.Feeds j i) :
    ∃ l < k, g.InStage l j := by
  obtain ⟨before, stage, after, hsplit, rfl, hi⟩ := h.split
  obtain ⟨stage', hstage', hmem⟩ := List.mem_flatten.1 (mem_stage_of_order hg hsplit hi hj)
  obtain ⟨first, middle, rfl⟩ := List.append_of_mem hstage'
  have hfirst : g.order.stages = first ++ stage' :: (middle ++ stage :: after) := by
    rw [hsplit, List.append_assoc, List.cons_append]
  exact ⟨first.length, by simp, inStage_of_split hfirst hmem⟩

/-- A node of a later stage depends on one of the stage before. -/
theorem InStage.held (hg : g.Simple) (h : g.InStage (k + 1) i) : ∃ j, g.InStage k j ∧ g.Feeds j i := by
  obtain ⟨before, next, after, hsplit, hlen, hi⟩ := h.split
  obtain ⟨first, stage, rfl⟩ : ∃ first stage, before = first ++ [stage] :=
    ⟨_, _, (List.dropLast_append_getLast (List.ne_nil_of_length_eq_add_one hlen)).symm⟩
  rw [List.append_assoc, List.singleton_append] at hsplit
  obtain ⟨j, hj, hji⟩ := feeds_of_order_next hg hsplit hi
  have hlen : first.length = k := by simpa using hlen
  exact ⟨j, hlen ▸ inStage_of_split hsplit hj, hji⟩

theorem InStage.chain (hg : g.Simple) (h : g.InStage k i) : Chain g.Feeds k i := by
  induction k generalizing i with
  | zero => exact .nil
  | succ k ih =>
    obtain ⟨j, hj, hji⟩ := h.held hg
    exact .snoc (ih hj) hji

theorem InStage.le (hg : g.Simple) (h : g.InStage k i) (hc : Chain g.Feeds n i) : n ≤ k := by
  induction hc generalizing k with
  | nil => exact Nat.zero_le k
  | snoc _ hji ih =>
    obtain ⟨l, hl, hj⟩ := h.feeds hg hji
    exact (Nat.succ_le_succ (ih hj)).trans hl

theorem chain_of_unresolved (hg : g.Simple) (hi : i ∈ g.order.unresolved) (n : Nat) :
    Chain g.Feeds n i := by
  induction n generalizing i with
  | zero => exact .nil
  | succ n ih =>
    obtain ⟨j, hj, hji⟩ := feeds_of_peel hg (List.nodup_finRange size) counts_inDegrees hi
    exact .snoc (ih hj) hji

/-- A node is in the stage whose number is the length of its longest chain of dependencies. -/
theorem inStage_iff (hg : g.Simple) : g.InStage k i ↔ Deep g.Feeds k i := by
  constructor
  · intro h
    exact ⟨h.chain hg, fun n hc => h.le hg hc⟩
  · intro h
    rcases g.staged_or_unresolved i with ⟨l, hl⟩ | hi
    · have hdeep : Deep g.Feeds l i := ⟨hl.chain hg, fun n hc => hl.le hg hc⟩
      exact hdeep.unique h ▸ hl
    · have hle := h.2 (k + 1) (chain_of_unresolved hg hi (k + 1))
      omega

theorem acc_of_inStage (hg : g.Simple) (h : g.InStage k i) : Acc g.Feeds i := by
  obtain ⟨before, stage, after, hsplit, -, hi⟩ := h.split
  exact acc_of_stage hg hsplit hi

/-- Left over are the nodes on a cycle and those behind one. -/
theorem mem_unresolved_iff (hg : g.Simple) :
    i ∈ g.order.unresolved ↔ ∃ j, g.Precedes j j ∧ Relation.ReflTransGen g.Feeds j i := by
  constructor
  · intro hi
    by_contra hnone
    -- Below the node nothing lies on a cycle, so among the nodes left over there one comes first.
    let Below := {j // Relation.ReflTransGen g.Feeds j i}
    have htrans : IsTrans Below fun a b => g.Precedes a.1 b.1 :=
      ⟨fun _ _ _ => Relation.TransGen.trans⟩
    have hirrefl : Std.Irrefl fun a b : Below => g.Precedes a.1 b.1 :=
      ⟨fun a ha => hnone ⟨a.1, ha, a.2⟩⟩
    have hwf := Finite.wellFounded_of_trans_of_irrefl fun a b : Below => g.Precedes a.1 b.1
    obtain ⟨a, ha, hmin⟩ := hwf.has_min {a : Below | a.1 ∈ g.order.unresolved} ⟨⟨i, .refl⟩, hi⟩
    obtain ⟨j, hj, hja⟩ := feeds_of_peel hg (List.nodup_finRange size) counts_inDegrees ha
    exact hmin ⟨j, .head hja a.2⟩ hj (.single hja)
  · rintro ⟨j, hcycle, hji⟩
    refine (g.staged_or_unresolved i).resolve_left ?_
    rintro ⟨k, hk⟩
    have hacc : Acc g.Feeds j := by
      clear hcycle
      induction hji using Relation.ReflTransGen.head_induction_on with
      | refl => exact acc_of_inStage hg hk
      | head hab _ ih => exact ih.inv hab
    exact not_self_of_acc hacc.transGen hcycle

end DependencyGraph

end Flowgraph
