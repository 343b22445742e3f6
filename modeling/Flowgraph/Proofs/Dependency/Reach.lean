import Flowgraph.Dependency
import Mathlib.Logic.Relation

/-! The search for ancestors marks a node exactly if a chain of dependencies leads to it. It
marks nothing else, and when it ends all that a marked node depends on is marked too. -/

namespace Flowgraph.DependencyGraph

variable {size : Nat} (g : DependencyGraph size)

/-- The second node depends on the first. -/
def Feeds (i j : Fin size) : Prop := i ∈ g.dependencies.get j

/-- The second node depends on the first, directly or not. -/
def Precedes : Fin size → Fin size → Prop := Relation.TransGen g.Feeds

theorem of_reach {seen : Vector Bool size} {queue : List (Fin size)} {k : Fin size}
    (h : (g.reach seen queue).get k = true) :
    seen.get k = true ∨ ∃ i ∈ queue, Relation.ReflTransGen g.Feeds k i := by
  induction seen, queue using reach.induct g with
  | case1 seen => rw [reach] at h; exact Or.inl h
  | case2 seen i rest hi ih =>
    rw [reach, dif_pos hi] at h
    rcases ih h with hk | ⟨j, hj, hkj⟩
    · exact Or.inl hk
    · exact Or.inr ⟨j, List.mem_cons_of_mem _ hj, hkj⟩
  | case3 seen i rest hi ih =>
    rw [reach, dif_neg hi] at h
    rcases ih h with hk | ⟨j, hj, hkj⟩
    · by_cases hik : i = k
      · subst hik
        exact Or.inr ⟨i, List.mem_cons_self, .refl⟩
      · have hne : i.val ≠ k.val := fun e => hik (Fin.ext e)
        have hset : (seen.set i true i.isLt).get k = seen.get k :=
          Vector.getElem_set_ne i.isLt k.isLt hne
        exact Or.inl (hset ▸ hk)
    · rcases List.mem_append.1 hj with hj | hj
      · exact Or.inr ⟨i, List.mem_cons_self, hkj.tail hj⟩
      · exact Or.inr ⟨j, List.mem_cons_of_mem _ hj, hkj⟩

/-- What is marked stays marked. -/
theorem get_set_of_get {seen : Vector Bool size} {i k : Fin size} (h : seen.get k = true) :
    (seen.set i true i.isLt).get k = true := by
  by_cases hik : i.val = k.val
  · exact (Vector.getElem_set i.isLt k.isLt).trans (if_pos hik)
  · exact (Vector.getElem_set_ne i.isLt k.isLt hik).trans h

theorem get_set_self {seen : Vector Bool size} {i : Fin size} :
    (seen.set i true i.isLt).get i = true :=
  Vector.getElem_set_self i.isLt

theorem reach_of_seen {seen : Vector Bool size} {queue : List (Fin size)} {k : Fin size}
    (h : seen.get k = true) : (g.reach seen queue).get k = true := by
  induction seen, queue using reach.induct g with
  | case1 seen => rw [reach]; exact h
  | case2 seen i rest hi ih => rw [reach, dif_pos hi]; exact ih h
  | case3 seen i rest hi ih =>
    rw [reach, dif_neg hi]
    exact ih (get_set_of_get h)

theorem reach_of_queued {seen : Vector Bool size} {queue : List (Fin size)} {k : Fin size}
    (h : k ∈ queue) : (g.reach seen queue).get k = true := by
  induction seen, queue using reach.induct g with
  | case1 seen => simp at h
  | case2 seen i rest hi ih =>
    rw [reach, dif_pos hi]
    rcases List.mem_cons.1 h with rfl | h
    · exact g.reach_of_seen hi
    · exact ih h
  | case3 seen i rest hi ih =>
    rw [reach, dif_neg hi]
    rcases List.mem_cons.1 h with rfl | h
    · exact g.reach_of_seen get_set_self
    · exact ih (List.mem_append_right _ h)

/-- What a marked node depends on is marked or waits in the queue, so at the end it is marked. -/
theorem reach_closed {seen : Vector Bool size} {queue : List (Fin size)}
    (hseen : ∀ i, seen.get i = true → ∀ j, g.Feeds j i → seen.get j = true ∨ j ∈ queue)
    {i j : Fin size} (hi : (g.reach seen queue).get i = true) (hj : g.Feeds j i) :
    (g.reach seen queue).get j = true := by
  induction seen, queue using reach.induct g with
  | case1 seen =>
    rw [reach] at hi ⊢
    rcases hseen i hi j hj with h | h
    · exact h
    · simp at h
  | case2 seen q rest hq ih =>
    rw [reach, dif_pos hq] at hi ⊢
    refine ih (fun a ha b hb => ?_) hi
    rcases hseen a ha b hb with h | h
    · exact Or.inl h
    · rcases List.mem_cons.1 h with rfl | h
      · exact Or.inl hq
      · exact Or.inr h
  | case3 seen q rest hq ih =>
    rw [reach, dif_neg hq] at hi ⊢
    refine ih (fun a ha b hb => ?_) hi
    by_cases hqa : q = a
    · subst hqa
      exact Or.inr (List.mem_append_left _ hb)
    · have hne : q.val ≠ a.val := fun e => hqa (Fin.ext e)
      have hset : (seen.set q true q.isLt).get a = seen.get a :=
        Vector.getElem_set_ne q.isLt a.isLt hne
      rcases hseen a (hset ▸ ha) b hb with h | h
      · exact Or.inl (get_set_of_get h)
      · rcases List.mem_cons.1 h with rfl | h
        · exact Or.inl get_set_self
        · exact Or.inr (List.mem_append_right _ h)

theorem get_replicate (i : Fin size) : (Vector.replicate size false).get i ≠ true := by
  have hget : (Vector.replicate size false).get i = false := Vector.getElem_replicate i.isLt
  simp [hget]

theorem isAncestor_iff {j i : Fin size} : g.isAncestor j i = true ↔ g.Precedes j i := by
  constructor
  · intro h
    rcases g.of_reach h with h | ⟨k, hk, hjk⟩
    · exact absurd h (get_replicate j)
    · exact Relation.TransGen.tail' hjk hk
  · intro h
    have hclosed : ∀ {a b : Fin size}, g.isAncestor a i = true → g.Feeds b a →
        g.isAncestor b i = true :=
      fun ha hb => g.reach_closed (fun k hk => absurd hk (get_replicate k)) ha hb
    induction h using Relation.TransGen.head_induction_on with
    | single h => exact g.reach_of_queued h
    | head hab _ ih => exact hclosed ih hab

end Flowgraph.DependencyGraph
