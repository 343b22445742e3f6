import Flowgraph.Proofs.Dependency.Reach
import Mathlib.Data.List.Perm.Basic

/-! Peeling off stages. The degree of a node is the number of its dependencies that no stage has
taken, so a stage takes a node only when earlier stages hold all that it depends on. -/

namespace Flowgraph.DependencyGraph

variable {size : Nat} (g : DependencyGraph size)

theorem foldl_decrement {l : List (Fin size)} (hl : l.Nodup) (ds : Degrees size) (j : Fin size) :
    (l.foldl (fun ds (i : Fin size) => ds.set i (ds.get i - 1) i.isLt) ds).get j =
      if l.contains j then ds.get j - 1 else ds.get j := by
  induction l generalizing ds with
  | nil => simp
  | cons i rest ih =>
    obtain ⟨hi, hrest⟩ := List.nodup_cons.1 hl
    rw [List.foldl_cons, ih hrest]
    by_cases hij : i = j
    · subst hij
      have hset : (ds.set i (ds.get i - 1) i.isLt).get i = ds.get i - 1 :=
        Vector.getElem_set_self i.isLt
      simp [hi, hset]
    · have hne : i.val ≠ j.val := fun e => hij (Fin.ext e)
      have hji : j ≠ i := fun e => hij e.symm
      have hset : (ds.set i (ds.get i - 1) i.isLt).get j = ds.get j :=
        Vector.getElem_set_ne i.isLt j.isLt hne
      simp [hset, hji]

theorem mem_dependents {i j : Fin size} : j ∈ g.dependents i ↔ g.Feeds i j := by
  rw [dependents, List.mem_filter, decide_eq_true_eq]
  exact and_iff_right (List.mem_finRange j)

theorem nodup_dependents (i : Fin size) : (g.dependents i).Nodup :=
  (List.nodup_finRange size).filter _

theorem get_release (ds : Degrees size) (i j : Fin size) :
    (g.release ds i).get j =
      if (g.dependencies.get j).contains i then ds.get j - 1 else ds.get j := by
  refine (foldl_decrement (g.nodup_dependents i) ds j).trans ?_
  simp only [List.contains_iff_mem, mem_dependents, Feeds]

/-- Every degree counts the dependencies that are among these nodes. -/
def Counts (ds : Degrees size) (p : Fin size → Bool) : Prop :=
  ∀ j, ds.get j = (g.dependencies.get j).countP p

/-- No list of dependencies names a node twice. -/
def Simple : Prop := ∀ j, (g.dependencies.get j).Nodup

theorem countP_eq_add_one {α : Type} [DecidableEq α] {l : List α} (hl : l.Nodup) {p : α → Bool}
    {a : α} (ha : a ∈ l) (hp : p a = true) :
    l.countP p = l.countP (fun b => p b && b ≠ a) + 1 := by
  induction l with
  | nil => simp at ha
  | cons b rest ih =>
    obtain ⟨hb, hrest⟩ := List.nodup_cons.1 hl
    rcases List.mem_cons.1 ha with rfl | ha
    · have hcongr : rest.countP (fun b => p b && b ≠ a) = rest.countP p := by
        refine List.countP_congr fun c hc => ?_
        have hca : c ≠ a := fun e => hb (e ▸ hc)
        simp [hca]
      rw [List.countP_cons_of_pos hp, List.countP_cons_of_neg (by simp), hcongr]
    · have hba : b ≠ a := fun e => hb (e ▸ ha)
      simp only [List.countP_cons, ih hrest ha]
      simp [hba]
      omega

variable {g}

theorem Counts.release (hg : g.Simple) {ds : Degrees size} {p : Fin size → Bool}
    (h : g.Counts ds p) {i : Fin size} (hi : p i = true) :
    g.Counts (g.release ds i) fun k => p k && k ≠ i := by
  intro j
  rw [get_release, h j]
  split
  · next hij =>
    rw [countP_eq_add_one (hg j) (List.contains_iff_mem.1 hij) hi, Nat.add_sub_cancel]
  · next hij =>
    refine List.countP_congr fun k hk => ?_
    have hki : k ≠ i := fun e => hij (List.contains_iff_mem.2 (e ▸ hk))
    simp [hki]

theorem Counts.congr {ds : Degrees size} {p q : Fin size → Bool} (h : g.Counts ds p)
    (hpq : ∀ k, p k = q k) : g.Counts ds q := by
  rwa [show q = p from funext fun k => (hpq k).symm]

theorem Counts.foldl_release (hg : g.Simple) {stage : List (Fin size)} (hs : stage.Nodup)
    {ds : Degrees size} {p : Fin size → Bool} (h : g.Counts ds p)
    (hp : ∀ i ∈ stage, p i = true) :
    g.Counts (stage.foldl g.release ds) fun k => p k && !stage.contains k := by
  induction stage generalizing ds p with
  | nil => exact h.congr fun k => by simp
  | cons i rest ih =>
    obtain ⟨hi, hrest⟩ := List.nodup_cons.1 hs
    have h1 := h.release hg (hp i List.mem_cons_self)
    have h2 := ih hrest h1 fun k hk => by
      have hki : k ≠ i := fun e => hi (e ▸ hk)
      simp [hp k (List.mem_cons_of_mem _ hk), hki]
    refine h2.congr fun k => ?_
    by_cases hki : k = i <;> simp [hki]

variable (g)

/-- The nodes that remain after a stage are those that were not ready. -/
theorem mem_remaining_iff {ds : Degrees size} {remaining : List (Fin size)} {k : Fin size} :
    k ∈ remaining ∧ k ∉ ready ds remaining ↔ k ∈ waiting ds remaining := by
  simp only [ready, waiting, List.mem_filter, decide_eq_true_eq, ne_eq, decide_not,
    Bool.not_eq_true', decide_eq_false_iff_not]
  constructor
  · rintro ⟨hk, hn⟩
    exact ⟨hk, fun h0 => hn ⟨hk, h0⟩⟩
  · rintro ⟨hk, h0⟩
    exact ⟨hk, fun h => h0 h.2⟩

theorem peel_eq_nil {ds : Degrees size} {remaining : List (Fin size)}
    (h : ready ds remaining = []) : g.peel ds remaining = ⟨[], remaining⟩ := by
  rw [peel, dif_pos h]

theorem peel_eq_cons {ds : Degrees size} {remaining : List (Fin size)}
    (h : ready ds remaining ≠ []) :
    g.peel ds remaining =
      ⟨ready ds remaining ::
          (g.peel ((ready ds remaining).foldl g.release ds) (waiting ds remaining)).stages,
        (g.peel ((ready ds remaining).foldl g.release ds) (waiting ds remaining)).unresolved⟩ := by
  rw [peel, dif_neg h]

theorem peel_perm (ds : Degrees size) (remaining : List (Fin size)) :
    ((g.peel ds remaining).stages.flatten ++ (g.peel ds remaining).unresolved).Perm remaining := by
  induction ds, remaining using peel.induct g with
  | case1 ds remaining stage h => rw [g.peel_eq_nil h]; simp
  | case2 ds remaining stage h _ ih =>
    rw [g.peel_eq_cons h]
    simp only [List.flatten_cons, List.append_assoc]
    refine (ih.append_left _).trans ?_
    simpa [ready, waiting] using List.filter_append_perm (fun i : Fin size => ds[i] = 0) remaining

variable {g}

theorem Counts.waiting (hg : g.Simple) {ds : Degrees size} {remaining : List (Fin size)}
    (hr : remaining.Nodup) (h : g.Counts ds remaining.contains) :
    g.Counts ((ready ds remaining).foldl g.release ds)
      (DependencyGraph.waiting ds remaining).contains := by
  have hready : (ready ds remaining).Nodup := hr.filter _
  have h1 := h.foldl_release hg hready fun i hi => by simpa using List.mem_of_mem_filter hi
  refine h1.congr fun k => ?_
  rw [Bool.eq_iff_iff]
  simpa only [Bool.and_eq_true, Bool.not_eq_true', Bool.eq_false_iff, ne_eq, List.contains_iff_mem]
    using mem_remaining_iff

/-- What a node of a stage depends on lies in the stages before, unless it was placed already. -/
theorem mem_stage_of_peel (hg : g.Simple) {ds : Degrees size} {remaining : List (Fin size)}
    (hr : remaining.Nodup) (h : g.Counts ds remaining.contains)
    {before : List (List (Fin size))} {stage : List (Fin size)} {after : List (List (Fin size))}
    (hsplit : (g.peel ds remaining).stages = before ++ stage :: after) {i j : Fin size}
    (hi : i ∈ stage) (hj : g.Feeds j i) (hjr : j ∈ remaining) : j ∈ before.flatten := by
  induction ds, remaining using peel.induct g generalizing before with
  | case1 ds remaining s hs => simp [g.peel_eq_nil hs] at hsplit
  | case2 ds remaining s hs _ ih =>
    rw [g.peel_eq_cons hs] at hsplit
    cases before with
    | nil =>
      obtain ⟨rfl, -⟩ := List.cons_eq_cons.1 hsplit
      have h0 : ds.get i = 0 := of_decide_eq_true (List.mem_filter.1 hi).2
      rw [h i, List.countP_eq_zero] at h0
      exact absurd (by simpa using hjr) (h0 j hj)
    | cons first before =>
      obtain ⟨rfl, hlater⟩ := List.cons_eq_cons.1 hsplit
      rw [List.flatten_cons, List.mem_append]
      by_cases hjs : j ∈ ready ds remaining
      · exact Or.inl hjs
      · exact Or.inr (ih (hr.filter _) (h.waiting hg hr) hlater (mem_remaining_iff.1 ⟨hjr, hjs⟩))

theorem counts_inDegrees : g.Counts g.inDegrees (List.finRange size).contains := by
  intro j
  have hall : (g.dependencies.get j).countP (List.finRange size).contains =
      (g.dependencies.get j).length := List.countP_eq_length.2 fun k _ => by simp
  rw [hall]
  exact Vector.getElem_map List.length j.isLt

theorem mem_stage_of_order (hg : g.Simple) {before : List (List (Fin size))}
    {stage : List (Fin size)} {after : List (List (Fin size))}
    (hsplit : g.order.stages = before ++ stage :: after) {i j : Fin size} (hi : i ∈ stage)
    (hj : g.Feeds j i) : j ∈ before.flatten :=
  mem_stage_of_peel hg (List.nodup_finRange size) counts_inDegrees hsplit hi hj
    (List.mem_finRange j)

theorem order_perm : (g.order.stages.flatten ++ g.order.unresolved).Perm (List.finRange size) :=
  g.peel_perm _ _

variable (g)

/-- No stage is empty, and each keeps the order of the nodes that are peeled. -/
theorem stage_of_peel {ds : Degrees size} {remaining stage : List (Fin size)}
    (h : stage ∈ (g.peel ds remaining).stages) : stage ≠ [] ∧ stage.Sublist remaining := by
  induction ds, remaining using peel.induct g with
  | case1 ds remaining s hs => simp [g.peel_eq_nil hs] at h
  | case2 ds remaining s hs _ ih =>
    rw [g.peel_eq_cons hs] at h
    rcases List.mem_cons.1 h with rfl | h
    · exact ⟨hs, List.filter_sublist⟩
    · exact ⟨(ih h).1, (ih h).2.trans List.filter_sublist⟩

theorem stage_of_order {stage : List (Fin size)} (h : stage ∈ g.order.stages) :
    stage ≠ [] ∧ stage.Pairwise (· < ·) := by
  obtain ⟨hne, hsub⟩ := g.stage_of_peel h
  exact ⟨hne, (List.pairwise_lt_finRange size).sublist hsub⟩

variable {g}

/-- What a stage takes was held back by the stage before. -/
theorem feeds_of_peel_next (hg : g.Simple) {ds : Degrees size} {remaining : List (Fin size)}
    (hr : remaining.Nodup) (h : g.Counts ds remaining.contains)
    {before : List (List (Fin size))} {stage next : List (Fin size)}
    {after : List (List (Fin size))}
    (hsplit : (g.peel ds remaining).stages = before ++ stage :: next :: after) {i : Fin size}
    (hi : i ∈ next) : ∃ j ∈ stage, g.Feeds j i := by
  induction ds, remaining using peel.induct g generalizing before with
  | case1 ds remaining s hs => simp [g.peel_eq_nil hs] at hsplit
  | case2 ds remaining s hs _ ih =>
    rw [g.peel_eq_cons hs] at hsplit
    have hlater := h.waiting hg hr
    cases before with
    | cons first before =>
      obtain ⟨-, hsplit⟩ := List.cons_eq_cons.1 hsplit
      exact ih (hr.filter _) hlater hsplit
    | nil =>
      obtain ⟨rfl, hnext⟩ := List.cons_eq_cons.1 hsplit
      -- The next stage is not empty, so a second one was peeled off.
      by_cases hs' : ready (s.foldl g.release ds) (waiting ds remaining) = []
      · rw [g.peel_eq_nil hs'] at hnext
        simp at hnext
      rw [g.peel_eq_cons hs'] at hnext
      obtain ⟨rfl, -⟩ := List.cons_eq_cons.1 hnext
      obtain ⟨hwaits, hfree⟩ := List.mem_filter.1 hi
      obtain ⟨-, hheld⟩ := List.mem_filter.1 hwaits
      have hsome : (g.dependencies.get i).countP remaining.contains ≠ 0 := by
        rw [← h i]
        exact of_decide_eq_true hheld
      have hnone : (g.dependencies.get i).countP (waiting ds remaining).contains = 0 := by
        rw [← hlater i]
        exact of_decide_eq_true hfree
      obtain ⟨j, hj, hjr⟩ := List.countP_pos_iff.1 (Nat.pos_of_ne_zero hsome)
      refine ⟨j, ?_, hj⟩
      by_contra hjs
      have hjw := mem_remaining_iff.1 ⟨List.contains_iff_mem.1 hjr, hjs⟩
      exact List.countP_eq_zero.1 hnone j hj (List.contains_iff_mem.2 hjw)

theorem feeds_of_order_next (hg : g.Simple) {before : List (List (Fin size))}
    {stage next : List (Fin size)} {after : List (List (Fin size))}
    (hsplit : g.order.stages = before ++ stage :: next :: after) {i : Fin size} (hi : i ∈ next) :
    ∃ j ∈ stage, g.Feeds j i :=
  feeds_of_peel_next hg (List.nodup_finRange size) counts_inDegrees hsplit hi

end Flowgraph.DependencyGraph
