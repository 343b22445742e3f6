import Flowgraph.Proofs.Dependency.Stages
import Mathlib

/-! The stages by counters alone. A round lowers the degree of a dependent whenever one of its
dependencies is placed, queues it when its degree comes to zero, and fails if the degree is zero
already. It never fails, each counter being the number of dependencies that are not placed, and what
it queues are the nodes that are ready next. -/

namespace Flowgraph.DependencyGraph

variable {size : Nat}

/-- Where a round stands: the degrees, and the nodes queued for the next one. -/
structure Front (size : Nat) where
  degrees : Degrees size
  queue : List (Fin size)

namespace Front

/-- Lowers the degree of a node, and queues the node if that leaves zero. -/
def lower? (f : Front size) (j : Fin size) : Option (Front size) :=
  if f.degrees.get j = 0 then none
  else
    let degrees := f.degrees.set j (f.degrees.get j - 1) j.isLt
    some ⟨degrees, if degrees.get j = 0 then f.queue ++ [j] else f.queue⟩

/-- No round can go on longer. -/
def weight (f : Front size) : Nat := f.degrees.toList.sum + f.queue.length

end Front

theorem sum_lowered {degrees : Degrees size} {j : Fin size} (h : degrees.get j ≠ 0) :
    (degrees.set j (degrees.get j - 1) j.isLt).toList.sum + 1 = degrees.toList.sum := by
  have hset : ∀ n, (degrees.set j n j.isLt).toList.sum =
      (degrees.toList.take j).sum + n + (degrees.toList.drop (j + 1)).sum := by
    intro n
    rw [Vector.toList_set, List.sum_set, if_pos (by simp)]
  have hself : degrees.set j (degrees.get j) j.isLt = degrees := Vector.set_getElem_self j.isLt
  have hsum := hset (degrees.get j)
  rw [hself] at hsum
  have hlowered := hset (degrees.get j - 1)
  omega

theorem Front.weight_of_lower? {f f' : Front size} {j : Fin size} (h : f.lower? j = some f') :
    f'.weight ≤ f.weight := by
  unfold lower? at h
  split at h
  · cases h
  · next hj =>
    obtain rfl := Option.some.inj h
    have hsum := sum_lowered hj
    simp only [weight]
    split
    · rw [List.length_append, List.length_singleton]
      omega
    · omega

theorem weight_of_foldlM {α : Type} {step : Front size → α → Option (Front size)}
    (hstep : ∀ {f f' a}, step f a = some f' → f'.weight ≤ f.weight) {l : List α}
    {f f' : Front size} (h : l.foldlM step f = some f') : f'.weight ≤ f.weight := by
  induction l generalizing f with
  | nil =>
    obtain rfl := Option.some.inj h
    exact Nat.le_refl _
  | cons a rest ih =>
    rw [List.foldlM_cons] at h
    obtain ⟨mid, hmid, hrest⟩ := Option.bind_eq_some_iff.1 h
    exact Nat.le_trans (ih hrest) (hstep hmid)

variable (g : DependencyGraph size)

/-- Places a node: the degree of everything that depends on it goes down. -/
def place? (f : Front size) (i : Fin size) : Option (Front size) :=
  (g.dependents i).foldlM Front.lower? f

def round? (degrees : Degrees size) (stage : List (Fin size)) : Option (Front size) :=
  stage.foldlM g.place? ⟨degrees, []⟩

theorem weight_of_round? {degrees : Degrees size} {stage : List (Fin size)} {f : Front size}
    (h : g.round? degrees stage = some f) : f.weight ≤ degrees.toList.sum :=
  weight_of_foldlM (fun hplace => weight_of_foldlM Front.weight_of_lower? hplace) h

/-- Round by round, until nothing is queued. -/
def rounds? (degrees : Degrees size) (stage : List (Fin size)) : Option (List (List (Fin size))) :=
  if stage = [] then some []
  else
    match h : g.round? degrees stage with
    | none => none
    | some f =>
      have := g.weight_of_round? h
      (rounds? f.degrees (f.queue.mergeSort (· ≤ ·))).map (stage :: ·)
termination_by degrees.toList.sum + min 1 stage.length
decreasing_by
  have hstage : stage.length ≠ 0 := by simpa using ‹¬ stage = []›
  simp only [Front.weight] at this
  rw [List.length_mergeSort]
  omega

/-- The nodes by stage, if no counter goes below zero; those that were never queued are left over. -/
def counted? : Option (StageOrder size) :=
  let first := (List.finRange size).filter fun i => g.inDegrees.get i = 0
  (g.rounds? g.inDegrees first).map fun stages =>
    ⟨stages, (List.finRange size).filter (!stages.flatten.contains ·)⟩

section

variable {degrees : Degrees size} {queue : List (Fin size)} {i j : Fin size}

theorem lower?_eq (h : degrees.get j ≠ 0) :
    Front.lower? ⟨degrees, queue⟩ j = some ⟨degrees.set j (degrees.get j - 1) j.isLt,
      if degrees.get j = 1 then queue ++ [j] else queue⟩ := by
  have hset : (degrees.set j (degrees.get j - 1) j.isLt).get j = degrees.get j - 1 :=
    Vector.getElem_set_self j.isLt
  have hone : degrees.get j - 1 = 0 ↔ degrees.get j = 1 := by omega
  rw [Front.lower?, if_neg h]
  simp only [hset, hone]

theorem foldlM_lower? {l : List (Fin size)} (hl : l.Nodup) (hpos : ∀ j ∈ l, degrees.get j ≠ 0) :
    l.foldlM Front.lower? ⟨degrees, queue⟩ =
      some ⟨l.foldl (fun ds (j : Fin size) => ds.set j (ds.get j - 1) j.isLt) degrees,
        queue ++ l.filter (degrees.get · = 1)⟩ := by
  induction l generalizing degrees queue with
  | nil => simp
  | cons i rest ih =>
    obtain ⟨hi, hrest⟩ := List.nodup_cons.1 hl
    -- Lowering one node leaves the others of the list as they are.
    have hkept : ∀ j ∈ rest, (degrees.set i (degrees.get i - 1) i.isLt).get j = degrees.get j := by
      intro j hj
      have hne : i.val ≠ j.val := fun e => hi (Fin.ext e ▸ hj)
      exact Vector.getElem_set_ne i.isLt j.isLt hne
    have hfilter : rest.filter ((degrees.set i (degrees.get i - 1) i.isLt).get · = 1) =
        rest.filter (degrees.get · = 1) :=
      List.filter_congr fun j hj => by rw [hkept j hj]
    rw [List.foldlM_cons, lower?_eq (hpos i List.mem_cons_self), Option.bind_eq_bind, Option.bind_some,
      ih hrest fun j hj => hkept j hj ▸ hpos j (List.mem_cons_of_mem i hj), hfilter, List.foldl_cons,
      List.filter_cons]
    by_cases hone : degrees.get i = 1 <;> simp [hone]

theorem get_release_le (degrees : Degrees size) (i j : Fin size) :
    (g.release degrees i).get j ≤ degrees.get j := by
  rw [get_release]
  split <;> omega

theorem get_foldl_release_le (stage : List (Fin size)) (degrees : Degrees size) (j : Fin size) :
    (stage.foldl g.release degrees).get j ≤ degrees.get j := by
  induction stage generalizing degrees with
  | nil => exact Nat.le_refl _
  | cons i rest ih => exact Nat.le_trans (ih (g.release degrees i)) (g.get_release_le degrees i j)

variable {g} {p : Fin size → Bool}

/-- A node that has yet to be placed is counted by all its dependents. -/
theorem Counts.pos (h : g.Counts degrees p) (hi : p i = true) (hij : g.Feeds i j) :
    degrees.get j ≠ 0 := by
  rw [h j]
  exact Nat.pos_iff_ne_zero.1 (List.countP_pos_iff.2 ⟨i, hij, hi⟩)

theorem Counts.place?_eq (h : g.Counts degrees p) (hi : p i = true) :
    g.place? ⟨degrees, queue⟩ i =
      some ⟨g.release degrees i, queue ++ (g.dependents i).filter (degrees.get · = 1)⟩ :=
  foldlM_lower? (g.nodup_dependents i) fun _ hj => h.pos hi (g.mem_dependents.1 hj)

/-- What a round makes of its counters and its queue. -/
structure Rounded (before after : Degrees size) (queue queue' : List (Fin size)) : Prop where
  nodup : queue'.Nodup
  mem_iff : ∀ j, j ∈ queue' ↔ j ∈ queue ∨ before.get j ≠ 0 ∧ after.get j = 0

theorem Rounded.get_eq_zero {before after : Degrees size} {queue' : List (Fin size)}
    (h : Rounded before after queue queue') (hle : ∀ j, after.get j ≤ before.get j)
    (hzero : ∀ j ∈ queue, before.get j = 0) : ∀ j ∈ queue', after.get j = 0 := by
  intro j hj
  rcases (h.mem_iff j).1 hj with hj | ⟨-, hj⟩
  · exact Nat.eq_zero_of_le_zero (hzero j hj ▸ hle j)
  · exact hj

/-- As counters never go up, what is freed now or later is what is freed in all. -/
theorem Rounded.trans {before between after : Degrees size} {queue₁ queue₂ : List (Fin size)}
    (h₁ : Rounded before between queue queue₁) (h₂ : Rounded between after queue₁ queue₂)
    (hle₁ : ∀ j, between.get j ≤ before.get j) (hle₂ : ∀ j, after.get j ≤ between.get j) :
    Rounded before after queue queue₂ := by
  refine ⟨h₂.nodup, fun j => ?_⟩
  rw [h₂.mem_iff, h₁.mem_iff]
  have hle₁ := hle₁ j
  have hle₂ := hle₂ j
  constructor
  · rintro ((hj | ⟨hpos, hzero⟩) | ⟨hpos, hzero⟩)
    · exact Or.inl hj
    · exact Or.inr ⟨hpos, by omega⟩
    · exact Or.inr ⟨by omega, hzero⟩
  · rintro (hj | ⟨hpos, hzero⟩)
    · exact Or.inl (Or.inl hj)
    · by_cases hnow : between.get j = 0
      · exact Or.inl (Or.inr ⟨hpos, hnow⟩)
      · exact Or.inr ⟨hnow, hzero⟩

/-- What is placed frees those that waited for nothing else. -/
theorem Counts.mem_freed_iff (h : g.Counts degrees p) {i j : Fin size} (hi : p i = true) :
    j ∈ (g.dependents i).filter (degrees.get · = 1) ↔
      degrees.get j ≠ 0 ∧ (g.release degrees i).get j = 0 := by
  rw [List.mem_filter, mem_dependents, Feeds, decide_eq_true_iff, get_release]
  by_cases hij : i ∈ g.dependencies.get j
  · rw [if_pos (List.contains_iff_mem.2 hij)]
    have hpos := h.pos hi hij
    constructor
    · rintro ⟨-, hone⟩
      omega
    · rintro ⟨-, hzero⟩
      exact ⟨hij, by omega⟩
  · rw [if_neg (mt List.contains_iff_mem.1 hij)]
    exact iff_of_false (fun h => hij h.1) fun h => h.1 h.2

theorem Counts.rounded_place (h : g.Counts degrees p) {i : Fin size} (hi : p i = true)
    (hq : queue.Nodup) (hzero : ∀ j ∈ queue, degrees.get j = 0) :
    Rounded degrees (g.release degrees i) queue
      (queue ++ (g.dependents i).filter (degrees.get · = 1)) where
  nodup := List.Nodup.append hq ((g.nodup_dependents i).filter _) fun j hj hfreed =>
    ((h.mem_freed_iff hi).1 hfreed).1 (hzero j hj)
  mem_iff j := by rw [List.mem_append, h.mem_freed_iff hi]

theorem Counts.foldlM_place? (hg : g.Simple) {stage : List (Fin size)} (hs : stage.Nodup)
    (h : g.Counts degrees p) (hp : ∀ i ∈ stage, p i = true) (hq : queue.Nodup)
    (hzero : ∀ j ∈ queue, degrees.get j = 0) :
    ∃ queue', stage.foldlM g.place? ⟨degrees, queue⟩ =
        some ⟨stage.foldl g.release degrees, queue'⟩ ∧
      Rounded degrees (stage.foldl g.release degrees) queue queue' := by
  induction stage generalizing degrees queue p with
  | nil =>
    refine ⟨queue, rfl, hq, fun j => ?_⟩
    simp
  | cons i rest ih =>
    obtain ⟨hi, hrest⟩ := List.nodup_cons.1 hs
    have hpi := hp i List.mem_cons_self
    have hplaced := h.rounded_place hpi hq hzero
    have hlower := g.get_release_le degrees i
    have hrest' : ∀ k ∈ rest, (p k && k ≠ i) = true := by
      intro k hk
      have hki : k ≠ i := fun e => hi (e ▸ hk)
      simp [hp k (List.mem_cons_of_mem i hk), hki]
    obtain ⟨queue', heq, hqueue'⟩ := ih hrest (h.release hg hpi) hrest' hplaced.nodup
      (hplaced.get_eq_zero hlower hzero)
    refine ⟨queue', ?_, ?_⟩
    · rw [List.foldlM_cons, h.place?_eq hpi, Option.bind_eq_bind, Option.bind_some]
      exact heq
    · exact hplaced.trans hqueue' hlower (g.get_foldl_release_le rest _)

/-- Sorting finds the order of declaration. -/
theorem mergeSort_eq_of_perm {l m : List (Fin size)} (h : l.Perm m) (hm : m.Pairwise (· < ·)) :
    l.mergeSort (· ≤ ·) = m := by
  have hsorted : (l.mergeSort fun a b => a ≤ b).Pairwise fun a b => (a ≤ b : Bool) = true :=
    List.pairwise_mergeSort (fun a b c => by simpa using Fin.le_trans)
      (fun a b => by simpa using Fin.le_total a b) l
  refine ((l.mergeSort_perm _).trans h).eq_of_pairwise ?_ hsorted ?_
  · intro a b _ _ hab hba
    exact Fin.le_antisymm (of_decide_eq_true hab) (of_decide_eq_true hba)
  · exact hm.imp fun hlt => decide_eq_true (Fin.le_of_lt hlt)

/-- A round never fails, and queues what is ready next. -/
theorem round?_ready (hg : g.Simple) {remaining : List (Fin size)}
    (hr : remaining.Pairwise (· < ·)) (h : g.Counts degrees remaining.contains)
    (hplaced : ∀ j ∉ remaining, degrees.get j = 0) :
    ∃ f, g.round? degrees (ready degrees remaining) = some f ∧
      f.degrees = (ready degrees remaining).foldl g.release degrees ∧
      f.queue.mergeSort (· ≤ ·) = ready f.degrees (waiting degrees remaining) := by
  have hnodup : remaining.Nodup := hr.imp fun hlt => Fin.ne_of_lt hlt
  have hready : ∀ i ∈ ready degrees remaining, remaining.contains i = true := by
    intro i hi
    exact List.contains_iff_mem.2 (List.mem_of_mem_filter hi)
  obtain ⟨queue, heq, hqueue⟩ :=
    h.foldlM_place? hg (hnodup.filter _) hready List.nodup_nil (by simp)
  refine ⟨_, heq, rfl, ?_⟩
  have hperm : queue.Perm
      (ready ((ready degrees remaining).foldl g.release degrees) (waiting degrees remaining)) := by
    refine (List.perm_ext_iff_of_nodup hqueue.nodup ((hnodup.filter _).filter _)).2 fun j => ?_
    rw [hqueue.mem_iff j]
    simp only [ready, List.mem_filter]
    constructor
    · rintro (hj | ⟨hpos, h0⟩)
      · cases hj
      · have hj : j ∈ remaining := by
          by_contra hj
          exact hpos (hplaced j hj)
        exact ⟨⟨hj, decide_eq_true hpos⟩, decide_eq_true h0⟩
    · rintro ⟨⟨-, hpos⟩, h0⟩
      exact Or.inr ⟨of_decide_eq_true hpos, of_decide_eq_true h0⟩
  exact mergeSort_eq_of_perm hperm ((hr.filter _).filter _)

theorem rounds?_ready (hg : g.Simple) {remaining : List (Fin size)}
    (hr : remaining.Pairwise (· < ·)) (h : g.Counts degrees remaining.contains)
    (hplaced : ∀ j ∉ remaining, degrees.get j = 0) :
    g.rounds? degrees (ready degrees remaining) = some (g.peel degrees remaining).stages := by
  induction degrees, remaining using peel.induct g with
  | case1 degrees remaining stage hs => rw [g.peel_eq_nil hs, rounds?, if_pos hs]
  | case2 degrees remaining stage hs _ ih =>
    obtain ⟨f, hf, hdegrees, hqueue⟩ := round?_ready hg hr h hplaced
    have hnodup : remaining.Nodup := hr.imp fun hlt => Fin.ne_of_lt hlt
    have hlater := ih (hr.filter _) (h.waiting hg hnodup) fun j hj => by
      have hle := g.get_foldl_release_le stage degrees j
      have hj0 : degrees.get j = 0 := by
        by_cases hjr : j ∈ remaining
        · by_contra hpos
          exact hj (List.mem_filter.2 ⟨hjr, decide_eq_true hpos⟩)
        · exact hplaced j hjr
      omega
    rw [g.peel_eq_cons hs, rounds?, if_neg hs]
    split
    · next hnone => simp [hf] at hnone
    · next f' hf' =>
      obtain rfl := Option.some.inj (hf.symm.trans hf')
      rw [hqueue, hdegrees, hlater]
      rfl

theorem unresolved_sublist (g : DependencyGraph size) (degrees : Degrees size)
    (remaining : List (Fin size)) : (g.peel degrees remaining).unresolved.Sublist remaining := by
  induction degrees, remaining using peel.induct g with
  | case1 degrees remaining stage hs =>
    rw [g.peel_eq_nil hs]
  | case2 degrees remaining stage hs _ ih =>
    rw [g.peel_eq_cons hs]
    exact ih.trans List.filter_sublist

theorem unresolved_pairwise (g : DependencyGraph size) : g.order.unresolved.Pairwise (· < ·) :=
  (List.pairwise_lt_finRange size).sublist (g.unresolved_sublist _ _)

theorem unresolved_eq (g : DependencyGraph size) :
    g.order.unresolved = (List.finRange size).filter (!g.order.stages.flatten.contains ·) := by
  have hnodup := g.order_perm.nodup_iff.2 (List.nodup_finRange size)
  have hperm : g.order.unresolved.Perm
      ((List.finRange size).filter (!g.order.stages.flatten.contains ·)) := by
    refine (List.perm_ext_iff_of_nodup (List.nodup_append'.1 hnodup).2.1
      ((List.nodup_finRange size).filter _)).2 fun i => ?_
    have hmem := g.order_perm.mem_iff (a := i)
    have hapart := (List.nodup_append'.1 hnodup).2.2
    rw [List.mem_filter, Bool.not_eq_true', List.contains_eq_mem, decide_eq_false_iff_not]
    constructor
    · intro hi
      exact ⟨List.mem_finRange i, fun hi' => hapart hi' hi⟩
    · rintro ⟨hi, hi'⟩
      exact (List.mem_append.1 (hmem.2 hi)).resolve_left hi'
  exact hperm.eq_of_pairwise (fun a b _ _ hab hba => absurd hba (Fin.lt_asymm hab))
    g.unresolved_pairwise ((List.pairwise_lt_finRange size).filter _)

/-- No counter goes below zero, and the counters find the stages. -/
theorem counted?_eq (hg : g.Simple) : g.counted? = some g.order := by
  have hrounds : g.rounds? g.inDegrees ((List.finRange size).filter fun i => g.inDegrees.get i = 0) =
      some g.order.stages :=
    rounds?_ready hg (List.pairwise_lt_finRange size) counts_inDegrees
      fun j hj => absurd (List.mem_finRange j) hj
  rw [counted?, hrounds, Option.map_some, ← g.unresolved_eq]

end

end Flowgraph.DependencyGraph
