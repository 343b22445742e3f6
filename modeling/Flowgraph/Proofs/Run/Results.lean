import Flowgraph.Proofs.Binding.Agree
import Flowgraph.Run.Status
import Flowgraph.Step.Result
import Mathlib.Data.List.Induction

/-! What the nodes of a run have come to, in the order in which they ended. The statuses and the
outputs of a run can be read off it, and so can whether a node may start. -/

namespace Flowgraph

def StepResult.data? : StepResult → Option Json
  | success data => some data
  | failure _ => none

/-- The status of a node that has ended. -/
def StepResult.status : StepResult → RunStatus
  | success _ => .success
  | failure _ => .error

/-- Two tables with the same keys, each key once, are equal if all lookups are. -/
theorem eq_of_lookup {α β : Type} [BEq α] [LawfulBEq α] {l m : List (α × β)}
    (hk : l.map (·.1) = m.map (·.1)) (hn : (l.map (·.1)).Nodup)
    (h : ∀ k, l.lookup k = m.lookup k) : l = m := by
  induction l generalizing m with
  | nil => exact (List.map_eq_nil_iff.1 hk.symm).symm
  | cons kv rest ih =>
    cases m with
    | nil => simp at hk
    | cons kv' rest' =>
      obtain ⟨k, v⟩ := kv
      obtain ⟨k', v'⟩ := kv'
      obtain ⟨rfl, hkeys⟩ : k = k' ∧ rest.map (·.1) = rest'.map (·.1) := by simpa using hk
      obtain ⟨hnew, hn⟩ := List.nodup_cons.1 hn
      have hv : v = v' := by simpa using h k
      have hrest : ∀ j, rest.lookup j = rest'.lookup j := by
        intro j
        by_cases hj : j = k
        · subst hj
          have hnone : ∀ l : List (α × β), j ∉ l.map (·.1) → l.lookup j = none := by
            intro l hl
            rw [List.lookup_eq_none_iff]
            intro p hp
            exact bne_iff_ne.2 fun he => hl (List.mem_map.2 ⟨p, hp, he.symm⟩)
          rw [hnone rest hnew, hnone rest' (hkeys ▸ hnew)]
        · simpa [List.lookup_cons, beq_eq_false_iff_ne.2 hj] using h j
      rw [hv, ih hkeys hn hrest]

abbrev Results := List (String × StepResult)

namespace Results

def ids (R : Results) : List String := R.map (·.1)

/-- A node that is not there has not been started or has not ended. -/
def status (R : Results) (id : String) : RunStatus :=
  ((R.lookup id).map StepResult.status).getD .pending

def enter (outputs : Outputs) (r : String × StepResult) : Outputs :=
  match r.2 with
  | .success data => Fields.insert r.1 data outputs
  | .failure _ => outputs

def outputs (R : Results) : Outputs := R.foldl enter []

def Succeeded (R : Results) (id : String) : Prop := R.status id = .success

instance (R : Results) (id : String) : Decidable (R.Succeeded id) :=
  inferInstanceAs (Decidable (_ = _))

variable {R S : Results} {id : String}

@[simp] theorem ids_append (R S : Results) : ids (R ++ S) = R.ids ++ S.ids := List.map_append

@[simp] theorem outputs_concat (R : Results) (r : String × StepResult) :
    outputs (R ++ [r]) = enter R.outputs r := List.foldl_append

theorem mem_ids_iff : id ∈ R.ids ↔ ∃ r, R.lookup id = some r := by
  rw [← Option.isSome_iff_exists, List.lookup_isSome_iff]
  simp only [ids, List.mem_map, beq_iff_eq]
  exact exists_congr fun p => and_congr_right fun _ => eq_comm

theorem lookup_eq_none (h : id ∉ R.ids) : R.lookup id = none := by
  by_contra hs
  exact h (mem_ids_iff.2 (Option.ne_none_iff_exists'.1 hs))

theorem lookup_of_mem (h : R.ids.Nodup) {r : StepResult} (hr : (id, r) ∈ R) :
    R.lookup id = some r := by
  obtain ⟨before, after, rfl⟩ := List.append_of_mem hr
  refine List.lookup_eq_some_iff.2 ⟨before, after, rfl, fun p hp => ?_⟩
  rw [ids_append, List.nodup_append] at h
  exact bne_iff_ne.2 fun e => h.2.2 p.1 (List.mem_map_of_mem hp) id (by simp [ids]) e.symm

theorem mem_of_lookup {r : StepResult} (h : R.lookup id = some r) : (id, r) ∈ R := by
  obtain ⟨before, after, rfl, -⟩ := List.lookup_eq_some_iff.1 h
  simp

theorem lookup_append_of_not_mem (h : id ∉ S.ids) : (R ++ S).lookup id = R.lookup id := by
  rw [List.lookup_append, lookup_eq_none h, Option.or_none]

theorem lookup_concat_self (h : id ∉ R.ids) (r : StepResult) :
    (R ++ [(id, r)]).lookup id = some r := by
  rw [List.lookup_append, lookup_eq_none h, Option.none_or, List.lookup_cons_self]

theorem lookup_grows (h : R <+: S) {r : StepResult} (hr : R.lookup id = some r) :
    S.lookup id = some r := by
  obtain ⟨more, rfl⟩ := h
  rw [List.lookup_append, hr, Option.some_or]

theorem status_ne_running : R.status id ≠ .running := by
  unfold status
  cases R.lookup id with
  | none => simp
  | some r => cases r <;> simp [StepResult.status]

theorem status_eq_pending_iff : R.status id = .pending ↔ id ∉ R.ids := by
  rw [mem_ids_iff, status]
  cases R.lookup id with
  | none => simp
  | some r => cases r <;> simp [StepResult.status]

theorem status_of_lookup {r : StepResult} (h : R.lookup id = some r) : R.status id = r.status := by
  rw [status, h]
  rfl

theorem status_congr (h : R.lookup id = S.lookup id) : R.status id = S.status id := by
  rw [status, status, h]

theorem succeeded_iff : R.Succeeded id ↔ ∃ data, R.lookup id = some (.success data) := by
  rw [Succeeded, status]
  cases R.lookup id with
  | none => simp
  | some r => cases r <;> simp [StepResult.status]

theorem Succeeded.grows (h : R <+: S) (hs : R.Succeeded id) : S.Succeeded id := by
  obtain ⟨data, hd⟩ := succeeded_iff.1 hs
  exact succeeded_iff.2 ⟨data, lookup_grows h hd⟩

theorem Succeeded.mem_ids (h : R.Succeeded id) : id ∈ R.ids := by
  obtain ⟨data, hd⟩ := succeeded_iff.1 h
  exact mem_ids_iff.2 ⟨_, hd⟩

/-- The outputs hold the data of the nodes that have succeeded and nothing else. -/
theorem lookup_outputs (h : R.ids.Nodup) (id : String) :
    R.outputs.lookup id = (R.lookup id).bind StepResult.data? := by
  induction R using List.reverseRecOn with
  | nil => rfl
  | append_singleton R r ih =>
    obtain ⟨other, r⟩ := r
    rw [ids_append, List.nodup_append] at h
    have hother : other ∉ ids R := fun hm => h.2.2 other hm other (by simp [ids]) rfl
    have ih := ih h.1
    rw [outputs_concat, List.lookup_append]
    by_cases he : id = other
    · subst he
      rw [lookup_eq_none hother] at ih ⊢
      cases r with
      | success data => simp [enter, StepResult.data?, Fields.lookup_insert_self]
      | failure e => simp [enter, StepResult.data?, ih]
    · have hr : List.lookup id [(other, r)] = none := by simp [he]
      rw [hr, Option.or_none, ← ih]
      cases r with
      | success data => exact Fields.lookup_insert_of_ne he data _
      | failure e => rfl

theorem outputs_agreeOn (h : R <+: S) (hn : S.ids.Nodup) {refs : List OutputRef}
    (hr : ∀ r ∈ refs, R.Succeeded r.node) : R.outputs.AgreeOn S.outputs refs := by
  intro r hmem
  obtain ⟨data, hd⟩ := succeeded_iff.1 (hr r hmem)
  have hnR : R.ids.Nodup := by
    obtain ⟨more, rfl⟩ := h
    rw [ids_append] at hn
    exact (List.nodup_append.1 hn).1
  rw [lookup_outputs hnR, lookup_outputs hn, hd, lookup_grows h hd]

end Results

/-- All that the node depends on has succeeded. -/
def CompiledNode.Ready (n : CompiledNode) (R : Results) : Prop :=
  ∀ d ∈ n.dependencies, R.Succeeded d

instance (n : CompiledNode) (R : Results) : Decidable (n.Ready R) :=
  inferInstanceAs (Decidable (∀ _ ∈ _, _))

theorem CompiledNode.Ready.grows {n : CompiledNode} {R S : Results} (h : R <+: S)
    (hr : n.Ready R) : n.Ready S :=
  fun d hd => (hr d hd).grows h

/-- Results of nodes that it does not depend on do not matter to a node. -/
theorem CompiledNode.ready_append_iff {n : CompiledNode} {R S : Results}
    (h : ∀ d ∈ n.dependencies, d ∉ S.ids) : n.Ready (R ++ S) ↔ n.Ready R := by
  refine forall₂_congr fun d hd => ?_
  rw [Results.Succeeded, Results.Succeeded,
    Results.status_congr (Results.lookup_append_of_not_mem (h d hd))]

end Flowgraph
