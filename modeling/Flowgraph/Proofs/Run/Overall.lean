import Flowgraph.Run.Status
import Mathlib.Logic.Function.Basic
import Mathlib.Logic.Relation
import Mathlib.Tactic.SplitIfs

/-! The status of the whole depends on which statuses there are, and neither on their order nor on how
often there is one. -/

namespace Flowgraph.RunStatus

variable {l l' : List RunStatus}

theorem derive_eq_error_iff : derive l = .error ↔ .error ∈ l := by
  rw [derive]
  split
  · next herror => simpa using herror
  · next hnone =>
    have hnone : .error ∉ l := by simpa using hnone
    split_ifs <;> simp [hnone]

theorem derive_eq_success_iff : derive l = .success ↔ ∀ s ∈ l, s = .success := by
  rw [derive]
  split
  · next herror =>
    have herror : .error ∈ l := by simpa using herror
    simp only [reduceCtorEq, false_iff]
    exact fun hall => absurd (hall _ herror) (by simp)
  · next hnone =>
    split
    · next hall => simpa using hall
    · next hnot =>
      have hnot : ¬ ∀ s ∈ l, s = .success := by simpa using hnot
      split <;> simp [hnot]

theorem derive_eq (l : List RunStatus) : derive l =
    if .error ∈ l then .error
    else if ∀ s ∈ l, s = .success then .success
    else if ∀ s ∈ l, s = .pending then .pending
    else .running := by
  simp [derive]

theorem derive_congr (h : ∀ s, s ∈ l ↔ s ∈ l') : derive l = derive l' := by
  simp only [derive_eq, h]

theorem derive_eq_running (hrunning : .running ∈ l) (herror : .error ∉ l) :
    derive l = .running := by
  have hsuccess : ¬ ∀ s ∈ l, s = .success := fun h => absurd (h _ hrunning) (by decide)
  have hpending : ¬ ∀ s ∈ l, s = .pending := fun h => absurd (h _ hrunning) (by decide)
  rw [derive_eq, if_neg herror, if_neg hsuccess, if_neg hpending]

theorem derive_ne_pending {s : RunStatus} (hs : s ∈ l) (hne : s ≠ .pending) :
    derive l ≠ .pending := by
  have hpending : ¬ ∀ s ∈ l, s = .pending := fun h => hne (h s hs)
  rw [derive_eq, if_neg hpending]
  split_ifs <;> decide

/-- One pass that remembers whether all so far have succeeded and whether all are pending. It stops at
the first error. -/
def scan (succeeded pends : Bool) : List RunStatus → RunStatus
  | [] => if succeeded then success else if pends then pending else running
  | error :: _ => error
  | success :: rest => scan succeeded false rest
  | running :: rest => scan false false rest
  | pending :: rest => scan false pends rest

theorem scan_eq (succeeded pends : Bool) (l : List RunStatus) : scan succeeded pends l =
    if .error ∈ l then .error
    else if succeeded = true ∧ ∀ s ∈ l, s = .success then .success
    else if pends = true ∧ ∀ s ∈ l, s = .pending then .pending
    else .running := by
  induction l generalizing succeeded pends with
  | nil => simp [scan]
  | cons s rest ih => cases s <;> simp [scan, ih]

theorem scan_eq_derive (l : List RunStatus) : scan true true l = derive l := by
  simp [scan_eq, derive_eq]

/-- One move of a node. -/
inductive Moves : RunStatus → RunStatus → Prop
  | begins : Moves pending running
  | succeeds : Moves running success
  | fails : Moves running error

theorem Moves.isTerminal_eq_false {s t : RunStatus} (h : s.Moves t) : s.isTerminal = false := by
  cases h <;> rfl

theorem eq_of_terminal {s t : RunStatus} (hs : s.isTerminal = true)
    (h : Relation.ReflTransGen Moves s t) : t = s := by
  obtain rfl | ⟨u, hu, -⟩ := Relation.ReflTransGen.cases_head h
  · rfl
  · rw [hu.isTerminal_eq_false] at hs
    cases hs

section Update

open Function (update)

variable {ids : List String} {id : String} {f : String → RunStatus} {s t : RunStatus}

theorem mem_map_update_self (hid : id ∈ ids) : s ∈ ids.map (update f id s) :=
  List.mem_map.2 ⟨id, hid, Function.update_self id s f⟩

theorem mem_map_update_of_mem (ht : t ∈ ids.map f) (hne : f id ≠ t) : t ∈ ids.map (update f id s) := by
  obtain ⟨k, hk, rfl⟩ := List.mem_map.1 ht
  have hki : k ≠ id := fun e => hne (congrArg f e.symm)
  exact List.mem_map.2 ⟨k, hk, Function.update_of_ne hki s f⟩

theorem mem_of_mem_map_update (ht : t ∈ ids.map (update f id s)) (hne : t ≠ s) : t ∈ ids.map f := by
  obtain ⟨k, hk, rfl⟩ := List.mem_map.1 ht
  have hki : k ≠ id := by
    rintro rfl
    exact hne (Function.update_self k s f)
  exact List.mem_map.2 ⟨k, hk, (Function.update_of_ne hki s f).symm⟩

/-- When one node moves, the whole stays as it is or makes a move of the same kind. -/
theorem derive_moves (hid : id ∈ ids) (hs : (f id).Moves s) :
    derive (ids.map (update f id s)) = derive (ids.map f) ∨
      (derive (ids.map f)).Moves (derive (ids.map (update f id s))) := by
  have hold : f id ∈ ids.map f := List.mem_map_of_mem hid
  have hnew : s ∈ ids.map (update f id s) := mem_map_update_self hid
  by_cases herror : .error ∈ ids.map f
  · -- a node that has failed is not the one that moves
    have hne : f id ≠ .error := by
      intro e
      rw [e] at hs
      cases hs
    left
    rw [derive_eq_error_iff.2 herror, derive_eq_error_iff.2 (mem_map_update_of_mem herror hne)]
  generalize f id = current at hs hold
  cases hs with
  | begins =>
    have hnone : .error ∉ ids.map (update f id .running) := by
      intro h
      exact herror (mem_of_mem_map_update h (by decide))
    rw [derive_eq_running hnew hnone]
    cases hd : derive (ids.map f) with
    | pending => exact .inr .begins
    | running => exact .inl rfl
    | success => exact absurd (derive_eq_success_iff.1 hd _ hold) (by decide)
    | error => exact absurd (derive_eq_error_iff.1 hd) herror
  | succeeds | fails =>
    rw [derive_eq_running hold herror]
    have hpending := derive_ne_pending hnew (by decide)
    cases hd : derive (ids.map (update f id _)) with
    | pending => exact absurd hd hpending
    | running => exact .inl rfl
    | success => exact .inr .succeeds
    | error => exact .inr .fails

end Update

end Flowgraph.RunStatus
