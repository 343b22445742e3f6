import Flowgraph.Proofs.Action.History
import Flowgraph.Store.Fault

/-! A run and others that use one store. A trace holds what the run does and, between any two of
its events, the calls of all others: steps, requests and other runs. The store answers one call
at a time, and some calls may fail before they reach it. -/

namespace Flowgraph

inductive Entry
  | own (e : Event)
  | other (c : Call) (reply : c.Reply)

/-- What the run itself has done. -/
def own (l : List Entry) : List Event :=
  l.filterMap fun
    | .own e => some e
    | .other _ _ => none

@[simp] theorem own_nil : own [] = [] := rfl

@[simp] theorem own_append (l m : List Entry) : own (l ++ m) = own l ++ own m :=
  List.filterMap_append

@[simp] theorem own_cons_own (e : Event) (l : List Entry) : own (.own e :: l) = e :: own l := rfl

@[simp] theorem own_cons_other (c : Call) (r : c.Reply) (l : List Entry) :
    own (.other c r :: l) = own l := rfl

@[simp] theorem own_map (h : List Event) : own (h.map .own) = h := by
  rw [own, List.filterMap_map]
  exact List.filterMap_some

theorem mem_own {l : List Entry} {e : Event} : e ∈ own l ↔ .own e ∈ l := by
  simp only [own, List.mem_filterMap]
  constructor
  · rintro ⟨entry, hentry, he⟩
    cases entry with
    | own e' => exact Option.some.inj he ▸ hentry
    | other => simp at he
  · exact fun h => ⟨_, h, rfl⟩

/-- Where the run has done something, the trace tells of it. -/
theorem own_eq_append_cons {l : List Entry} {before after : List Event} {e : Event}
    (h : own l = before ++ e :: after) :
    ∃ l₁ l₂, l = l₁ ++ .own e :: l₂ ∧ own l₁ = before ∧ own l₂ = after := by
  obtain ⟨l₁, m, rfl, hbefore, hm⟩ := List.filterMap_eq_append_iff.1 h
  obtain ⟨skipped, entry, l₂, rfl, hskipped, he, hafter⟩ := List.filterMap_eq_cons_iff.1 hm
  refine ⟨l₁ ++ skipped, l₂, ?_, ?_, hafter⟩
  · cases entry with
    | own e' => simp [Option.some.inj he]
    | other => simp at he
  · have hnone : own skipped = [] := List.filterMap_eq_nil_iff.2 hskipped
    rw [own_append, hnone, List.append_nil]
    exact hbefore

/-- What may happen to a store. -/
structure Setting where
  /-- Calls may fail before they reach the store. -/
  fails : Prop
  /-- The identifiers that may be given out. -/
  issues : MemoryStore → Uuid → Prop
  /-- The calls that others may make. -/
  others : MemoryStore → Call → Prop

/-- Nobody else uses the store, and calls may fail if `fails` holds. -/
def Setting.alone (fails : Prop) : Setting := ⟨fails, fun _ _ => True, fun _ _ => False⟩

/-- The reply to a call, and the store after it. -/
inductive Setting.Answers (S : Setting) (s : MemoryStore) (c : Call) : c.Reply → MemoryStore → Prop
  | served {supply supply' : Supply} {r s'} : S.issues s supply.fresh.1 →
    s.answer supply c = (r, s', supply') → Answers S s c r s'
  | refused {e : StoreError} : S.fails → Answers S s c (.error e) s

inductive Setting.Step (S : Setting) (s : MemoryStore) : Entry → MemoryStore → Prop
  | own {c : Call} {r : c.Reply} {s'} : S.Answers s c r s' → Step S s (.own (.called c r)) s'
  | quiet {e} : (∀ c r, e ≠ .called c r) → Step S s (.own e) s
  | other {c : Call} {r : c.Reply} {s'} : S.others s c → S.Answers s c r s' →
    Step S s (.other c r) s'

/-- The first store becomes the second one along a trace. -/
inductive Setting.Runs (S : Setting) (first : MemoryStore) : List Entry → MemoryStore → Prop
  | nil : Runs S first [] first
  | snoc {l s e s'} : Runs S first l s → S.Step s e s' → Runs S first (l ++ [e]) s'

namespace Setting

variable {S : Setting} {first : MemoryStore}

theorem Runs.append {l m : List Entry} {mid s : MemoryStore} (hl : S.Runs first l mid)
    (hm : S.Runs mid m s) : S.Runs first (l ++ m) s := by
  induction hm with
  | nil => simpa using hl
  | snoc _ hs ih => exact List.append_assoc .. ▸ ih.snoc hs

theorem Runs.last {l : List Entry} {e : Entry} {s : MemoryStore} (hr : S.Runs first (l ++ [e]) s) :
    ∃ mid, S.Runs first l mid ∧ S.Step mid e s := by
  generalize hk : l ++ [e] = k at hr
  cases hr with
  | nil => simp at hk
  | snoc hr hs =>
    obtain ⟨rfl, he⟩ := List.append_inj' hk rfl
    obtain rfl := List.singleton_inj.1 he
    exact ⟨_, hr, hs⟩

/-- Every part of a trace leads from one store to another. -/
theorem Runs.split {l m : List Entry} {s : MemoryStore} (hr : S.Runs first (l ++ m) s) :
    ∃ mid, S.Runs first l mid ∧ S.Runs mid m s := by
  induction m using List.reverseRecOn generalizing s with
  | nil => exact ⟨s, by simpa using hr, .nil⟩
  | append_singleton m e ih =>
    rw [← List.append_assoc] at hr
    obtain ⟨s', hr, hs⟩ := hr.last
    obtain ⟨mid, hl, hm⟩ := ih hr
    exact ⟨mid, hl, hm.snoc hs⟩

/-- What a trace makes of a call, from the store before it to the one after it. -/
theorem Runs.around {before after : List Entry} {e : Entry} {s : MemoryStore}
    (hr : S.Runs first (before ++ e :: after) s) :
    ∃ s₁ s₂, S.Runs first before s₁ ∧ S.Step s₁ e s₂ ∧ S.Runs s₂ after s := by
  rw [List.append_cons] at hr
  obtain ⟨s₂, hbefore, hafter⟩ := hr.split
  obtain ⟨s₁, hbefore, he⟩ := hbefore.last
  exact ⟨s₁, s₂, hbefore, he, hafter⟩

/-- Where the run has made a call, the store has answered it. -/
theorem Runs.answered_at {l : List Entry} {c : Call} {r : c.Reply} {s : MemoryStore}
    {before after : List Event} (hr : S.Runs first l s)
    (hc : own l = before ++ Event.called c r :: after) :
    ∃ l₁ l₂ s₁ s₂, l = l₁ ++ Entry.own (.called c r) :: l₂ ∧ own l₁ = before ∧ S.Runs first l₁ s₁ ∧
      S.Answers s₁ c r s₂ := by
  obtain ⟨l₁, l₂, rfl, hbefore, -⟩ := own_eq_append_cons hc
  obtain ⟨s₁, s₂, hl, hs, -⟩ := hr.around
  refine ⟨l₁, l₂, s₁, s₂, rfl, hbefore, hl, ?_⟩
  cases hs with
  | own ha => exact ha
  | quiet he => exact absurd rfl (he c r)

theorem Runs.answered {l : List Entry} {c : Call} {r : c.Reply} {s : MemoryStore}
    (hr : S.Runs first l s) (hc : Event.called c r ∈ own l) :
    ∃ before after s₁ s₂, l = before ++ Entry.own (.called c r) :: after ∧ S.Runs first before s₁ ∧
      S.Answers s₁ c r s₂ := by
  obtain ⟨before, after, hh⟩ := List.append_of_mem hc
  obtain ⟨l₁, l₂, s₁, s₂, rfl, -, hl, ha⟩ := hr.answered_at hh
  exact ⟨l₁, l₂, s₁, s₂, rfl, hl, ha⟩

theorem Answers.mono {S' : Setting} {s s' : MemoryStore} {c : Call} {r : c.Reply}
    (hf : S.fails → S'.fails) (hi : ∀ id, S.issues s id → S'.issues s id)
    (ha : S.Answers s c r s') : S'.Answers s c r s' := by
  cases ha with
  | served hid h => exact .served (hi _ hid) h
  | refused h => exact .refused (hf h)

/-- A store changes only by a call that it answers. -/
theorem Step.cases {s s' : MemoryStore} {e : Entry} (hs : S.Step s e s') :
    (s' = s ∧ ∀ c r, e ≠ .own (.called c r)) ∨
      (∃ c r, e = .own (.called c r) ∧ S.Answers s c r s') ∨
      ∃ c r, e = .other c r ∧ S.others s c ∧ S.Answers s c r s' := by
  cases hs with
  | quiet he => exact Or.inl ⟨rfl, fun c r h => he c r (Entry.own.inj h)⟩
  | own ha => exact Or.inr (Or.inl ⟨_, _, rfl, ha⟩)
  | other ho ha => exact Or.inr (Or.inr ⟨_, _, rfl, ho, ha⟩)

/-- What every step keeps is kept by a trace. -/
theorem Runs.keeps {P : List Entry → MemoryStore → Prop} (hP : P [] first)
    (hstep : ∀ l e s s', S.Runs first l s → P l s → S.Step s e s' → P (l ++ [e]) s')
    {l : List Entry} {s : MemoryStore} (hr : S.Runs first l s) : P l s := by
  induction hr with
  | nil => exact hP
  | snoc hr hs ih => exact hstep _ _ _ _ hr ih hs

end Setting

end Flowgraph
