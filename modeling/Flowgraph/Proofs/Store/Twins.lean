import Flowgraph.Proofs.Action.Asks
import Flowgraph.Proofs.Store.Owners

/-! Two stores that differ only in a part, and what can be done in both alike. Most calls avoid the
part. A team may still name a row of the part to see whose it is: the two rows then differ, and
nothing that follows may depend on more than their owner. -/

namespace Flowgraph

/-- Two stores with the same rows outside a part. In the part they hold the same workflows and
executions by name and owner. -/
structure TwinStores where
  team : Uuid
  part : Region
  first : MemoryStore
  second : MemoryStore
  first_parted : first.Parted part team
  second_parted : second.Parted part team
  same : first.without part = second.without part
  teams : ∀ id, second.tables.team? id = first.tables.team? id
  owners : ∀ id, second.tables.owner? id = first.tables.owner? id

/-- Stores in which logs can be written and that agree on the rows of a team. -/
def TwinStores.of (team : Uuid) (first second : MemoryStore) (hfirst : first.logWritesFail = false)
    (hsecond : second.logWritesFail = false) (hkeyed : first.tables.Keyed)
    (hkeyed' : second.tables.Keyed) (ha : first.tables.Agrees team second.tables) : TwinStores where
  team := team
  part := (first.tables.foreign team).append (second.tables.foreign team)
  first := first
  second := second
  first_parted := ⟨(ha.covered (Or.inl rfl)).parted hkeyed, hfirst⟩
  second_parted := ⟨(ha.covered (Or.inr rfl)).parted hkeyed', hsecond⟩
  same := by
    unfold MemoryStore.without
    rw [(ha.covered (Or.inl rfl)).without_eq hkeyed, (ha.covered (Or.inr rfl)).without_eq hkeyed',
      ha.ours]
  teams := ha.teams
  owners := ha.owners

/-- What the reply tells of a row is true of it. -/
def Call.Fits (o : Region) : (c : Call) → c.Reply → Prop
  | .getWorkflow id, .ok row => row.id = id
  | .createExecution _, .ok row => row.id ∉ o.executions
  | .getExecution _, .ok row => row.workflow ∉ o.workflows
  | .insertLog _, .ok row => row.id ∉ o.logs
  | _, _ => True

theorem MemoryStore.answer_fits {o : Region} {team : Uuid} {s : MemoryStore} {c : Call}
    {supply : Supply} (hs : s.Parted o team) (hc : c.Avoids o team) (hf : o.Lacks supply.fresh.1) :
    c.Fits o (s.answer supply c).1 := by
  cases c with
  | createWorkflow | listWorkflows | listLogs => trivial
  | createExecution => exact hf.execution
  | getWorkflow id =>
    simp only [answer]
    cases hrow : s.tables.workflow? id with
    | none => trivial
    | some row => exact (Tables.mem_of_workflow? hrow).2
  | getExecution id =>
    simp only [answer]
    cases hrow : s.tables.execution? id with
    | none => trivial
    | some row =>
      obtain ⟨hmem, rfl⟩ := Tables.mem_of_execution? hrow
      exact fun hw => hc ((hs.tables.executions row hmem).2 hw)
  | deleteWorkflow id | workflowTeam id =>
    simp only [answer]
    cases s.tables.workflow? id <;> trivial
  | updateStatus id status finished =>
    simp only [answer]
    cases s.tables.execution? id with
    | none => trivial
    | some row =>
      dsimp only
      split
      · trivial
      · split <;> trivial
  | insertLog entry =>
    rw [answer, if_neg (by simp [hs.writable])]
    exact hf.log
  | completeLog target completion =>
    simp only [answer, hs.writable]
    cases s.tables.completeLog target completion <;> trivial

namespace TwinStores

variable (V : TwinStores)

/-- Two stores that have come from the two by calls that avoid the part. -/
structure Alike (s s' : MemoryStore) : Prop where
  left_parted : s.Parted V.part V.team
  right_parted : s'.Parted V.part V.team
  same : s.without V.part = s'.without V.part
  left_only : s.tables.only V.part = V.first.tables.only V.part
  right_only : s'.tables.only V.part = V.second.tables.only V.part

variable {V}

theorem alike_start : V.Alike V.first V.second :=
  ⟨V.first_parted, V.second_parted, V.same, rfl, rfl⟩

section

variable {s s' : MemoryStore} (h : V.Alike s s')

include h

/-- A call that avoids the part is answered alike in both. -/
theorem Alike.answer {c : Call} (hc : c.Avoids V.part V.team) {supply : Supply}
    (hf : V.part.Lacks supply.fresh.1) :
    (s'.answer supply c).1 = (s.answer supply c).1 ∧
      V.Alike (s.answer supply c).2.1 (s'.answer supply c).2.1 := by
  have hleft := MemoryStore.answer_without h.left_parted hc hf
  have hright := MemoryStore.answer_without h.right_parted hc hf
  have hboth := hleft.symm.trans (h.same ▸ hright)
  simp only [Prod.mk.injEq] at hboth
  exact ⟨hboth.1.symm, MemoryStore.answer_parted h.left_parted hc hf,
    MemoryStore.answer_parted h.right_parted hc hf, hboth.2.1,
    (MemoryStore.answer_only h.left_parted hc hf).trans h.left_only,
    (MemoryStore.answer_only h.right_parted hc hf).trans h.right_only⟩

/-- Workflows of the part with the same owner: they stand in both stores, or in neither. -/
theorem Alike.workflow_cases {w w' : Uuid} (hw : w ∈ V.part.workflows)
    (hw' : w' ∈ V.part.workflows) (hsame : V.first.tables.team? w' = V.first.tables.team? w) :
    (s.tables.workflow? w = none ∧ s'.tables.workflow? w' = none ∧
      V.first.tables.team? w = none) ∨
    ∃ v v', s.tables.workflow? w = some v ∧ s'.tables.workflow? w' = some v' ∧
      V.first.tables.team? w = some v.team ∧ v'.team = v.team ∧ v.team ≠ V.team := by
  have hteams : V.second.tables.team? w' = V.first.tables.team? w := (V.teams w').trans hsame
  rw [Tables.workflow?_of_only h.left_only hw, Tables.workflow?_of_only h.right_only hw']
  unfold Tables.team? at hteams ⊢
  cases hv : V.first.tables.workflow? w with
  | none => exact Or.inl ⟨rfl, by simpa [hv] using hteams, rfl⟩
  | some v =>
    obtain ⟨v', hv', hteam⟩ := Option.map_eq_some_iff.1 (hteams.trans (congrArg _ hv))
    obtain ⟨hmem, rfl⟩ := Tables.mem_of_workflow? hv
    have hother := (V.first_parted.tables.workflows v hmem).1 hw
    exact Or.inr ⟨v, v', rfl, hv', rfl, hteam, hother⟩

/-- An execution of the part stands in both, with the same owner, or in neither. -/
theorem Alike.execution_cases {id : Uuid} (hid : id ∈ V.part.executions) :
    (s.tables.execution? id = none ∧ s'.tables.execution? id = none ∧
      V.first.tables.owner? id = none) ∨
    ∃ row row', s.tables.execution? id = some row ∧ s'.tables.execution? id = some row' ∧
      V.first.tables.owner? id = some (V.first.tables.team? row.workflow) ∧
      V.first.tables.team? row'.workflow = V.first.tables.team? row.workflow ∧
      row.workflow ∈ V.part.workflows ∧ row'.workflow ∈ V.part.workflows := by
  have howners := V.owners id
  rw [Tables.execution?_of_only h.left_only hid, Tables.execution?_of_only h.right_only hid]
  unfold Tables.owner? at howners ⊢
  cases hrow : V.first.tables.execution? id with
  | none => exact Or.inl ⟨rfl, by simpa [hrow] using howners, rfl⟩
  | some row =>
    obtain ⟨row', hrow', howner⟩ := Option.map_eq_some_iff.1 (howners.trans (congrArg _ hrow))
    obtain ⟨hmem, hrid⟩ := Tables.mem_of_execution? hrow
    obtain ⟨hmem', hrid'⟩ := Tables.mem_of_execution? hrow'
    have hw := (V.first_parted.tables.executions row hmem).1 (hrid.symm ▸ hid)
    have hw' := (V.second_parted.tables.executions row' hmem').1 (hrid'.symm ▸ hid)
    exact Or.inr ⟨row, row', rfl, hrow', rfl, (V.teams _).symm.trans howner, hw, hw'⟩

end

variable (V) in
/-- Two actions that do the same as long as they are answered by the two stores. Calls are of a
kind, or they name rows of the part and look for their owner. -/
inductive Twin {α : Type} (P : Call → Prop) (G : α → Prop) : Action α → Action α → Prop
  | done {a} : G a → Twin P G (.done a) (.done a)
  | ours {c next next'} : P c → (∀ r, c.Fits V.part r → Twin P G (next r) (next' r)) →
    Twin P G (.call c next) (.call c next')
  | workflow {id next next'} : id ∈ V.part.workflows →
    (V.first.tables.team? id = none →
      Twin P G (next (.error .notFound)) (next' (.error .notFound))) →
    (∀ v v', V.first.tables.team? id = some v.team → v'.team = v.team → v.team ≠ V.team →
      Twin P G (next (.ok v)) (next' (.ok v'))) →
    Twin P G (.call (.getWorkflow id) next) (.call (.getWorkflow id) next')
  | execution {id next next'} : id ∈ V.part.executions →
    (V.first.tables.owner? id = none →
      Twin P G (next (.error .notFound)) (next' (.error .notFound))) →
    (∀ row row', V.first.tables.owner? id = some (V.first.tables.team? row.workflow) →
      V.first.tables.team? row'.workflow = V.first.tables.team? row.workflow →
      row.workflow ∈ V.part.workflows → row'.workflow ∈ V.part.workflows →
      Twin P G (next (.ok row)) (next' (.ok row'))) →
    Twin P G (.call (.getExecution id) next) (.call (.getExecution id) next')
  | owner {w w'} {next : (Call.workflowTeam w).Reply → Action α}
      {next' : (Call.workflowTeam w').Reply → Action α} :
    w ∈ V.part.workflows → w' ∈ V.part.workflows →
    V.first.tables.team? w' = V.first.tables.team? w →
    (V.first.tables.team? w = none →
      Twin P G (next (.error .notFound)) (next' (.error .notFound))) →
    (∀ u, V.first.tables.team? w = some u → u ≠ V.team →
      Twin P G (next (.ok u)) (next' (.ok u))) →
    Twin P G (.call (.workflowTeam w) next) (.call (.workflowTeam w') next')

section

variable {α β : Type} {P Q : Call → Prop} {G : α → Prop} {H : β → Prop}

theorem Twin.mono {G' : α → Prop} {a a' : Action α} (h : V.Twin P G a a') (hP : ∀ c, P c → Q c)
    (hG : ∀ r, G r → G' r) : V.Twin Q G' a a' := by
  induction h with
  | done hr => exact .done (hG _ hr)
  | ours hc _ ih => exact .ours (hP _ hc) ih
  | workflow hid _ _ ihn ihs => exact .workflow hid ihn ihs
  | execution hid _ _ ihn ihs => exact .execution hid ihn ihs
  | owner hw hw' heq _ _ ihn ihs => exact .owner hw hw' heq ihn ihs

theorem Twin.bind {a a' : Action α} {f : α → Action β} (ha : V.Twin P G a a')
    (hf : ∀ r, G r → V.Twin P H (f r) (f r)) : V.Twin P H (a.bind f) (a'.bind f) := by
  induction ha with
  | done hr => exact hf _ hr
  | ours hc _ ih => exact .ours hc ih
  | workflow hid _ _ ihn ihs => exact .workflow hid ihn ihs
  | execution hid _ _ ihn ihs => exact .execution hid ihn ihs
  | owner hw hw' heq _ _ ihn ihs => exact .owner hw hw' heq ihn ihs

/-- The next calls of two such actions. -/
theorem Twin.call {c c' : Call} {next : c.Reply → Action α} {next' : c'.Reply → Action α}
    (hT : V.Twin P G (.call c next) (.call c' next')) {s s' : MemoryStore} (h : V.Alike s s')
    {supply : Supply} (hf : V.part.Lacks supply.fresh.1)
    (hP : ∀ c, P c → c.Avoids V.part V.team) :
    V.Twin P G (next (s.answer supply c).1) (next' (s'.answer supply c').1) ∧
      V.Alike (s.answer supply c).2.1 (s'.answer supply c').2.1 ∧
      (P c ∨ (s.answer supply c).2.1 = s) := by
  cases hT with
  | ours hc hnext =>
    obtain ⟨hreply, halike⟩ := h.answer (hP c hc) hf
    rw [hreply]
    exact ⟨hnext _ (MemoryStore.answer_fits h.left_parted (hP c hc) hf), halike, Or.inl hc⟩
  | workflow hid hnone hsome =>
    simp only [MemoryStore.answer]
    rcases h.workflow_cases hid hid rfl with
      ⟨hv, hv', hteam⟩ | ⟨v, v', hv, hv', hteam, hsame, hother⟩
    · rw [hv, hv']
      exact ⟨hnone hteam, h, Or.inr rfl⟩
    · rw [hv, hv']
      exact ⟨hsome v v' hteam hsame hother, h, Or.inr rfl⟩
  | execution hid hnone hsome =>
    simp only [MemoryStore.answer]
    rcases h.execution_cases hid with ⟨hrow, hrow', howner⟩ |
      ⟨row, row', hrow, hrow', howner, hsame, hw, hw'⟩
    · rw [hrow, hrow']
      exact ⟨hnone howner, h, Or.inr rfl⟩
    · rw [hrow, hrow']
      exact ⟨hsome row row' howner hsame hw hw', h, Or.inr rfl⟩
  | owner hw hw' heq hnone hsome =>
    simp only [MemoryStore.answer]
    rcases h.workflow_cases hw hw' heq with
      ⟨hv, hv', hteam⟩ | ⟨v, v', hv, hv', hteam, hsame, hother⟩
    · rw [hv, hv']
      exact ⟨hnone hteam, h, Or.inr rfl⟩
    · rw [hv, hv']
      dsimp only
      rw [hsame]
      exact ⟨hsome v.team hteam hother, h, Or.inr rfl⟩

end

end TwinStores

end Flowgraph
