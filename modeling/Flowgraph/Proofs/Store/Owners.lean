import Flowgraph.Proofs.Store.Parts

/-! Whose a row is. A workflow is of its team, and its executions and their logs with it. What is
not of a team makes up a part of the rows. -/

namespace Flowgraph

namespace Tables

section

variable (t : Tables)

/-- The team that owns the workflow. -/
def team? (id : Uuid) : Option Uuid := (t.workflow? id).map (·.team)

/-- The team that owns the execution, if there is an execution, and a team. -/
def owner? (id : Uuid) : Option (Option Uuid) :=
  (t.execution? id).map fun row => t.team? row.workflow

/-- The rows of a team. -/
def of (team : Uuid) : Tables where
  workflows := t.workflows.filter (·.team = team)
  executions := t.executions.filter (t.team? ·.workflow = some team)
  logs := t.logs.filter (t.owner? ·.execution = some (some team))

/-- An identifier names one row of its table. -/
structure Keyed : Prop where
  workflows : ∀ row ∈ t.workflows, t.workflow? row.id = some row
  executions : ∀ row ∈ t.executions, t.execution? row.id = some row

/-- All identifiers that stand in the rows. -/
def names : List Uuid :=
  t.workflows.map (·.id) ++ t.executions.map (·.workflow) ++
    (t.executions.map (·.id) ++ t.logs.map (·.execution)) ++ t.logs.map (·.id)

/-- All that is not of the team. -/
def foreign (team : Uuid) : Region where
  workflows := (t.workflows.map (·.id) ++ t.executions.map (·.workflow)).filter
    (t.team? · ≠ some team)
  executions := (t.executions.map (·.id) ++ t.logs.map (·.execution)).filter
    (t.owner? · ≠ some (some team))
  logs := (t.logs.filter (t.owner? ·.execution ≠ some (some team))).map (·.id)

end

/-- The same rows of the team; of the others' workflows and executions the same names and owners. -/
structure Agrees (team : Uuid) (t t' : Tables) : Prop where
  ours : t'.of team = t.of team
  teams : ∀ id, t'.team? id = t.team? id
  owners : ∀ id, t'.owner? id = t.owner? id

variable {o : Region} {t t' : Tables} {team u id : Uuid}

theorem team?_without (h : id ∉ o.workflows) : (t.without o).team? id = t.team? id :=
  congrArg _ (workflow?_without h)

theorem team?_only (h : id ∈ o.workflows) : (t.only o).team? id = t.team? id :=
  congrArg _ (workflow?_only h)

section

variable (h : t.Parted o team)

include h

/-- A workflow lies in the part if it is another team's. -/
theorem Parted.mem_workflows (hu : t.team? id = some u) : id ∈ o.workflows ↔ u ≠ team := by
  obtain ⟨row, hrow, rfl⟩ := Option.map_eq_some_iff.1 hu
  obtain ⟨hmem, rfl⟩ := mem_of_workflow? hrow
  exact h.workflows row hmem

/-- So does an execution. -/
theorem Parted.mem_executions (hu : t.owner? id = some (some u)) :
    id ∈ o.executions ↔ u ≠ team := by
  obtain ⟨row, hrow, hteam⟩ := Option.map_eq_some_iff.1 hu
  obtain ⟨hmem, rfl⟩ := mem_of_execution? hrow
  exact (h.executions row hmem).trans (h.mem_workflows hteam)

theorem Parted.owner?_without (hid : id ∉ o.executions) :
    (t.without o).owner? id = t.owner? id := by
  unfold owner?
  rw [execution?_without hid]
  refine Option.map_congr fun row hrow => ?_
  obtain ⟨hmem, rfl⟩ := mem_of_execution? hrow
  exact team?_without fun hw => hid ((h.executions row hmem).2 hw)

theorem Parted.owner?_only (hid : id ∈ o.executions) : (t.only o).owner? id = t.owner? id := by
  unfold owner?
  rw [execution?_only hid]
  refine Option.map_congr fun row hrow => ?_
  obtain ⟨hmem, rfl⟩ := mem_of_execution? hrow
  exact team?_only ((h.executions row hmem).1 hid)

/-- The rows of the team lie outside. -/
theorem Parted.of_without : (t.without o).of team = t.of team := by
  unfold of
  simp only [without_workflows, without_executions, without_logs, List.filter_filter, mk.injEq]
  refine ⟨List.filter_congr fun row hrow => ?_, List.filter_congr fun row hrow => ?_,
    List.filter_congr fun log _ => ?_⟩
  · have hw := h.workflows row hrow
    by_cases hteam : row.team = team <;> simp [hteam, hw]
  · by_cases hw : row.workflow ∈ o.workflows
    · have hid : row.id ∈ o.executions := (h.executions row hrow).2 hw
      have hteam : t.team? row.workflow ≠ some team := fun hteam =>
        (h.mem_workflows hteam).1 hw rfl
      simp [hid, hteam]
    · have hid : row.id ∉ o.executions := fun hid => hw ((h.executions row hrow).1 hid)
      simp [hid, team?_without hw]
  · by_cases hex : log.execution ∈ o.executions
    · have howner : t.owner? log.execution ≠ some (some team) := fun howner =>
        (h.mem_executions howner).1 hex rfl
      simp [hex, howner]
    · simp [hex, h.owner?_without hex]

/-- The rows of any other team lie in the part. -/
theorem Parted.of_only (hu : u ≠ team) : (t.only o).of u = t.of u := by
  unfold of
  simp only [only_workflows, only_executions, only_logs, List.filter_filter, mk.injEq]
  refine ⟨List.filter_congr fun row hrow => ?_, List.filter_congr fun row hrow => ?_,
    List.filter_congr fun log _ => ?_⟩
  · have hw := h.workflows row hrow
    by_cases hteam : row.team = u
    · simp [hteam, hw, hu]
    · simp [hteam]
  · by_cases hw : row.workflow ∈ o.workflows
    · have hid : row.id ∈ o.executions := (h.executions row hrow).2 hw
      simp [hid, team?_only hw]
    · have hid : row.id ∉ o.executions := fun hid => hw ((h.executions row hrow).1 hid)
      have hteam : t.team? row.workflow ≠ some u := fun hteam => hw ((h.mem_workflows hteam).2 hu)
      simp [hid, hteam]
  · by_cases hex : log.execution ∈ o.executions
    · simp [hex, h.owner?_only hex]
    · have howner : t.owner? log.execution ≠ some (some u) := fun howner =>
        hex ((h.mem_executions howner).2 hu)
      simp [hex, howner]

end

/-- The part covers what is not of the team, and nothing else that stands in the rows. -/
structure Covered (o : Region) (team : Uuid) (t : Tables) : Prop where
  workflows : ∀ id ∈ t.workflows.map (·.id) ++ t.executions.map (·.workflow),
    id ∈ o.workflows ↔ t.team? id ≠ some team
  executions : ∀ id ∈ t.executions.map (·.id) ++ t.logs.map (·.execution),
    id ∈ o.executions ↔ t.owner? id ≠ some (some team)
  logs : ∀ log ∈ t.logs, log.execution ∈ o.executions → log.id ∈ o.logs

/-- What is not of the team in one or the other of two stores that agree. -/
theorem Agrees.covered {t₀ : Tables} (ha : t.Agrees team t') (h : t₀ = t ∨ t₀ = t') :
    t₀.Covered ((t.foreign team).append (t'.foreign team)) team := by
  have hteams : ∀ id, t₀.team? id = t.team? id := by
    rcases h with rfl | rfl
    · exact fun _ => rfl
    · exact ha.teams
  have howners : ∀ id, t₀.owner? id = t.owner? id := by
    rcases h with rfl | rfl
    · exact fun _ => rfl
    · exact ha.owners
  constructor
  · intro id hid
    simp only [Region.append, foreign, List.mem_append, List.mem_filter, decide_eq_true_eq,
      ha.teams, hteams] at hid ⊢
    refine ⟨fun hmem => hmem.elim And.right And.right, fun hne => ?_⟩
    rcases h with rfl | rfl
    · exact Or.inl ⟨hid, hne⟩
    · exact Or.inr ⟨hid, hne⟩
  · intro id hid
    simp only [Region.append, foreign, List.mem_append, List.mem_filter, decide_eq_true_eq,
      ha.owners, howners] at hid ⊢
    refine ⟨fun hmem => hmem.elim And.right And.right, fun hne => ?_⟩
    rcases h with rfl | rfl
    · exact Or.inl ⟨hid, hne⟩
    · exact Or.inr ⟨hid, hne⟩
  · intro log hlog hex
    simp only [Region.append, foreign, List.mem_append, List.mem_filter, List.mem_map,
      decide_eq_true_eq, ha.owners] at hex ⊢
    have hne : t.owner? log.execution ≠ some (some team) := hex.elim And.right And.right
    rcases h with rfl | rfl
    · exact Or.inl ⟨log, ⟨hlog, hne⟩, rfl⟩
    · exact Or.inr ⟨log, ⟨hlog, hne⟩, rfl⟩

section

variable (h : t.Covered o team)

include h

theorem Covered.parted (hk : t.Keyed) : t.Parted o team where
  workflows row hrow := by
    have hteam : t.team? row.id = some row.team := congrArg _ (hk.workflows row hrow)
    rw [h.workflows row.id (List.mem_append_left _ (List.mem_map_of_mem hrow)), hteam]
    simp
  executions row hrow := by
    have howner : t.owner? row.id = some (t.team? row.workflow) :=
      congrArg _ (hk.executions row hrow)
    rw [h.executions row.id (List.mem_append_left _ (List.mem_map_of_mem hrow)), howner,
      h.workflows row.workflow (List.mem_append_right _ (List.mem_map_of_mem hrow))]
    simp
  logs := h.logs

/-- Outside the part lie the rows of the team. -/
theorem Covered.without_eq (hk : t.Keyed) : t.without o = t.of team := by
  have hp := h.parted hk
  unfold without of
  simp only [mk.injEq]
  refine ⟨List.filter_congr fun row hrow => ?_, List.filter_congr fun row hrow => ?_,
    List.filter_congr fun log hlog => ?_⟩
  · simp [hp.workflows row hrow]
  · simp [hp.executions row hrow,
      h.workflows row.workflow (List.mem_append_right _ (List.mem_map_of_mem hrow))]
  · simp [h.executions log.execution (List.mem_append_right _ (List.mem_map_of_mem hlog))]

end

/-- What stands in neither of two stores is new to the part. -/
theorem lacks_of_not_mem_names (h : id ∉ t.names) (h' : id ∉ t'.names) :
    ((t.foreign team).append (t'.foreign team)).Lacks id := by
  simp only [names, List.mem_append, not_or] at h h'
  obtain ⟨⟨hw, he⟩, hl⟩ := h
  obtain ⟨⟨hw', he'⟩, hl'⟩ := h'
  constructor
  · simp [Region.append, foreign, hw, hw', -List.mem_map]
  · simp [Region.append, foreign, he, he', -List.mem_map]
  · simp only [Region.append, foreign, List.mem_append, not_or]
    exact ⟨fun hmem => hl ((List.filter_sublist.map _).subset hmem),
      fun hmem => hl' ((List.filter_sublist.map _).subset hmem)⟩

end Tables

end Flowgraph
