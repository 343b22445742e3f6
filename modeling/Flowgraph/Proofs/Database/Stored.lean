import Flowgraph.Proofs.Database.Contents
import Flowgraph.Store.Memory

/-! The tables of a store as the contents of a database, and back. A database keeps whole
microseconds, and the rows it keeps are read back as they were. -/

namespace Flowgraph

/-- The point in time is a whole number of microseconds. -/
def Instant.Whole (t : Instant) : Prop := ∃ micros, t = Database.Cell.instant micros

namespace Database

/-- The number by which a database keeps a point in time. -/
def micros (t : Instant) : Int := ((t.seconds - Cell.epoch) * 1000000000 + t.nanos).tdiv 1000

theorem Cell.ofInstant_eq (t : Instant) : Cell.ofInstant t = .time (micros t) := rfl

@[simp] theorem micros_instant (n : Int) : micros (Cell.instant n) = n := by
  have hnanos : (((n + Cell.epoch * 1000000) / 1000000 - Cell.epoch) * 1000000000 +
      (((n + Cell.epoch * 1000000) % 1000000).toNat * 1000 : Nat) : Int) = n * 1000 := by
    simp only [Cell.epoch]
    omega
  rw [micros, Cell.instant, Instant.ofMicros, hnanos]
  exact Int.mul_tdiv_cancel n (by decide)

theorem instant_micros {t : Instant} (h : t.Whole) : Cell.instant (micros t) = t := by
  obtain ⟨n, rfl⟩ := h
  rw [micros_instant]

theorem micros_lt {a b : Instant} (ha : a.Whole) (hb : b.Whole) (h : a.earlier b = true) :
    micros a < micros b := by
  obtain ⟨m, rfl⟩ := ha
  obtain ⟨n, rfl⟩ := hb
  rw [micros_instant, micros_instant]
  simp only [Instant.earlier, Bool.or_eq_true, Bool.and_eq_true, decide_eq_true_eq,
    beq_iff_eq] at h
  simp only [Cell.instant, Instant.ofMicros, Cell.epoch] at h
  omega

end Database

open Database

def WorkflowRow.cells (row : WorkflowRow) : Row :=
  [("id", .uuid row.id), ("team_id", .uuid row.team), ("name", .text row.name),
    ("definition", .json row.definition), ("created_at", .ofInstant row.createdAt)]

def ExecutionRow.cells (row : ExecutionRow) : Row :=
  [("id", .uuid row.id), ("workflow_id", .uuid row.workflow), ("status", .text row.status.text),
    ("started_at", .ofInstant row.startedAt),
    ("finished_at", .ofOption .ofInstant row.finishedAt)]

def LogRow.cells (row : LogRow) : Row :=
  [("id", .uuid row.id), ("execution_id", .uuid row.execution), ("node_id", .text row.nodeId),
    ("node_name", .text row.nodeName), ("node_type", .text row.nodeType),
    ("status", .text row.status.text), ("input", .json row.input),
    ("output", .ofOption .json row.output), ("error", .ofOption .text row.error),
    ("started_at", .ofInstant row.startedAt), ("finished_at", .ofOption .ofInstant row.finishedAt)]

section Columns

@[simp] theorem WorkflowRow.value_id (w : WorkflowRow) : w.cells.value "id" = .uuid w.id := rfl

@[simp] theorem ExecutionRow.value_id (e : ExecutionRow) : e.cells.value "id" = .uuid e.id := rfl

@[simp] theorem ExecutionRow.value_workflow (e : ExecutionRow) :
    e.cells.value "workflow_id" = .uuid e.workflow := rfl

@[simp] theorem ExecutionRow.value_status (e : ExecutionRow) :
    e.cells.value "status" = .text e.status.text := rfl

@[simp] theorem LogRow.value_id (row : LogRow) : row.cells.value "id" = .uuid row.id := rfl

@[simp] theorem LogRow.value_execution (row : LogRow) :
    row.cells.value "execution_id" = .uuid row.execution := rfl

@[simp] theorem LogRow.value_nodeId (row : LogRow) :
    row.cells.value "node_id" = .text row.nodeId := rfl

@[simp] theorem LogRow.value_startedAt (row : LogRow) :
    row.cells.value "started_at" = .time (micros row.startedAt) := rfl

end Columns

namespace Tables

/-- The contents of a database with the same rows. -/
def contents (t : Tables) : Contents := fun table =>
  if table = "workflows" then t.workflows.map WorkflowRow.cells
  else if table = "executions" then t.executions.map ExecutionRow.cells
  else if table = "execution_logs" then t.logs.map LogRow.cells
  else []

/-- What a database can keep: each identifier names one row of its table, and times are whole
numbers of microseconds. -/
structure Storable (t : Tables) : Prop where
  workflows : (t.workflows.map (·.id)).Nodup
  executions : (t.executions.map (·.id)).Nodup
  logs : (t.logs.map (·.id)).Nodup
  created : ∀ row ∈ t.workflows, row.createdAt.Whole
  begun : ∀ row ∈ t.executions, row.startedAt.Whole ∧ ∀ f ∈ row.finishedAt, f.Whole
  logged : ∀ row ∈ t.logs, row.startedAt.Whole ∧ ∀ f ∈ row.finishedAt, f.Whole

variable (t : Tables)

@[simp] theorem contents_workflows : t.contents "workflows" = t.workflows.map WorkflowRow.cells :=
  rfl

@[simp] theorem contents_executions :
    t.contents "executions" = t.executions.map ExecutionRow.cells := rfl

@[simp] theorem contents_logs : t.contents "execution_logs" = t.logs.map LogRow.cells := rfl

theorem put_workflows (rows : List WorkflowRow) :
    t.contents.put "workflows" (rows.map WorkflowRow.cells) =
      { t with workflows := rows }.contents := by
  funext table
  simp only [Contents.put, contents]
  split_ifs <;> rfl

theorem put_executions (rows : List ExecutionRow) :
    t.contents.put "executions" (rows.map ExecutionRow.cells) =
      { t with executions := rows }.contents := by
  funext table
  simp only [Contents.put, contents]
  split_ifs <;> simp_all

theorem put_logs (rows : List LogRow) :
    t.contents.put "execution_logs" (rows.map LogRow.cells) =
      { t with logs := rows }.contents := by
  funext table
  simp only [Contents.put, contents]
  split_ifs <;> simp_all

end Tables

namespace Database

section Reading

variable {α : Type} {columns : List String} {row : Row} (read : Cell → Option α) {column : String}

theorem lookup_project (h : column ∈ columns) :
    (Row.project columns row).lookup column = some (row.value column) := by
  induction columns with
  | nil => simp at h
  | cons c rest ih =>
    rw [Row.project, List.map_cons, List.lookup_cons]
    by_cases hc : column = c
    · simp [hc]
    · rw [beq_eq_false_iff_ne.2 hc]
      exact ih ((List.mem_cons.1 h).resolve_left hc)

theorem optional_project (h : column ∈ columns) :
    (Row.project columns row).optional read column = .ok (read (row.value column)) := by
  rw [Row.optional, lookup_project h]

theorem required_project (h : column ∈ columns) {a : α} (ha : read (row.value column) = some a) :
    (Row.project columns row).required read column = .ok a := by
  rw [Row.required, optional_project read h, ha]
  rfl

end Reading

theorem time?_ofInstant {t : Instant} (h : t.Whole) : Cell.time? (.ofInstant t) = some t := by
  rw [Cell.ofInstant_eq, Cell.time?, instant_micros h]

theorem workflow_project {row : WorkflowRow} (h : row.createdAt.Whole) :
    Row.workflow (Row.project workflowColumns row.cells) = .ok row := by
  have hread : Cell.time? (row.cells.value "created_at") = some row.createdAt := time?_ofInstant h
  rw [Row.workflow, required_project Cell.uuid? (by decide) rfl,
    required_project Cell.uuid? (by decide) rfl, required_project Cell.text? (by decide) rfl,
    required_project Cell.json? (by decide) rfl,
    required_project Cell.time? (by decide) hread]
  rfl

theorem execution_project {row : ExecutionRow} (h : row.startedAt.Whole)
    (hf : ∀ f ∈ row.finishedAt, f.Whole) :
    Row.execution (Row.project executionColumns row.cells) = .ok row := by
  have hread : Cell.time? (row.cells.value "started_at") = some row.startedAt := time?_ofInstant h
  have hend : Cell.time? (row.cells.value "finished_at") = row.finishedAt := by
    change Cell.time? (.ofOption .ofInstant row.finishedAt) = row.finishedAt
    cases hr : row.finishedAt with
    | none => rfl
    | some f => exact time?_ofInstant (hf f hr)
  have hstatus : (Row.project executionColumns row.cells).status "status" = .ok row.status := by
    rw [Row.status, required_project Cell.text? (by decide) (a := row.status.text) rfl]
    simp only [Except.bind, bind, RunStatus.parse_text]
    rfl
  rw [Row.execution, required_project Cell.uuid? (by decide) rfl,
    required_project Cell.uuid? (by decide) rfl, hstatus,
    required_project Cell.time? (by decide) hread,
    optional_project Cell.time? (by decide), hend]
  rfl

end Database

end Flowgraph
