import Flowgraph.Store.Call

/-! A store in memory: three tables, and a switch that makes every write of a log fail. -/

namespace Flowgraph

/-- Fresh identifiers and the clock. Each reading of the clock is later than the one before. -/
structure Supply where
  serial : Nat
  micros : Int

namespace Supply

/-- The serial number stands behind a mark that no other identifier carries. -/
def fresh (s : Supply) : Uuid × Supply :=
  (.ofNat (0xfe000000000000000000000000000000 + s.serial), { s with serial := s.serial + 1 })

def now (s : Supply) : Instant × Supply :=
  (.ofMicros s.micros, { s with micros := s.micros + 1 })

end Supply

/-- Log rows stand in the order in which they were written. -/
structure Tables where
  workflows : List WorkflowRow
  executions : List ExecutionRow
  logs : List LogRow
  deriving DecidableEq

/-- Replaces the first row that satisfies `p`; `none` if there is no such row. -/
def Rows.updateFirst? (p : α → Bool) (f : α → α) : List α → Option (List α)
  | [] => none
  | a :: rest => if p a then some (f a :: rest) else (updateFirst? p f rest).map (a :: ·)

/-- Replaces the last row that satisfies `p`. -/
def Rows.updateLast? (p : α → Bool) (f : α → α) (rows : List α) : Option (List α) :=
  (Rows.updateFirst? p f rows.reverse).map List.reverse

namespace Tables

def empty : Tables := ⟨[], [], []⟩

def workflow? (t : Tables) (id : Uuid) : Option WorkflowRow := t.workflows.find? (·.id = id)

def execution? (t : Tables) (id : Uuid) : Option ExecutionRow := t.executions.find? (·.id = id)

/-- A row takes the place of one with its id. -/
def putWorkflow (t : Tables) (row : WorkflowRow) : Tables :=
  { t with
    workflows :=
      (Rows.updateFirst? (·.id = row.id) (fun _ => row) t.workflows).getD (t.workflows ++ [row]) }

def putLog (t : Tables) (row : LogRow) : Tables :=
  { t with
    logs := (Rows.updateFirst? (·.id = row.id) (fun _ => row) t.logs).getD (t.logs ++ [row]) }

/-- The newest first. -/
def teamWorkflows (t : Tables) (team : Uuid) : List WorkflowRow :=
  (t.workflows.filter (·.team = team)).mergeSort fun a b => !a.createdAt.earlier b.createdAt

/-- With a workflow go its executions and their logs. -/
def removeWorkflow (t : Tables) (id : Uuid) : Tables :=
  let gone := (t.executions.filter (·.workflow = id)).map (·.id)
  { workflows := t.workflows.filter (·.id ≠ id)
    executions := t.executions.filter (·.workflow ≠ id)
    logs := t.logs.filter (·.execution ∉ gone) }

def executionLogs (t : Tables) (execution : Uuid) : List LogRow :=
  t.logs.filter (·.execution = execution)

def setExecution (t : Tables) (row : ExecutionRow) : Tables :=
  { t with executions := t.executions.map fun r => if r.id = row.id then row else r }

def completeLog (t : Tables) (target : LogTarget) (c : Completion) : Option Tables :=
  match target with
  | .row id =>
    (Rows.updateFirst? (·.id = id) (·.complete c) t.logs).map fun logs => { t with logs }
  | .latest execution nodeId =>
    (Rows.updateLast? (fun r => r.execution = execution && r.nodeId = nodeId) (·.complete c)
      t.logs).map fun logs => { t with logs }

end Tables

structure MemoryStore where
  tables : Tables
  logWritesFail : Bool
  rejectedLogWrites : Nat
  deriving DecidableEq

namespace MemoryStore

def empty : MemoryStore := ⟨.empty, false, 0⟩

def withTables (s : MemoryStore) (t : Tables) : MemoryStore := { s with tables := t }

def logWritesDisabled : StoreError := .unavailable "log writes are disabled"

def reject (s : MemoryStore) : MemoryStore :=
  { s with rejectedLogWrites := s.rejectedLogWrites + 1 }

/-- What a store answers, and the store after it. -/
def answer (s : MemoryStore) (supply : Supply) : (c : Call) → c.Reply × MemoryStore × Supply
  | .createWorkflow team name definition =>
    let (id, supply) := supply.fresh
    let (createdAt, supply) := supply.now
    let row : WorkflowRow := ⟨id, team, name, definition, createdAt⟩
    (.ok row, s.withTables (s.tables.putWorkflow row), supply)
  | .getWorkflow id =>
    match s.tables.workflow? id with
    | some row => (.ok row, s, supply)
    | none => (.error .notFound, s, supply)
  | .listWorkflows team => (.ok (s.tables.teamWorkflows team), s, supply)
  | .deleteWorkflow id =>
    match s.tables.workflow? id with
    | some _ => (.ok (), s.withTables (s.tables.removeWorkflow id), supply)
    | none => (.error .notFound, s, supply)
  | .createExecution workflow =>
    let (id, supply) := supply.fresh
    let (startedAt, supply) := supply.now
    let row : ExecutionRow := ⟨id, workflow, .pending, startedAt, none⟩
    let tables := { s.tables with executions := s.tables.executions ++ [row] }
    (.ok row, s.withTables tables, supply)
  | .getExecution id =>
    match s.tables.execution? id with
    | some row => (.ok row, s, supply)
    | none => (.error .notFound, s, supply)
  | .updateStatus id status finished =>
    match s.tables.execution? id with
    | none => (.error .notFound, s, supply)
    | some row =>
      if row.status.isTerminal then (.ok false, s, supply)
      else if finished then
        let (t, supply) := supply.now
        let row := { row with status, finishedAt := some t }
        (.ok true, s.withTables (s.tables.setExecution row), supply)
      else (.ok true, s.withTables (s.tables.setExecution { row with status }), supply)
  | .insertLog entry =>
    if s.logWritesFail then (.error logWritesDisabled, s.reject, supply)
    else
      let (id, supply) := supply.fresh
      let row := entry.row id
      (.ok row, s.withTables { s.tables with logs := s.tables.logs ++ [row] }, supply)
  | .completeLog target completion =>
    if s.logWritesFail then (.error logWritesDisabled, s.reject, supply)
    else match s.tables.completeLog target completion with
      | some tables => (.ok (), s.withTables tables, supply)
      | none => (.error .notFound, s, supply)
  | .listLogs execution => (.ok (s.tables.executionLogs execution), s, supply)
  | .workflowTeam workflow =>
    match s.tables.workflow? workflow with
    | some row => (.ok row.team, s, supply)
    | none => (.error .notFound, s, supply)

end MemoryStore

end Flowgraph
