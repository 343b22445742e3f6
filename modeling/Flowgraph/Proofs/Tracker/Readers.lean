import Flowgraph.Proofs.Action.Asks
import Flowgraph.Proofs.Store.Logs

/-! Stops and readers of an execution: what they ask, and what a reader makes of the row and of the
last attempt at each node. -/

namespace Flowgraph

/-- The status of the last attempt at the node. -/
def latestStatus? (logs : List LogRow) (id : String) : Option RunStatus :=
  (logs.filter (·.nodeId = id)).getLast?.map (·.status)

section

variable {logs before after : List LogRow} {log : LogRow} {id : String} {s : RunStatus}

theorem latestStatus?_append_self (logs : List LogRow) (log : LogRow) :
    latestStatus? (logs ++ [log]) log.nodeId = some log.status := by
  simp [latestStatus?]

theorem latestStatus?_append_of_ne (logs : List LogRow) (h : log.nodeId ≠ id) :
    latestStatus? (logs ++ [log]) id = latestStatus? logs id := by
  simp [latestStatus?, h]

theorem exists_of_latestStatus? (h : latestStatus? logs id = some s) :
    ∃ log ∈ logs, log.nodeId = id ∧ log.status = s := by
  obtain ⟨log, hlast, rfl⟩ := Option.map_eq_some_iff.1 h
  obtain ⟨hmem, hid⟩ := List.mem_filter.1 (List.mem_of_getLast? hlast)
  exact ⟨log, hmem, by simpa using hid, rfl⟩

/-- Nothing changes when a row of another node is completed, or one with the status that it has. -/
theorem latestStatus?_complete {c : Completion}
    (h : latestStatus? (before ++ log :: after) id = some s) (hc : log.nodeId = id → c.status = s) :
    latestStatus? (before ++ log.complete c :: after) id = some s := by
  have hnode : (log.complete c).nodeId = log.nodeId := rfl
  by_cases hid : log.nodeId = id
  · have hstatus : (log.complete c).status = s := hc hid
    simp only [latestStatus?, List.filter_append, List.filter_cons, hnode, hid, decide_true,
      if_true, List.getLast?_append, List.getLast?_cons] at h ⊢
    cases hafter : (after.filter (·.nodeId = id)).getLast? with
    | none => simp [hstatus]
    | some last => simpa [hafter] using h
  · simpa [latestStatus?, hnode, hid] using h

/-- A node is listed once, with the status of its last attempt. -/
theorem mem_latestPerNode_iff : (id, s) ∈ latestPerNode logs ↔ latestStatus? logs id = some s := by
  induction logs using List.reverseRecOn generalizing id s with
  | nil => simp [latestPerNode, latestStatus?]
  | append_singleton logs log ih =>
    have hlisted : (latestPerNode logs).any (·.1 = log.nodeId) = true ↔
        ∃ old, (log.nodeId, old) ∈ latestPerNode logs := by
      simp only [List.any_eq_true, decide_eq_true_eq, Prod.exists]
      constructor
      · rintro ⟨_, old, hmem, rfl⟩
        exact ⟨old, hmem⟩
      · rintro ⟨old, hmem⟩
        exact ⟨_, old, hmem, rfl⟩
    rw [latestPerNode, List.foldl_append, List.foldl_cons, List.foldl_nil, ← latestPerNode,
      latestPerNode.enter]
    by_cases hid : id = log.nodeId
    · subst hid
      rw [latestStatus?_append_self, Option.some_inj]
      split
      · next hany =>
        obtain ⟨old, hold⟩ := hlisted.1 hany
        simp only [List.mem_map, Prod.mk.injEq, Prod.exists]
        constructor
        · rintro ⟨_, _, -, rfl, rfl⟩
          exact (if_pos rfl).symm
        · rintro rfl
          exact ⟨_, old, hold, rfl, if_pos rfl⟩
      · next hnone =>
        have hnew : ∀ old, (log.nodeId, old) ∉ latestPerNode logs := fun old hold =>
          hnone (hlisted.2 ⟨old, hold⟩)
        simp [hnew, eq_comm]
    · rw [latestStatus?_append_of_ne logs (Ne.symm hid), ← ih]
      split
      · simp only [List.mem_map, Prod.mk.injEq, Prod.exists]
        constructor
        · rintro ⟨_, old, hmem, rfl, rfl⟩
          rwa [if_neg hid]
        · intro hmem
          exact ⟨id, s, hmem, rfl, if_neg hid⟩
      · simp [hid]

/-- What is hidden in logs are no statuses. -/
theorem latestPerNode_redact (logs : List LogRow) :
    latestPerNode (logs.map LogRow.redact) = latestPerNode logs :=
  List.foldl_map

end

section

variable {row : ExecutionRow} {logs : List LogRow} {id : String}

theorem effectiveStatus_of_final (h : row.status.isTerminal = true)
    (nodes : List (String × RunStatus)) : effectiveStatus row nodes = row.status :=
  if_pos h

/-- As long as the row is open, all that is served as final is an error that an attempt tells. -/
theorem effectiveStatus_of_open (h : row.status.isTerminal = false)
    (hs : (effectiveStatus row (latestPerNode logs)).isTerminal = true) :
    effectiveStatus row (latestPerNode logs) = .error ∧
      ∃ id, latestStatus? logs id = some .error := by
  rw [effectiveStatus, if_neg (by simp [h])] at hs ⊢
  split at hs
  · next hany =>
    obtain ⟨⟨id, _⟩, hmem, hstatus⟩ := List.any_eq_true.1 hany
    obtain rfl : _ = RunStatus.error := by simpa using hstatus
    exact ⟨if_pos hany, id, mem_latestPerNode_iff.1 hmem⟩
  · exact absurd (h.symm.trans hs) Bool.false_ne_true

theorem effectiveStatus_of_failed (hrow : row.status ≠ .success)
    (h : latestStatus? logs id = some .error) :
    effectiveStatus row (latestPerNode logs) = .error := by
  rw [effectiveStatus]
  split
  · next hfinal => exact (RunStatus.isTerminal_iff.1 hfinal).resolve_left hrow
  · exact if_pos (List.any_eq_true.2 ⟨_, mem_latestPerNode_iff.2 h, decide_eq_true rfl⟩)

end

/-- What a reader of the execution may ask. -/
inductive Call.Reads (execution : Uuid) : Call → Prop
  | row : Reads execution (.getExecution execution)
  | owner {workflow} : Reads execution (.workflowTeam workflow)
  | logs : Reads execution (.listLogs execution)

namespace Tracker

open Flowgraph.Action

variable {execution team : Uuid}

theorem asks_ownedExecution : (ownedExecution execution team).Asks (Call.Reads execution) := by
  refine Asks.bind (asks_ask .row) fun r => ?_
  rcases r with _ | row
  · trivial
  · refine Asks.bind (asks_ask .owner) fun r => ?_
    cases r <;> trivial

/-- Asks one thing more about an execution that the team owns. -/
def askOwned {α : Type} (execution team : Uuid) (c : Call) (answer : ExecutionRow → c.Answer → α) :
    Action (Except AccessError α) :=
  (ownedExecution execution team).bind fun
    | .error e => .done (.error e)
    | .ok row => (ask c).bind fun
      | .error e => .done (.error (.ofStore e))
      | .ok a => .done (.ok (answer row a))

section

variable {α : Type} {c : Call} {answer : ExecutionRow → c.Answer → α}

theorem askOwned_eq {next : Except AccessError ExecutionRow → Action (Except AccessError α)}
    {more : ExecutionRow → c.Reply → Action (Except AccessError α)}
    (hrefused : ∀ e, next (.error e) = .done (.error e))
    (hrow : ∀ row, next (.ok row) = (ask c).bind (more row))
    (hfailed : ∀ row e, more row (.error e) = .done (.error (.ofStore e)))
    (hdone : ∀ row a, more row (.ok a) = .done (.ok (answer row a))) :
    (ownedExecution execution team).bind next = askOwned execution team c answer := by
  refine congrArg (Action.bind _) (funext fun r => ?_)
  rcases r with e | row
  · exact hrefused e
  · refine (hrow row).trans (congrArg (Action.bind _) (funext fun r => ?_))
    rcases r with e | a
    · exact hfailed row e
    · exact hdone row a

theorem stop_eq : stop execution team =
    askOwned execution team (.updateStatus execution .error true) fun _ stopped => stopped :=
  askOwned_eq (fun _ => rfl) (fun _ => rfl) (fun _ _ => rfl) fun _ _ => rfl

theorem executionLogs_eq : executionLogs execution team =
    askOwned execution team (.listLogs execution) fun row logs =>
      ⟨{ row with status := effectiveStatus row (latestPerNode (logs.map LogRow.redact)) },
        logs.map LogRow.redact⟩ :=
  askOwned_eq (fun _ => rfl) (fun _ => rfl) (fun _ _ => rfl) fun _ _ => rfl

theorem nodeStatuses_eq : nodeStatuses execution team =
    askOwned execution team (.listLogs execution) fun row logs =>
      ⟨effectiveStatus row (latestPerNode logs), latestPerNode logs⟩ :=
  askOwned_eq (fun _ => rfl) (fun _ => rfl) (fun _ _ => rfl) fun _ _ => rfl

theorem asks_askOwned {P : Call → Prop} (hreads : ∀ c, c.Reads execution → P c) (hc : P c) :
    (askOwned execution team c answer).Asks P := by
  refine Asks.bind (asks_ownedExecution.mono hreads) fun r => ?_
  rcases r with _ | row
  · trivial
  · refine Asks.bind (asks_ask hc) fun r => ?_
    cases r <;> trivial

theorem asks_stop : (stop execution team).Asks fun c =>
    c.Reads execution ∨ c = .updateStatus execution .error true :=
  stop_eq ▸ asks_askOwned (fun _ => Or.inl) (Or.inr rfl)

theorem asks_executionLogs : (executionLogs execution team).Asks (Call.Reads execution) :=
  executionLogs_eq ▸ asks_askOwned (fun _ => id) .logs

theorem asks_nodeStatuses : (nodeStatuses execution team).Asks (Call.Reads execution) :=
  nodeStatuses_eq ▸ asks_askOwned (fun _ => id) .logs

/-- What a reader has asked that has been served: the row, its owner and the logs. -/
def Read (execution : Uuid) (row : ExecutionRow) (logs : List LogRow) (h : List Event) : Prop :=
  ∃ owner, h = [.called (.getExecution execution) (.ok row),
    .called (.workflowTeam row.workflow) (.ok owner), .called (.listLogs execution) (.ok logs)]

theorem ensures_ownedExecution :
    (ownedExecution execution team).Ensures (fun _ => True) (fun _ => False)
      (fun r h => ∀ row, r = .ok row → ∃ owner, h =
        [.called (.getExecution execution) (.ok row),
          .called (.workflowTeam row.workflow) (.ok owner)]) [] := by
  refine Ensures.bind (ensures_ask trivial fun _ => trivial) ?_
  rintro r _ - - rfl
  rcases r with e | row
  · exact ⟨trivial, by simp⟩
  · refine Ensures.bind (ensures_ask trivial fun _ => trivial) ?_
    rintro r _ - - rfl
    rcases r with e | owner
    · exact ⟨trivial, by simp⟩
    · refine ⟨trivial, fun row' hrow' => ?_⟩
      split at hrow' <;> cases hrow'
      exact ⟨owner, rfl⟩

/-- An answer comes after the row, its owner and what is asked then. -/
theorem ensures_askOwned :
    (askOwned execution team c answer).Ensures (fun _ => True) (fun _ => False)
      (fun reply h => ∀ v, reply = .ok v → ∃ row owner a,
        h = [.called (.getExecution execution) (.ok row),
          .called (.workflowTeam row.workflow) (.ok owner), .called c (.ok a)] ∧
        v = answer row a) [] := by
  refine Ensures.bind ensures_ownedExecution ?_
  rintro r h - - hr
  rcases r with e | row
  · exact ⟨trivial, by simp⟩
  · obtain ⟨owner, rfl⟩ := hr row rfl
    refine Ensures.bind (ensures_ask trivial fun _ => trivial) ?_
    rintro r _ - - rfl
    rcases r with e | a
    · exact ⟨trivial, by simp⟩
    · refine ⟨trivial, ?_⟩
      rintro _ ⟨⟩
      exact ⟨row, owner, a, rfl, rfl⟩

end

/-- A stop that gets an answer has read the row and its owner and then written the row once. -/
theorem ensures_stop :
    (stop execution team).Ensures (fun _ => True) (fun _ => False)
      (fun reply h => ∀ b, reply = .ok b → ∃ row owner,
        h = [.called (.getExecution execution) (.ok row),
          .called (.workflowTeam row.workflow) (.ok owner),
          .called (.updateStatus execution .error true) (.ok b)]) [] := by
  rw [stop_eq]
  refine ensures_askOwned.mono fun reply h _ _ hreply b hb => ?_
  obtain ⟨row, owner, _, rfl, rfl⟩ := hreply b hb
  exact ⟨row, owner, rfl⟩

theorem ensures_executionLogs :
    (executionLogs execution team).Ensures (fun _ => True) (fun _ => False)
      (fun r h => ∀ served, r = .ok served → ∃ row logs, Read execution row logs h ∧
        served.execution.status = effectiveStatus row (latestPerNode logs)) [] := by
  rw [executionLogs_eq]
  refine ensures_askOwned.mono fun reply h _ _ hreply served hserved => ?_
  obtain ⟨row, owner, logs, rfl, rfl⟩ := hreply served hserved
  exact ⟨row, logs, ⟨owner, rfl⟩, by rw [latestPerNode_redact]⟩

theorem ensures_nodeStatuses :
    (nodeStatuses execution team).Ensures (fun _ => True) (fun _ => False)
      (fun r h => ∀ served, r = .ok served → ∃ row logs, Read execution row logs h ∧
        served.status = effectiveStatus row (latestPerNode logs)) [] := by
  rw [nodeStatuses_eq]
  refine ensures_askOwned.mono fun reply h _ _ hreply served hserved => ?_
  obtain ⟨row, owner, logs, rfl, rfl⟩ := hreply served hserved
  exact ⟨row, logs, ⟨owner, rfl⟩, rfl⟩

end Tracker

end Flowgraph
