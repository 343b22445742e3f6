import Flowgraph.Proofs.Database.Stored
import Mathlib.Data.List.Nodup

/-! The outcomes of the statements on the rows of a store. A selection by the identifier, an update
and a deletion have one outcome each; of attempts that started at the same time any may be
completed. -/

namespace Flowgraph

namespace Rows

variable {α κ : Type} [DecidableEq κ] {key : α → κ} {p : α → Bool} {f : α → α}

/-- Among rows with keys of their own, the row that takes another's place stands under its key. -/
theorem updateFirst?_eq {l : List α} (h : (l.map key).Nodup) :
    updateFirst? p f l =
      (l.find? p).map fun r => l.map fun a => if key a = key r then f a else a := by
  induction l with
  | nil => rfl
  | cons b rest ih =>
    obtain ⟨hb, hrest⟩ := List.nodup_cons.1 h
    rw [updateFirst?, List.find?_cons]
    cases hp : p b with
    | true =>
      have hothers : rest.map (fun a => if key a = key b then f a else a) = rest := by
        refine (List.map_congr_left fun a ha => if_neg fun he => hb ?_).trans (List.map_id rest)
        exact he ▸ List.mem_map_of_mem ha
      simp [hothers]
    | false =>
      simp only [Bool.false_eq_true, if_false, ih hrest, Option.map_map]
      refine Option.map_congr fun r hr => ?_
      have hne : key b ≠ key r := fun he =>
        hb (he ▸ List.mem_map_of_mem (List.mem_of_find?_eq_some hr))
      simp [hne]

theorem updateLast?_eq {l : List α} (h : (l.map key).Nodup) :
    updateLast? p f l =
      (l.reverse.find? p).map fun r => l.map fun a => if key a = key r then f a else a := by
  have hr : (l.reverse.map key).Nodup := by rwa [List.map_reverse, List.nodup_reverse]
  simp only [updateLast?, updateFirst?_eq hr, Option.map_map]
  congr 1
  funext r
  simp [List.map_reverse]

theorem filter_key {l : List α} (h : (l.map key).Nodup) (k : κ) :
    l.filter (key · = k) = (l.find? (key · = k)).toList := by
  induction l with
  | nil => rfl
  | cons b rest ih =>
    obtain ⟨hb, hrest⟩ := List.nodup_cons.1 h
    rw [List.filter_cons, List.find?_cons]
    by_cases hk : key b = k
    · have hnone : rest.filter (key · = k) = [] := by
        refine List.filter_eq_nil_iff.2 fun a ha he => hb ?_
        rw [hk, ← of_decide_eq_true he]
        exact List.mem_map_of_mem ha
      simp [hk, hnone]
    · simp [hk, ih hrest]

theorem countP_key {l : List α} (h : (l.map key).Nodup) (k : κ) :
    l.countP (key · = k) = (l.find? (key · = k)).toList.length := by
  rw [List.countP_eq_length_filter, filter_key h]

theorem countP_key_and {l : List α} (h : (l.map key).Nodup) (k : κ) (q : α → Bool) :
    (l.countP fun a => key a = k && q a) = ((l.find? (key · = k)).toList).countP q := by
  rw [← filter_key h, List.countP_filter]
  simp only [Bool.and_comm]

theorem find?_key {l : List α} {a : α} (h : (l.map key).Nodup) (ha : a ∈ l) :
    l.find? (key · = key a) = some a := by
  cases hf : l.find? (key · = key a) with
  | none => exact absurd (List.find?_eq_none.1 hf a ha) (by simp)
  | some b =>
    have hb : key b = key a := by simpa using List.find?_some hf
    rw [List.inj_on_of_nodup_map h (List.mem_of_find?_eq_some hf) ha hb]

theorem map_of_find?_eq_none {l : List α} {k : κ} (h : l.find? (key · = k) = none) (q : α → Bool) :
    (l.map fun a => if key a = k && q a then f a else a) = l := by
  refine (List.map_congr_left fun a ha => ?_).trans (List.map_id l)
  have hne : key a ≠ k := by simpa using List.find?_eq_none.1 h a ha
  simp [hne]

/-- Where one row carries the key, it alone is changed, or nothing. -/
theorem map_of_find?_eq_some {l : List α} {k : κ} {b : α} (hl : (l.map key).Nodup)
    (h : l.find? (key · = k) = some b) (q : α → Bool) :
    (l.map fun a => if key a = k && q a then f a else a) =
      if q b then l.map fun a => if key a = key b then f b else a else l := by
  have hk : key b = k := by simpa using List.find?_some h
  have honly : ∀ a ∈ l, key a = k → a = b := fun a ha he =>
    List.inj_on_of_nodup_map hl ha (List.mem_of_find?_eq_some h) (he.trans hk.symm)
  split
  · next hb =>
    refine List.map_congr_left fun a ha => ?_
    by_cases he : key a = k
    · simp [honly a ha he, hk, hb]
    · simp [he, hk]
  · next hb =>
    refine (List.map_congr_left fun a ha => ?_).trans (List.map_id l)
    by_cases he : key a = k
    · simp [honly a ha he, hb]
    · simp [he]

end Rows

namespace Database

section ById

variable {α : Type} {cells : α → Row} {key : α → Uuid} {l : List α} {contents : Contents}
  {table : String}

theorem passes_id (hid : ∀ a, (cells a).value "id" = .uuid (key a)) {params : List Cell} {n : Nat}
    {id : Uuid} (hn : bound params n = .uuid id) (a : α) :
    passes params [.equals "id" n] (cells a) = decide (key a = id) := by
  simp [passes, Test.holds, hid, hn]

/-- A selection by the identifier returns the row that carries it. -/
theorem selects_byId (hid : ∀ a, (cells a).value "id" = .uuid (key a))
    (ht : contents table = l.map cells) (hl : (l.map key).Nodup) (columns : List String) (id : Uuid)
    {reply : Reply} {after : Contents} :
    Query.Outcome ⟨rowsWhere columns table "id" [], [.uuid id]⟩ contents reply after ↔
      reply = .rows ((l.find? (key · = id)).map fun a => (cells a).project columns).toList ∧
        after = contents := by
  have hrows : (contents table).filter (passes [.uuid id] [.equals "id" 1]) =
      ((l.find? (key · = id)).toList).map cells := by
    rw [ht, List.filter_map, ← Rows.filter_key hl]
    congr 1
    exact List.filter_congr fun a _ => passes_id hid rfl a
  constructor
  · rintro ⟨arranged, hperm, -, rfl⟩
    rw [hrows] at hperm
    refine ⟨?_, rfl⟩
    cases hf : l.find? (key · = id) with
    | none =>
      rw [hf] at hperm
      rw [hperm.eq_nil]
      rfl
    | some a =>
      rw [hf] at hperm
      rw [List.perm_singleton.1 hperm]
      rfl
  · rintro ⟨rfl, rfl⟩
    refine .selected ⟨_, List.Perm.refl _, ?_, ?_⟩
    · rw [hrows]
      cases l.find? (key · = id) <;> simp
    · rw [hrows]
      cases l.find? (key · = id) <;> rfl

/-- An update changes the rows whose like in memory are changed. -/
theorem update_rows {params : List Cell} (sets : List (String × Assigned)) (meets : Row → Bool)
    {p : α → Bool} {f : α → α} (ht : contents table = l.map cells)
    (hp : ∀ a, meets (cells a) = p a) (hf : ∀ a, (cells a).assign params sets = cells (f a)) :
    (contents table).countP meets = l.countP p ∧
      ((contents table).map fun row => if meets row then row.assign params sets else row) =
        (l.map fun a => if p a then f a else a).map cells := by
  rw [ht]
  constructor
  · rw [List.countP_map]
    exact List.countP_congr fun a _ => by simp [hp a]
  · rw [List.map_map, List.map_map]
    refine List.map_congr_left fun a _ => ?_
    simp only [Function.comp, hp a, hf a]
    split <;> rfl

theorem updates_outcome {params : List Cell} {tests : List Test}
    {sets : List (String × Assigned)} {p : α → Bool} {f : α → α}
    (ht : contents table = l.map cells) (hp : ∀ a, passes params tests (cells a) = p a)
    (hf : ∀ a, (cells a).assign params sets = cells (f a)) {reply : Reply} {after : Contents} :
    Query.Outcome ⟨.update table sets (.tests tests), params⟩ contents reply after ↔
      reply = .affected (l.countP p) ∧
        after = contents.put table ((l.map fun a => if p a then f a else a).map cells) := by
  obtain ⟨hcount, hrows⟩ := update_rows sets _ ht hp hf
  rw [← hcount, ← hrows]
  constructor
  · rintro (_ | ⟨⟨⟩⟩ | _)
    exact ⟨rfl, rfl⟩
  · rintro ⟨rfl, rfl⟩
    exact .updated .tests

end ById

section Statements

variable {t : Tables} {reply : Reply} {after : Contents}

theorem first_singleton {α : Type} {read : Row → Except DatabaseFault α} {row : Row} {a : α}
    (h : read row = .ok a) : (Reply.rows [row]).first read = .ok a := by
  change (read row).mapError StoreError.database = .ok a
  rw [h]
  rfl

theorem passes_status (e : ExecutionRow) (st : RunStatus) (finished : Bool) (now : Instant)
    (id : Uuid) :
    passes [.text st.text, .bool finished, .ofInstant now, .uuid id]
      [.equals "id" 4, .noneOf "status" [RunStatus.success.text, RunStatus.error.text]] e.cells =
        (decide (e.id = id) && !e.status.isTerminal) := by
  have hopen : decide (e.status.text ∉ [RunStatus.success.text, RunStatus.error.text]) =
      !e.status.isTerminal := by
    cases e.status <;> decide
  simp [passes, Test.holds, bound, ← hopen]

theorem assign_status (e : ExecutionRow) (st : RunStatus) (finished : Bool) (now : Instant)
    (id : Uuid) :
    e.cells.assign [.text st.text, .bool finished, .ofInstant now, .uuid id]
        [("status", .param 1), ("finished_at", .paramIf 2 3)] =
      { e with status := st, finishedAt := if finished then some now else e.finishedAt }.cells := by
  cases finished <;> rfl

theorem assign_completion (row : LogRow) (c : Completion) (rest : List Cell) :
    row.cells.assign (completionParams c ++ rest)
        [("status", .param 1), ("output", .param 2), ("error", .param 3),
          ("finished_at", .param 4)] =
      (row.complete c).cells := rfl

theorem updates_status (t : Tables) (st : RunStatus) (finished : Bool) (now : Instant) (id : Uuid) :
    Query.Outcome ⟨updateStatus, [.text st.text, .bool finished, .ofInstant now, .uuid id]⟩
        t.contents reply after ↔
      reply = .affected (t.executions.countP fun e => e.id = id && !e.status.isTerminal) ∧
        after = { t with
          executions := t.executions.map fun (e : ExecutionRow) =>
            if e.id = id && !e.status.isTerminal then
              { e with status := st, finishedAt := if finished then some now else e.finishedAt }
            else e }.contents := by
  rw [← t.put_executions (t.executions.map _)]
  exact updates_outcome t.contents_executions (fun e => passes_status e st finished now id)
    fun e => assign_status e st finished now id

theorem completes_byId (t : Tables) (c : Completion) (id : Uuid) :
    (targetQuery c (.row id)).Outcome t.contents reply after ↔
      reply = .affected (t.logs.countP fun row => row.id = id) ∧
        after = { t with
          logs := t.logs.map fun (row : LogRow) =>
            if row.id = id then row.complete c else row }.contents := by
  rw [← t.put_logs (t.logs.map _)]
  have hpasses : ∀ row : LogRow, passes (completionParams c ++ [Cell.uuid id]) [.equals "id" 5]
      row.cells = decide (row.id = id) :=
    passes_id LogRow.value_id rfl
  have houtcome : (targetQuery c (.row id)).Outcome t.contents reply after ↔ _ :=
    updates_outcome t.contents_logs hpasses fun row => assign_completion row c [.uuid id]
  simp only [decide_eq_true_iff] at houtcome
  exact houtcome

/-- The attempts at a node, in the order in which they were written. -/
def attempts (t : Tables) (execution : Uuid) (nodeId : String) : List LogRow :=
  t.logs.filter fun row => row.execution = execution && row.nodeId = nodeId

section Latest

variable {c : Completion} {execution : Uuid} {nodeId : String}

theorem passes_attempt (row : LogRow) :
    passes (completionParams c ++ [Cell.uuid execution, .text nodeId])
      [.equals "execution_id" 5, .equals "node_id" 6] row.cells =
        (decide (row.execution = execution) && decide (row.nodeId = nodeId)) := by
  simp [passes, Test.holds, bound, completionParams]

theorem mayPrecede_started {a b : LogRow} :
    MayPrecede a.cells b.cells [⟨"started_at", true⟩] ↔
      micros b.startedAt ≤ micros a.startedAt := by
  have hputs : ∀ x y : LogRow, Order.Puts ⟨"started_at", true⟩ x.cells y.cells ↔
      micros y.startedAt < micros x.startedAt := fun x y => Iff.rfl
  simp only [MayPrecede, hputs, and_true]
  omega

theorem matching_eq (t : Tables) (execution : Uuid) (nodeId : String) :
    (t.contents "execution_logs").filter
        (passes (completionParams c ++ [Cell.uuid execution, .text nodeId])
          [.equals "execution_id" 5, .equals "node_id" 6]) =
      (attempts t execution nodeId).map LogRow.cells := by
  rw [Tables.contents_logs, List.filter_map]
  congr 1
  exact List.filter_congr fun row _ => passes_attempt row

/-- What is selected is an attempt that no other started after, if there are any. -/
theorem returns_latest {rows : List Row}
    (h : Selection.Returns (completionParams c ++ [Cell.uuid execution, .text nodeId]) t.contents
      ⟨["id"], "execution_logs", [.equals "execution_id" 5, .equals "node_id" 6],
        [⟨"started_at", true⟩], some 1⟩ rows) :
    (attempts t execution nodeId = [] ∧ rows = []) ∨
      ∃ last ∈ attempts t execution nodeId,
        (∀ row ∈ attempts t execution nodeId, micros row.startedAt ≤ micros last.startedAt) ∧
          rows = [[("id", .uuid last.id)]] := by
  obtain ⟨arranged, hperm, hsorted, rfl⟩ := h
  rw [matching_eq] at hperm
  cases arranged with
  | nil => exact Or.inl ⟨by simpa using hperm.symm.eq_nil, rfl⟩
  | cons first rest =>
    obtain ⟨last, hlast, rfl⟩ := List.mem_map.1 (hperm.subset List.mem_cons_self)
    refine Or.inr ⟨last, hlast, fun row hrow => ?_, rfl⟩
    rcases List.mem_cons.1 (hperm.symm.subset (List.mem_map_of_mem hrow)) with he | hrest
    · have hstart := congrArg (Row.value · "started_at") he
      simp only [LogRow.value_startedAt, Cell.time.injEq] at hstart
      exact Int.le_of_eq hstart
    · exact mayPrecede_started.1 ((List.pairwise_cons.1 hsorted).1 _ hrest)

theorem exists_returns_latest (t : Tables) (c : Completion) (execution : Uuid) (nodeId : String) :
    ∃ rows, Selection.Returns (completionParams c ++ [Cell.uuid execution, .text nodeId]) t.contents
      ⟨["id"], "execution_logs", [.equals "execution_id" 5, .equals "node_id" 6],
        [⟨"started_at", true⟩], some 1⟩ rows := by
  let later (a b : LogRow) : Bool := decide (micros b.startedAt ≤ micros a.startedAt)
  have hsorted : ((attempts t execution nodeId).mergeSort later).Pairwise fun a b =>
      micros b.startedAt ≤ micros a.startedAt := by
    have htrans : ∀ a b c, later a b → later b c → later a c := fun a b c hab hbc =>
      decide_eq_true (Int.le_trans (of_decide_eq_true hbc) (of_decide_eq_true hab))
    have htotal : ∀ a b, later a b || later b a := fun a b => by
      simpa [later] using Int.le_total _ _
    exact (List.pairwise_mergeSort htrans htotal _).imp of_decide_eq_true
  refine ⟨_, ((attempts t execution nodeId).mergeSort later).map LogRow.cells, ?_, ?_, rfl⟩
  · rw [matching_eq]
    exact (List.mergeSort_perm _ _).map _
  · exact List.pairwise_map.2 (hsorted.imp mayPrecede_started.2)

/-- Of the attempts that started last one is completed. Which one, the statement leaves open. -/
theorem completes_latest (hl : (t.logs.map (·.id)).Nodup)
    (h : (targetQuery c (.latest execution nodeId)).Outcome t.contents reply after) :
    (attempts t execution nodeId = [] ∧ reply = .affected 0 ∧ after = t.contents) ∨
      ∃ last ∈ attempts t execution nodeId,
        (∀ row ∈ attempts t execution nodeId, micros row.startedAt ≤ micros last.startedAt) ∧
          reply = .affected 1 ∧ after = { t with
            logs := t.logs.map fun (row : LogRow) =>
              if row.id = last.id then row.complete c else row }.contents := by
  have hassign : ∀ row : LogRow, _ = _ := fun row =>
    assign_completion row c [.uuid execution, .text nodeId]
  rcases h with _ | hmeets | _
  cases hmeets with
  | nothing hrows =>
    rcases returns_latest hrows with ⟨hnone, -⟩ | ⟨last, -, -, hrows⟩
    · obtain ⟨-, hkept⟩ := update_rows _ (fun _ => false) t.contents_logs (fun _ => rfl) hassign
      refine Or.inl ⟨hnone, by simp, (congrArg (t.contents.put "execution_logs") hkept).trans ?_⟩
      rw [t.put_logs]
      simp
    · cases hrows
  | one hrows =>
    rcases returns_latest hrows with ⟨-, hrows⟩ | ⟨last, hlast, hlatest, hrows⟩
    · cases hrows
    · simp only [List.cons.injEq, Prod.mk.injEq, and_true] at hrows
      obtain ⟨-, rfl⟩ := hrows
      obtain ⟨hcount, hchanged⟩ := update_rows _
        (fun row => row.value "id" ≠ .null && row.value "id" = .uuid last.id) t.contents_logs
        (fun row => by simp : ∀ row : LogRow, _ = decide (row.id = last.id)) hassign
      have hone : t.logs.countP (·.id = last.id) = 1 := by
        rw [Rows.countP_key hl, Rows.find?_key hl (List.mem_of_mem_filter hlast)]
        rfl
      refine Or.inr ⟨last, hlast, hlatest, by rw [hcount, hone],
        (congrArg (t.contents.put "execution_logs") hchanged).trans ?_⟩
      rw [t.put_logs]
      simp

/-- Some attempt is completed, if there are any. -/
theorem exists_completes_latest (t : Tables) (c : Completion) (execution : Uuid) (nodeId : String) :
    ∃ reply after, (targetQuery c (.latest execution nodeId)).Outcome t.contents reply after := by
  obtain ⟨rows, hrows⟩ := exists_returns_latest t c execution nodeId
  rcases returns_latest hrows with ⟨-, rfl⟩ | ⟨last, -, -, rfl⟩
  · exact ⟨_, _, .updated (.nothing hrows)⟩
  · exact ⟨_, _, .updated (.one hrows)⟩

end Latest

/-- What refers to a row stays, unless the row was there before and is there no more. -/
def stays (before now : List Uuid) (id : Uuid) : Bool := decide (id ∈ before → id ∈ now)

theorem stays_filter {α : Type} {key : α → Uuid} {l : List α} (h : (l.map key).Nodup)
    (q : α → Bool) (id : Uuid) :
    stays (l.map key) ((l.filter q).map key) id = decide (∀ a ∈ l, key a = id → q a = true) := by
  rw [stays, decide_eq_decide]
  constructor
  · rintro hstays a ha rfl
    obtain ⟨b, hb, hkey⟩ := List.mem_map.1 (hstays (List.mem_map_of_mem ha))
    obtain ⟨hb, hq⟩ := List.mem_filter.1 hb
    rwa [← List.inj_on_of_nodup_map h hb ha hkey]
  · rintro hall hid
    obtain ⟨a, ha, rfl⟩ := List.mem_map.1 hid
    exact List.mem_map_of_mem (List.mem_filter.2 ⟨ha, hall a ha rfl⟩)

theorem follow_executions (before now : Tables) :
    ForeignKey.follow before.contents now.contents ⟨"executions", "workflow_id", "workflows"⟩ =
      ({ now with
        executions := now.executions.filter fun e =>
          stays (before.workflows.map (·.id)) (now.workflows.map (·.id)) e.workflow } :
        Tables).contents := by
  rw [← now.put_executions (now.executions.filter _), ForeignKey.follow, Tables.contents_executions,
    List.filter_map]
  congr 2
  refine List.filter_congr fun e _ => ?_
  simp [Contents.Has, stays]

theorem follow_logs (before now : Tables) :
    ForeignKey.follow before.contents now.contents
        ⟨"execution_logs", "execution_id", "executions"⟩ =
      ({ now with
        logs := now.logs.filter fun row =>
          stays (before.executions.map (·.id)) (now.executions.map (·.id)) row.execution } :
        Tables).contents := by
  rw [← now.put_logs (now.logs.filter _), ForeignKey.follow, Tables.contents_logs, List.filter_map]
  congr 2
  refine List.filter_congr fun row _ => ?_
  simp [Contents.Has, stays]

/-- What a deletion takes along is what the store in memory takes along. -/
theorem delete_workflow (ht : t.Storable) (id : Uuid) :
    t.contents.delete "workflows" (passes [.uuid id] [.equals "id" 1]) =
      (if ∃ w ∈ t.workflows, w.id = id then t.removeWorkflow id else t).contents := by
  have hput : t.contents.put "workflows"
      ((t.contents "workflows").filter fun row => ¬ passes [.uuid id] [.equals "id" 1] row) =
        { t with workflows := t.workflows.filter (·.id ≠ id) }.contents := by
    rw [← t.put_workflows (t.workflows.filter _), Tables.contents_workflows, List.filter_map]
    congr 2
    refine List.filter_congr fun w _ => ?_
    simp [passes, Test.holds, bound]
  simp only [Contents.delete, foreignKeys, List.foldl_cons, List.foldl_nil, hput,
    follow_executions, follow_logs, stays_filter ht.workflows, stays_filter ht.executions]
  split
  · next hfound =>
    obtain ⟨w, hw, rfl⟩ := hfound
    have hexecutions : ∀ e : ExecutionRow,
        (∀ v ∈ t.workflows, v.id = e.workflow → decide (v.id ≠ w.id) = true) ↔
          e.workflow ≠ w.id := by
      intro e
      constructor
      · rintro hall he
        simpa using hall w hw he.symm
      · rintro hne v - hv
        simpa [hv] using hne
    have hlogs : ∀ row : LogRow,
        (∀ e ∈ t.executions, e.id = row.execution → decide (e.workflow ≠ w.id) = true) ↔
          row.execution ∉ (t.executions.filter (·.workflow = w.id)).map (·.id) := by
      intro row
      simp only [List.mem_map, List.mem_filter, decide_eq_true_eq, not_exists, not_and]
      exact ⟨fun h e he hid => h e he.1 hid he.2, fun h e he hid hof => h e ⟨he, hof⟩ hid⟩
    simp only [hexecutions, hlogs]
    rfl
  · next hmissing =>
    have hworkflows : ∀ w ∈ t.workflows, decide (w.id ≠ id) = true := by
      intro w hw
      simpa using fun hid => hmissing ⟨w, hw, hid⟩
    rw [List.filter_eq_self.2 hworkflows]
    congr 2
    · exact List.filter_eq_self.2 fun e _ => by simpa using fun w hw _ => hworkflows w hw
    · refine List.filter_eq_self.2 fun row _ => ?_
      simpa using fun e _ _ w hw _ => hworkflows w hw

theorem deletes_byId (ht : t.Storable) (id : Uuid) :
    Query.Outcome ⟨.delete "workflows" [.equals "id" 1], [.uuid id]⟩ t.contents reply after ↔
      reply = .affected (t.workflows.countP (·.id = id)) ∧
        after = (if ∃ w ∈ t.workflows, w.id = id then t.removeWorkflow id else t).contents := by
  have hpasses : ∀ w : WorkflowRow, passes [.uuid id] [.equals "id" 1] w.cells =
      decide (w.id = id) :=
    passes_id WorkflowRow.value_id rfl
  have hcount : (t.contents "workflows").countP (passes [.uuid id] [.equals "id" 1]) =
      t.workflows.countP (·.id = id) := by
    rw [Tables.contents_workflows, List.countP_map]
    exact List.countP_congr fun w _ => by simp [hpasses w]
  rw [← hcount, ← delete_workflow ht]
  constructor
  · rintro (_ | _ | _)
    exact ⟨rfl, rfl⟩
  · rintro ⟨rfl, rfl⟩
    exact .deleted

end Statements

end Database

end Flowgraph
