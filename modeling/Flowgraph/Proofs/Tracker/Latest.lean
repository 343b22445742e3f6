import Flowgraph.Proofs.Tracker.Readers

/-! The summary of a log: each node once, nodes in the order in which they first appear, each with the
status of its last attempt. A summary depends on nothing else, so an attempt that neither lists its node
nor is its last can go from the log unnoticed. -/

namespace Flowgraph

/-- What the summary of a log says. -/
structure Summarises (logs : List LogRow) (entries : List (String × RunStatus)) : Prop where
  ids_eq : entries.map Prod.fst = (logs.map (·.nodeId)).eraseDups
  nodup : (entries.map Prod.fst).Nodup
  mem_iff : ∀ id s, (id, s) ∈ entries ↔ latestStatus? logs id = some s

section

variable {logs logs' before after : List LogRow} {log : LogRow}
  {entries entries' : List (String × RunStatus)}

theorem eraseDups_concat (ids : List String) (id : String) : (ids ++ [id]).eraseDups =
    if id ∈ ids then ids.eraseDups else ids.eraseDups ++ [id] := by
  rw [List.eraseDups_append]
  by_cases h : id ∈ ids <;> simp [List.removeAll, h, List.eraseDups_cons]

theorem nodup_eraseDups (ids : List String) : ids.eraseDups.Nodup := by
  induction ids using List.reverseRecOn with
  | nil => exact .nil
  | append_singleton ids id ih =>
    rw [eraseDups_concat]
    split
    · exact ih
    · next hnew =>
      refine List.nodup_append.2 ⟨ih, by simp, fun other hother _ hid heq => hnew ?_⟩
      obtain rfl := List.mem_singleton.1 hid
      exact heq ▸ List.mem_eraseDups.1 hother

theorem latestPerNode_concat (logs : List LogRow) (log : LogRow) :
    latestPerNode (logs ++ [log]) = latestPerNode.enter (latestPerNode logs) log :=
  List.foldl_append

/-- A row puts its node on the list unless it is there. -/
theorem ids_enter (entries : List (String × RunStatus)) (log : LogRow) :
    (latestPerNode.enter entries log).map Prod.fst =
      if log.nodeId ∈ entries.map Prod.fst then entries.map Prod.fst
      else entries.map Prod.fst ++ [log.nodeId] := by
  have hany : (entries.any fun e => e.1 = log.nodeId) = true ↔ log.nodeId ∈ entries.map Prod.fst := by
    simp
  simp only [latestPerNode.enter, hany]
  split
  · rw [List.map_map]
    rfl
  · rw [List.map_append, List.map_singleton]

theorem ids_latestPerNode (logs : List LogRow) :
    (latestPerNode logs).map Prod.fst = (logs.map (·.nodeId)).eraseDups := by
  induction logs using List.reverseRecOn with
  | nil => rfl
  | append_singleton logs log ih =>
    rw [latestPerNode_concat, ids_enter, ih, List.map_append, List.map_singleton, eraseDups_concat]
    simp only [List.mem_eraseDups]

theorem summarises_latestPerNode (logs : List LogRow) : Summarises logs (latestPerNode logs) where
  ids_eq := ids_latestPerNode logs
  nodup := ids_latestPerNode logs ▸ nodup_eraseDups _
  mem_iff _ _ := mem_latestPerNode_iff

/-- Which nodes there are and the status of each tell the whole summary. -/
theorem Summarises.eq_filterMap (h : Summarises logs entries) : entries =
    (logs.map (·.nodeId)).eraseDups.filterMap fun id => (latestStatus? logs id).map (id, ·) := by
  have hkept : ∀ e ∈ entries, (latestStatus? logs e.1).map (e.1, ·) = some e := fun e he => by
    rw [(h.mem_iff e.1 e.2).1 he, Option.map_some]
  rw [← h.ids_eq, List.filterMap_map]
  exact ((List.filterMap_congr hkept).trans List.filterMap_some).symm

/-- A row that is followed by another one of its node is no last attempt. -/
theorem latestStatus?_erase (h : log.nodeId ∈ after.map (·.nodeId)) (id : String) :
    latestStatus? (before ++ after) id = latestStatus? (before ++ log :: after) id := by
  obtain ⟨later, hlater, hnode⟩ := List.mem_map.1 h
  by_cases hid : log.nodeId = id
  · have hne : after.filter (·.nodeId = id) ≠ [] :=
      List.ne_nil_of_mem (List.mem_filter.2 ⟨hlater, decide_eq_true (hnode.trans hid)⟩)
    have hlast := List.getLast?_append_of_ne_nil (before.filter (·.nodeId = id)) hne
    have hlast' := List.getLast?_append_of_ne_nil ((before ++ [log]).filter (·.nodeId = id)) hne
    rw [latestStatus?, latestStatus?, List.append_cons, List.filter_append, List.filter_append, hlast, hlast']
  · simp [latestStatus?, hid]

/-- A row whose node is listed already lists nothing. -/
theorem eraseDups_erase {ids ids' : List String} {id : String} (h : id ∈ ids) :
    (ids ++ id :: ids').eraseDups = (ids ++ ids').eraseDups := by
  rw [List.eraseDups_append, List.eraseDups_append]
  simp [List.removeAll, h]

end

/-- What a row makes of the entries made so far: the first entry of its node gets its status, and if there is
none, one is put at the end. -/
def noted (entries : List (String × RunStatus)) (log : LogRow) : List (String × RunStatus) :=
  match entries with
  | [] => [(log.nodeId, log.status)]
  | (id, s) :: rest =>
    if id = log.nodeId then (id, log.status) :: rest else (id, s) :: noted rest log

section

variable {entries : List (String × RunStatus)} {log : LogRow}

theorem noted_of_not_mem (h : log.nodeId ∉ entries.map Prod.fst) :
    noted entries log = entries ++ [(log.nodeId, log.status)] := by
  induction entries with
  | nil => rfl
  | cons e rest ih =>
    obtain ⟨hne, hrest⟩ := not_or.1 (mt List.mem_cons.2 h)
    rw [noted, if_neg (Ne.symm hne), ih hrest, List.cons_append]

/-- As each node is listed once, its first entry is all of its entries. -/
theorem noted_of_mem (hnodup : (entries.map Prod.fst).Nodup) (h : log.nodeId ∈ entries.map Prod.fst) :
    noted entries log = entries.map fun e => (e.1, if e.1 = log.nodeId then log.status else e.2) := by
  induction entries with
  | nil => cases h
  | cons e rest ih =>
    obtain ⟨hid, hrest⟩ := List.nodup_cons.1 hnodup
    rw [noted, List.map_cons]
    split
    · next he =>
      have hothers : ∀ other ∈ rest,
          (other.1, if other.1 = log.nodeId then log.status else other.2) = other := by
        intro other hother
        have hne : other.1 ≠ log.nodeId := fun heq =>
          hid (List.mem_map.2 ⟨other, hother, heq.trans he.symm⟩)
        rw [if_neg hne]
      rw [List.map_congr_left hothers, List.map_id']
    · next hne => rw [ih hrest ((List.mem_cons.1 h).resolve_left (Ne.symm hne))]

end

theorem foldl_noted (logs : List LogRow) : logs.foldl noted [] = latestPerNode logs := by
  induction logs using List.reverseRecOn with
  | nil => rfl
  | append_singleton logs log ih =>
    have hnodup := (summarises_latestPerNode logs).nodup
    have hstep : noted (latestPerNode logs) log = latestPerNode.enter (latestPerNode logs) log := by
      unfold latestPerNode.enter
      split
      · next hlisted => exact noted_of_mem hnodup (by simpa using hlisted)
      · next hnew => exact noted_of_not_mem (by simpa using hnew)
    rw [List.foldl_append, ih, List.foldl_cons, List.foldl_nil, hstep, latestPerNode_concat]

/-- Going through a log row by row sums it up. A row that is followed by another one of its node changes
nothing that is said of a node, and nothing at all unless it is the first row of its node. -/
theorem latest_summarised (logs : List LogRow) :
    logs.foldl noted [] = latestPerNode logs ∧ Summarises logs (latestPerNode logs) ∧
      ∀ before log after, logs = before ++ log :: after → log.nodeId ∈ after.map (·.nodeId) →
        (∀ e, e ∈ latestPerNode (before ++ after) ↔ e ∈ latestPerNode logs) ∧
          (log.nodeId ∈ before.map (·.nodeId) → latestPerNode (before ++ after) = latestPerNode logs) := by
  refine ⟨foldl_noted logs, summarises_latestPerNode logs, ?_⟩
  rintro before log after rfl hlater
  have hshort := summarises_latestPerNode (before ++ after)
  have hlong := summarises_latestPerNode (before ++ log :: after)
  constructor
  · intro e
    rw [hshort.mem_iff e.1 e.2, hlong.mem_iff e.1 e.2, latestStatus?_erase hlater]
  · intro hearlier
    rw [hshort.eq_filterMap, hlong.eq_filterMap, List.map_append, List.map_append, List.map_cons,
      eraseDups_erase hearlier, funext (latestStatus?_erase hlater)]

/-- An attempt at a node. -/
def attemptAt (nodeId : String) (status : RunStatus) : LogRow :=
  ⟨.nil, .nil, nodeId, nodeId, "echo", status, .null, none, none, .ofMicros 0, none⟩

/-- The second of three attempts is not missed. -/
theorem retried_summarised :
    (attemptAt "a" .error).nodeId ∈ [attemptAt "a" .success].map (·.nodeId) ∧
      (attemptAt "a" .error).nodeId ∈ [attemptAt "a" .error, attemptAt "b" .success].map (·.nodeId) ∧
      latestPerNode ([attemptAt "a" .error, attemptAt "b" .success] ++ [attemptAt "a" .success]) =
        latestPerNode ([attemptAt "a" .error, attemptAt "b" .success] ++
          attemptAt "a" .error :: [attemptAt "a" .success]) := by
  have hlater : (attemptAt "a" .error).nodeId ∈ [attemptAt "a" .success].map (·.nodeId) := by decide
  have hearlier : (attemptAt "a" .error).nodeId ∈
      [attemptAt "a" .error, attemptAt "b" .success].map (·.nodeId) := by decide
  exact ⟨hlater, hearlier, ((latest_summarised _).2.2 _ _ _ rfl hlater).2 hearlier⟩

/-- Without its first attempt a node moves behind another one. -/
example : latestPerNode [attemptAt "b" .success, attemptAt "a" .success] ≠
    latestPerNode [attemptAt "a" .error, attemptAt "b" .success, attemptAt "a" .success] := by decide

end Flowgraph
