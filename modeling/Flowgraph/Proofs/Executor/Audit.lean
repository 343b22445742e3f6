import Flowgraph.Proofs.Binding.Meaning
import Flowgraph.Proofs.Executor.Cancellation
import Flowgraph.Proofs.Executor.Filing
import Flowgraph.Proofs.Executor.Numbered

/-! The log that a run leaves in a store that does not fail. Whatever the steps do and whenever the
run is stopped, the log has one row for each step that was started, in the order of the program, and
the row tells what the step was given and what it has come to. -/

namespace Flowgraph

namespace Executor

variable {x : Executor} {ids : RunIds} {program : Program} {graph : Graph} {S : Setting}
  {first s : MemoryStore} {l : List Entry} {h : List Event}

theorem not_spent (hS : S.Serves ids.execution first) (hr : S.Runs first l s)
    {config : TrackerConfig} {c : Call} : ¬ Spent config c (own l) := by
  rintro ⟨_, e, -, he, hinfix⟩
  have hmem : .called c (.error e) ∈ own l := hinfix.subset (by simp)
  exact he (hS.eq_notFound hr hmem)

/-- The log holds what was written at the starts. -/
theorem entries_of_runs (hS : S.Serves ids.execution first) (hres : S.Reserves ids.execution)
    (hr : S.Runs first l s) (ho : x.Orderly ids program (own l)) :
    (s.tables.executionLogs ids.execution).map LogRow.entry = entries (own l) := by
  refine hr.keeps (P := fun l s => x.Orderly ids program (own l) →
    (s.tables.executionLogs ids.execution).map LogRow.entry = entries (own l)) (fun _ => ?_)
    (fun l e s s' _ ih hs ho => ?_) ho
  · have hnone : first.tables.executionLogs ids.execution = [] :=
      List.filter_eq_nil_iff.2 fun row hrow => by simpa using hS.unlogged row hrow
    rw [hnone]
    rfl
  · rcases hs.cases with ⟨rfl, hquiet⟩ | ⟨c, r, rfl, ha⟩ | ⟨c, r, rfl, hother, ha⟩
    · cases e with
      | other => simpa using ih (by simpa using ho)
      | own e =>
        rw [own_append, own_cons_own, own_nil] at ho ⊢
        rw [ih ho.of_append, entries_quiet fun c r he => hquiet c r (congrArg Entry.own he)]
    · rw [own_append, own_cons_own, own_nil] at ho ⊢
      rw [entries_append, ← ih ho.of_append]
      cases c with
      | insertLog entry =>
        obtain ⟨n, -, -, -, t, rfl⟩ := ho.allowed
        cases r with
        | error e =>
          rw [ha.effect.eq_of_error]
          exact (List.append_nil _).symm
        | ok row => exact ha.effect.entries_inserted
      | deleteWorkflow => exact ho.allowed.elim
      | _ =>
        have hkept := ha.effect.entries_kept (e := ids.execution) (by rintro _ ⟨⟩) (by rintro _ ⟨⟩)
        exact hkept.trans (List.append_nil _).symm
    · rw [own_append, own_cons_other, own_nil, List.append_nil] at ho ⊢
      rw [← ih ho]
      refine ha.effect.entries_kept ?_ ?_
      · rintro w rfl
        exact hres.workflow s w hother
      · rintro entry rfl
        exact hres.entries s entry hother

theorem Orderly.logged_before {before after : List Event} {e : Event}
    (ho : x.Orderly ids program (before ++ e :: after)) (he : entries [e] = [])
    {entry : LogEntry} (hentry : entry ∈ entries (before ++ e :: after))
    (hid : entry.nodeId ∈ (starts before).map (·.node)) : entry ∈ entries before := by
  rw [List.append_cons, entries_append, entries_append, he, List.append_nil,
    List.mem_append] at hentry
  refine hentry.resolve_right fun hlate => ?_
  -- a later entry would be for a node that has been started already
  obtain ⟨row, hrow⟩ := mem_entries.1 hlate
  obtain ⟨p, q, rfl⟩ := List.append_of_mem hrow
  rw [← List.cons_append, ← List.append_assoc] at ho
  obtain ⟨n, -, -, hnew, t, rfl⟩ := ho.allowed
  refine hnew ?_
  rw [starts_append, List.map_append]
  exact List.mem_append_left _ hid

/-- A result that is to be written finds the row that was written at the start. -/
theorem not_unrecorded (hS : S.Serves ids.execution first) (hm : S.Mints ids.execution)
    (hres : S.Reserves ids.execution) (hr : S.Runs first l s)
    (ho : x.Orderly ids program (own l)) (hp : Paired ids.execution (own l)) {id : String}
    {r : StepResult} : ¬ Unrecorded x.config ids.execution (own l) id r := by
  rintro ⟨t, (hmissing | hspent) | ⟨row, -, hspent⟩⟩
  · -- the row that was written at the start is still there when the call is made
    obtain ⟨before, after, s₁, s₂, rfl, hbefore, ha⟩ := hr.answered hmissing
    have hserved := hS.not_refused hr
    rw [own_append, own_cons_own] at ho hp hserved
    obtain ⟨id', _, _, hresult, -, ht⟩ := ho.allowed
    obtain rfl : id = id' := ht.2
    have hid : id ∈ (starts (own before)).map (·.node) := by
      rw [ho.of_append.ids_eq]
      exact List.mem_append_left _ (List.mem_map_of_mem hresult)
    obtain ⟨entry, hentry, rfl⟩ := hp.exists_entry hserved
      (List.map_subset _ (by simp) hid)
    obtain ⟨written, hwritten⟩ := mem_entries.1 (ho.logged_before rfl hentry hid)
    have hfiled := filed_of_runs hm hres.toSpares hbefore ho.of_append
    obtain ⟨row, hrow, hrowid⟩ := hfiled.present entry written hwritten
    obtain ⟨hexec, hnode⟩ := hfiled.nodes entry written hwritten row hrow hrowid
    have hmatch : (LogTarget.latest ids.execution entry.nodeId).Matches row := ⟨hexec, hnode⟩
    exact hS.not_missing hbefore hrow hmatch ha
  · exact not_spent hS hr hspent
  · exact not_spent hS hr hspent

end Executor

/-- The status, the output and the error are those of the outcome. -/
def LogRow.Shows (row : LogRow) : Outcome → Prop
  | .returned (.success data) =>
    row.status = .success ∧ row.output = some (Redaction.redact data) ∧ row.error = none
  | .returned (.failure error) =>
    row.status = .error ∧ row.output = none ∧ row.error = some (Redaction.redactText error)
  | .faulted message =>
    row.status = .error ∧ row.output = none ∧
      row.error = some (Redaction.redactText ("step panicked: " ++ message.getD "unknown panic"))

theorem LogRow.shows_complete (row : LogRow) (o : Outcome) (t : Instant) :
    (row.complete (Tracker.completion o.result t)).Shows o := by
  rcases o with (_ | _) | _
  · exact ⟨rfl, rfl, rfl⟩
  · exact ⟨rfl, rfl, rfl⟩
  · exact ⟨rfl, rfl, rfl⟩

/-- The row tells of a step that was started, and of what it has come to. -/
structure LogRow.Tells (row : LogRow) (graph : Graph) (report : ExecutionReport) (i : Invocation)
    (o : Outcome) : Prop where
  execution : row.execution = report.execution
  nodeId : row.nodeId = i.node
  node : ∃ node ∈ graph.nodes, node.id = i.node ∧ row.nodeName = node.referenceName ∧
    row.nodeType = node.stepType
  input : row.input = Redaction.redact (.object i.input)
  status : report.nodes.lookup i.node = some row.status
  outcome : row.Shows o
  finished : row.finishedAt.isSome = true

namespace Executor

variable {x : Executor} {ids : RunIds} {program : Program} {graph : Graph} {S : Setting}
  {first s : MemoryStore} {l : List Entry} {h : List Event}

variable (x ids program graph) in
/-- The rows tell of the steps that were started, and of nothing else. -/
structure Audited (report : ExecutionReport) (h : List Event) (rows : List LogRow) : Prop where
  /-- One row for each node that was started, in the order of the program. -/
  nodes : rows.map (·.nodeId) =
    program.nodeIds.filter fun id => id ∈ (starts h).map (·.node)
  /-- Of the stages before one at which a stop is seen, all nodes are started whose dependencies have
  succeeded, and no others. The last reading of the row comes after all stages. -/
  started : ∃ done todo, done ++ todo = program.stages ∧
    (Unstopped ids.execution h.dropLast → todo = []) ∧
    (starts h).map (·.node) = ((done.flatMap program.stageNodes).filter fun n =>
      ∀ d ∈ n.dependencies, report.nodes.lookup d = some .success).map (·.id)
  came : List.Forall₂ (x.Came ids program) (starts h) (ends h)
  tells : List.Forall₂ (fun p row => row.Tells graph report p.1 p.2) ((starts h).zip (ends h)) rows

theorem filter_mem_of_sublist {α : Type} [DecidableEq α] {l m : List α} (hs : l.Sublist m)
    (hn : m.Nodup) : m.filter (· ∈ l) = l := by
  induction hs with
  | slnil => rfl
  | @cons l m a hs ih =>
    obtain ⟨hnew, hn⟩ := List.nodup_cons.1 hn
    have ha : a ∉ l := fun ha => hnew (hs.subset ha)
    rw [List.filter_cons_of_neg (by simpa using ha), ih hn]
  | @cons_cons l m a hs ih =>
    obtain ⟨hnew, hn⟩ := List.nodup_cons.1 hn
    have hrest : m.filter (· ∈ a :: l) = m.filter (· ∈ l) := by
      refine List.filter_congr fun b hb => ?_
      have hne : b ≠ a := fun he => hnew (he ▸ hb)
      simp [hne]
    rw [List.filter_cons_of_pos (by simp), hrest, ih hn]

/-- Of the stages before a stop is seen, all nodes are started that were ready, and no others. -/
theorem Ended.started {report : ExecutionReport} (he : x.Ended ids program report h) :
    ∃ done todo, done ++ todo = program.stages ∧ (Unstopped ids.execution h.dropLast → todo = []) ∧
      (starts h).map (·.node) = ((done.flatMap program.stageNodes).filter fun n =>
        n.Ready (tally h).results).map (·.id) := by
  obtain ⟨c, stopped, h₁, listed, reading, mid, hhalt, hmid, hh, -⟩ := he
  obtain ⟨done, todo, hdone, htodo, hb⟩ := hhalt.boundary
  obtain ⟨ht, hs⟩ := closing_eq hmid hh
  refine ⟨done, todo, hdone, fun hu => htodo (hhalt.stopped.2 fun row hrow => hu row ?_), ?_⟩
  · rw [hh, List.dropLast_concat]
    exact List.mem_append_left _ hrow
  · rw [hs, ht]
    exact hb.started

/-- Nodes are started in the order of the program. -/
theorem Ended.sublist {report : ExecutionReport} (he : x.Ended ids program report h)
    (hp : program.Layered graph) : ((starts h).map (·.node)).Sublist program.nodeIds := by
  obtain ⟨done, todo, hdone, -, hstarted⟩ := he.started
  rw [hstarted, Program.nodeIds, ← hp.flatMap_stageNodes, ← hdone, List.flatMap_append]
  exact (List.filter_sublist.trans (List.sublist_append_left _ _)).map _

/-- A report tells which nodes have become ready. -/
theorem Reported.ready_iff {report : ExecutionReport} (hr : x.Reported ids program report h)
    (hp : program.Layered graph) {n : CompiledNode} (hn : n ∈ program.nodes) :
    n.Ready (tally h).results ↔ ∀ d ∈ n.dependencies, report.nodes.lookup d = some .success := by
  refine forall₂_congr fun d hd => ?_
  obtain ⟨before, after, hnodes⟩ := List.append_of_mem hn
  obtain ⟨m, hm, rfl, -⟩ := hp.earlier hnodes d hd
  have hmem : m.id ∈ program.nodeIds := List.mem_map_of_mem (by simp [hnodes, hm])
  rw [hr.nodes, RunState.lookup_map_pair, if_pos hmem, Option.some_inj, Results.Succeeded]

/-- An entry names the node as the graph does. -/
theorem Orderly.named (ho : x.Orderly ids program h) (hc : x.compile graph = .ok program)
    {entry : LogEntry} (hentry : entry ∈ entries h) :
    ∃ node ∈ graph.nodes, node.id = entry.nodeId ∧ entry.nodeName = node.referenceName ∧
      entry.nodeType = node.stepType := by
  obtain ⟨row, hrow⟩ := mem_entries.1 hentry
  obtain ⟨before, after, rfl⟩ := List.append_of_mem hrow
  obtain ⟨n, hn, -, -, t, rfl⟩ := ho.allowed
  obtain ⟨node, hnode, hrenders⟩ := Graph.renders_of_mem hc hn
  exact ⟨node, hnode, hrenders.id.symm, hrenders.name, hrenders.stepType⟩

/-- If a log has one row for each node, a result that is written stands in the row of its node. -/
theorem eq_complete_of_written {id : String} {r : StepResult} {row : LogRow}
    (hw : s.Written ids.execution id r)
    (hn : ((s.tables.executionLogs ids.execution).map (·.nodeId)).Nodup)
    (hrow : row ∈ s.tables.executionLogs ids.execution) (hid : row.nodeId = id) :
    ∃ old t, row = LogRow.complete old (Tracker.completion r t) := by
  obtain ⟨old, t, hmem, hexec, hnode⟩ := hw
  have hwritten : old.complete (Tracker.completion r t) ∈ s.tables.executionLogs ids.execution :=
    List.mem_filter.2 ⟨hmem, decide_eq_true hexec⟩
  exact ⟨old, t, List.inj_on_of_nodup_map hn hrow hwritten (hid.trans hnode.symm)⟩

section

variable {report : ExecutionReport}

/-- When a run is over, all that it has started has ended. -/
theorem Reported.ends_eq (hrep : x.Reported ids program report h) (ho : x.Orderly ids program h) :
    List.Forall₂ (x.Came ids program) (starts h) (ends h) ∧
      (tally h).results = (starts h).zipWith (fun i o => (i.node, o.result)) (ends h) := by
  obtain ⟨past, hstarts, hcame, hresults⟩ := ho.ends_eq
  rw [hrep.idle, List.map_nil, List.append_nil] at hstarts
  subst hstarts
  exact ⟨hcame, hresults⟩

theorem Reported.mem_results (hrep : x.Reported ids program report h)
    (ho : x.Orderly ids program h) {i : Invocation} {o : Outcome}
    (hio : (i, o) ∈ (starts h).zip (ends h)) : (i.node, o.result) ∈ (tally h).results := by
  rw [(hrep.ends_eq ho).2, ← List.map_uncurry_zip_eq_zipWith]
  exact List.mem_map_of_mem hio

/-- A row of a finished run is completed with what its step has come to. -/
theorem tells_of_row (hc : x.compile graph = .ok program) (ho : x.Orderly ids program h)
    (hrep : x.Reported ids program report h) {i : Invocation} {o : Outcome} {row : LogRow}
    (hio : (i, o) ∈ (starts h).zip (ends h)) (hentry : row.entry ∈ entries h)
    (hann : row.entry.Announces ids.execution i)
    (hrow : ∃ old t, row = LogRow.complete old (Tracker.completion o.result t)) :
    row.Tells graph report i o := by
  have hp := Graph.compile_layered hc
  have hresult := hrep.mem_results ho hio
  obtain ⟨r, hr, hstatus⟩ := (hrep.settled ho hp).1 i (List.of_mem_zip hio).1
  have hlookup := Results.lookup_of_mem ho.nodup_ids hr
  rw [Results.lookup_of_mem ho.nodup_ids hresult] at hlookup
  obtain rfl := Option.some.inj hlookup
  obtain ⟨old, t, rfl⟩ := hrow
  obtain ⟨node, hnode, hid, hnamed⟩ := ho.named hc hentry
  refine ⟨hann.execution.trans hrep.execution.symm, hann.nodeId,
    ⟨node, hnode, hid.trans hann.nodeId, hnamed⟩, hann.input, ?_, LogRow.shows_complete _ _ _, rfl⟩
  rw [hstatus]
  cases o.result <;> rfl

theorem audited_of_runs (hc : x.compile graph = .ok program) (hS : S.Serves ids.execution first)
    (hm : S.Mints ids.execution) (hres : S.Reserves ids.execution) (hr : S.Runs first l s)
    (hpath : Action.Path [] (x.drive ids program) (own l) (.done report)) :
    x.Audited ids program graph report (own l) (s.tables.executionLogs ids.execution) := by
  have hp := Graph.compile_layered hc
  have ho := orderly_of_path hp hpath
  have hend := ended_of_path hp hpath
  have hpaired := paired_of_path hpath
  have hfiled := filed_of_runs hm hres.toSpares hr ho
  have hentries := entries_of_runs hS hres hr ho
  have hcame := (hend.reported.ends_eq ho).1
  generalize hrows : s.tables.executionLogs ids.execution = rows at hentries ⊢
  have hann : List.Forall₂ (fun row i => row.entry.Announces ids.execution i) rows
      (starts (own l)) := by
    rw [← List.forall₂_map_left_iff (f := LogRow.entry), hentries]
    exact hpaired (hS.not_refused hr)
  have hnodes : rows.map (·.nodeId) = (starts (own l)).map (·.node) := by
    rw [← List.forall₂_eq_eq_eq, List.forall₂_map_left_iff, List.forall₂_map_right_iff]
    exact hann.imp fun row i hi => hi.nodeId
  have hnodup : (rows.map (·.nodeId)).Nodup := hnodes ▸ ho.nodup_starts
  refine ⟨?_, ?_, hcame, ?_⟩
  · rw [hnodes, filter_mem_of_sublist (hend.sublist hp) hp.nodup]
  · obtain ⟨done, todo, hdone, htodo, hstarted⟩ := hend.started
    refine ⟨done, todo, hdone, htodo, hstarted.trans (congrArg _ (List.filter_congr fun n hn => ?_))⟩
    have hmem : n ∈ program.nodes := by
      rw [← hp.flatMap_stageNodes, ← hdone, List.flatMap_append]
      exact List.mem_append_left _ hn
    exact decide_eq_decide.2 (hend.reported.ready_iff hp hmem)
  · have hzip : List.Forall₂ (fun p row => row.entry.Announces ids.execution p.1)
        ((starts (own l)).zip (ends (own l))) rows := by
      have hmap := hann.flip
      rw [← List.map_fst_zip hcame.length_eq.le] at hmap
      exact List.forall₂_map_left_iff.1 hmap
    refine List.forall₂_iff_zip.2 ⟨hzip.length_eq, fun {p row} hmem => ?_⟩
    obtain ⟨i, o⟩ := p
    obtain ⟨hio, hrow⟩ := List.of_mem_zip hmem
    have hi := (List.forall₂_iff_zip.1 hzip).2 hmem
    have hresult := hend.reported.mem_results ho hio
    have hrecorded : Recorded ids.execution (own l) i.node o.result :=
      (hend.reported.logged _ _ hresult).resolve_right
        (not_unrecorded hS hm hres hr ho hpaired)
    have hwritten := written_of_recorded hfiled ho hresult hrecorded
    subst hrows
    refine tells_of_row hc ho hend.reported hio ?_ hi
      (eq_complete_of_written hwritten hnodup hrow hi.nodeId)
    rw [← hentries]
    exact List.mem_map_of_mem hrow

/-- Whatever the steps do and whenever the run is stopped, in a store that does not fail a run
comes to its end, and then its log has one row for each step that was started and no other. -/
theorem drive_audited {rest : Action ExecutionReport} (hc : x.compile graph = .ok program)
    (hS : S.Serves ids.execution first) (hm : S.Mints ids.execution)
    (hres : S.Reserves ids.execution) (hr : S.Runs first l s)
    (hpath : Action.Path [] (x.drive ids program) (own l) rest) :
    rest ≠ .overflow ∧ ∀ report, rest = .done report →
      ∃ rows, (∀ supply, (s.answer supply (.listLogs ids.execution)).1 = .ok rows) ∧
        x.Audited ids program graph report (own l) rows := by
  constructor
  · rintro rfl
    obtain ⟨-, c, hspent⟩ := exhausted_of_path (Graph.compile_layered hc) hpath
    exact not_spent hS hr hspent
  · rintro report rfl
    exact ⟨_, fun _ => rfl, audited_of_runs hc hS hm hres hr hpath⟩

end

/-- Two nodes, in a store that takes all logs. -/
theorem relay_audited : ∃ program h report s rows,
    let ids : RunIds := ⟨.ofNat 1, .ofNat 2⟩
    echoing.compile .relay = .ok program ∧
    Action.Path [] (echoing.drive ids program) h (.done report) ∧
    (Setting.stoppable ids.execution).Runs (.opened ids) (h.map .own) s ∧
    (∀ supply, (s.answer supply (.listLogs ids.execution)).1 = .ok rows) ∧
    echoing.Audited ids program .relay report h rows := by
  obtain ⟨program, hc⟩ := relay_compiles
  have hp := Graph.compile_layered hc
  let ids : RunIds := ⟨.ofNat 1, .ofNat 2⟩
  have hid : ∀ k < 2 ^ 64, (Supply.fresh ⟨k, 0⟩).1 ≠ ids.execution := by
    intro k hk he
    have hbits := Supply.toNat_fresh hk
    rw [he] at hbits
    have htwo : ids.execution.bits.toNat = 2 := rfl
    omega
  have hserves : ∀ {S : Setting}, ¬ S.fails → S.Serves ids.execution (.opened ids) := fun hf =>
    ⟨hf, rfl, by simp [MemoryStore.opened]⟩
  obtain ⟨report, h, s, -, hpath, hruns, -⟩ := perform_drive_done ids numbering_backed
    (s := MemoryStore.opened ids) trivial echoing_silent hp fun h _ _ => not_exhausted (by decide) h
  have ho := orderly_of_path hp hpath
  -- there are no more entries than nodes
  have hlen : (entries h).length ≤ 2 := by
    have hserved : Served h := own_map h ▸ (hserves (S := .numbered) id).not_refused hruns
    have hstarted := ((ended_of_path hp hpath).sublist hp).length_le
    rw [List.length_map, hp.nodeIds_perm.length_eq] at hstarted
    exact (paired_of_path hpath hserved).length_eq.trans_le hstarted
  obtain ⟨hruns', -⟩ := stoppable_of_numbered ho hruns rfl (by omega) hid
  have hpath' : Action.Path [] (echoing.drive ids program) (own (h.map .own)) (.done report) := by
    simpa using hpath
  obtain ⟨-, hdone⟩ := drive_audited hc (hserves id) (Setting.stoppable_mints _)
    (Setting.stoppable_reserves _) hruns' hpath'
  obtain ⟨rows, hrows, haudited⟩ := hdone report rfl
  rw [own_map] at haudited
  exact ⟨program, h, report, s, rows, hc, hpath, hruns', hrows, haudited⟩

end Executor

end Flowgraph
