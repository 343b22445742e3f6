import Flowgraph.Proofs.Executor.Alone
import Flowgraph.Proofs.Executor.Boundaries
import Flowgraph.Proofs.Executor.Filing
import Flowgraph.Proofs.Tracker.Readers

/-! A run that somebody stops. The mark on its row may be set between any two events of the run.
From then on no write of the run takes it away, the run starts nothing after it has read the row,
and what was started before comes to its end. -/

namespace Flowgraph

open Flowgraph.Action

/-- A report in which all nodes that were started have ended, and no others. -/
structure Settled (program : Program) (report : ExecutionReport) (h : List Event) : Prop where
  started : ∀ i ∈ starts h, ∃ r, (i.node, r) ∈ (tally h).results ∧
    report.nodes.lookup i.node = some r.status
  waiting : ∀ id ∈ program.nodeIds, id ∉ (starts h).map (·.node) →
    report.nodes.lookup id = some .pending

namespace Tracker

variable {execution team : Uuid} {hs : List Event} {b : Bool}

/-- A stop that returns `false` leaves the tables as they are at each of its calls. -/
theorem tables_eq_of_stop_false {S : Setting} {s s' : MemoryStore} {c : Call} {r : c.Reply}
    (p : Action.Path [] (stop execution team) hs (.done (.ok false)))
    (hc : .called c r ∈ hs) (ha : S.Answers s c r s') : s'.tables = s.tables := by
  obtain ⟨row, owner, rfl⟩ := (p.ensures ensures_stop).2 false rfl
  rcases List.mem_cons.1 hc with hc | hc
  · obtain ⟨rfl, -⟩ := Event.called.inj hc
    exact ha.effect.eq_of_read (by simp [Call.method])
  rcases List.mem_cons.1 hc with hc | hc
  · obtain ⟨rfl, -⟩ := Event.called.inj hc
    exact ha.effect.eq_of_read (by simp [Call.method])
  · obtain ⟨rfl, hr⟩ := Event.called.inj (List.mem_singleton.1 hc)
    obtain rfl := eq_of_heq hr
    exact ha.effect.eq_of_closed

end Tracker

namespace Executor

variable (x : Executor) (ids : RunIds) (program : Program)

/-- What comes of a run in whose trace a stop stands before the late part. -/
structure Cancelled (S : Setting) (l late : List Entry) (rest : Action ExecutionReport)
    (s : MemoryStore) : Prop where
  failed : s.Failed ids.execution
  held : S.Spares ids.execution → s.Holds ids.execution
  /-- Once the row has been read nothing more is started. -/
  halted : ∀ before row after,
    late = before ++ .own (.called (.getExecution ids.execution) (.ok row)) :: after →
      starts (own after) = []
  /-- However it goes on from here, the run comes to an end. -/
  settles : rest.Ensures (x.Orderly ids program) (Exhausted x.config) (Settled program) (own l)
  logged : S.Spares ids.execution → ∀ report, rest = .done report →
    ∀ id r, (id, r) ∈ (tally (own l)).results → s.Written ids.execution id r ∨
      (Unrecorded x.config ids.execution (own l) id r ∧
        ∃ target c e, .called (.completeLog target c) (.error e) ∈ own l)
  status : ∀ report, rest = .done report → ∀ before row after,
    late = before ++ .own (.called (.getExecution ids.execution) (.ok row)) :: after →
      own after = [] → report.status = .error

variable {x ids program} {graph : Graph}

theorem Reported.settled {report : ExecutionReport} {h : List Event}
    (hr : x.Reported ids program report h) (ho : x.Orderly ids program h)
    (hp : program.Layered graph) : Settled program report h := by
  have hids := hr.ids_eq ho
  have hlookup : ∀ id ∈ program.nodeIds,
      report.nodes.lookup id = some ((tally h).results.status id) := by
    intro id hid
    rw [hr.nodes, RunState.lookup_map_pair, if_pos hid]
  constructor
  · intro i hi
    have hid : i.node ∈ (tally h).results.ids := hids ▸ List.mem_map_of_mem hi
    obtain ⟨r, hlook⟩ := Results.mem_ids_iff.1 hid
    obtain ⟨n, hn, hnode⟩ := (ho.sound hp).known i.node hid
    have hmem : i.node ∈ program.nodeIds := hnode ▸ List.mem_map_of_mem hn
    refine ⟨r, Results.mem_of_lookup hlook, ?_⟩
    rw [hlookup i.node hmem, Results.status_of_lookup hlook]
  · intro id hid hnot
    rw [hlookup id hid, Results.status_eq_pending_iff.2 (hids ▸ hnot)]

section

variable {S : Setting} {first s : MemoryStore} {l early late : List Entry} {finished : Bool}
  {rest : Action ExecutionReport}

/-- A run that has read the error on its row starts nothing more. -/
theorem halted_of_read {h after : List Event} {row : ExecutionRow} (hrow : row.status = .error)
    (ho : x.Orderly ids program
      (h ++ .called (.getExecution ids.execution) (.ok row) :: after)) : starts after = [] := by
  rw [List.eq_nil_iff_forall_not_mem]
  intro i hi
  obtain ⟨w, hw⟩ := mem_starts.1 hi
  obtain ⟨p, q, rfl⟩ := List.append_of_mem hw
  rw [← List.cons_append, ← List.append_assoc] at ho
  obtain ⟨n, -, -, hopen⟩ := ho.allowed
  have hopen := hopen row (by simp)
  rw [hrow] at hopen
  exact absurd hopen (by decide)

/-- The last reading of the row decides the status of the report if it is final. -/
theorem Ended.status_of_read {report : ExecutionReport} {h : List Event} {row : ExecutionRow}
    (he : x.Ended ids program report (h ++ [Event.called (.getExecution ids.execution) (.ok row)]))
    (hrow : row.status = .error) : report.status = .error := by
  obtain ⟨c, stopped, h₁, listed, reading, mid, -, -, hh, rfl⟩ := he
  obtain ⟨-, hread⟩ := List.append_inj' hh rfl
  obtain rfl : reading = .ok row := by simpa using hread.symm
  simp [Except.toOption, finalStatus, hrow, RunStatus.isTerminal]

theorem Orderly.not_deleted {h : List Event} (ho : x.Orderly ids program h) (w : Uuid)
    (r : (Call.deleteWorkflow w).Reply) : .called (.deleteWorkflow w) r ∉ h := by
  intro hmem
  obtain ⟨before, after, rfl⟩ := List.append_of_mem hmem
  exact ho.allowed

theorem cancelled_of_path (hp : program.Layered graph) (hm : S.Mints ids.execution)
    (hpath : Action.Path [] (x.drive ids program) (own l) rest)
    (hl : l = early ++ .other (.updateStatus ids.execution .error finished) (.ok true) :: late)
    (hr : S.Runs first l s) : x.Cancelled ids program S l late rest s := by
  have ho := orderly_of_path hp hpath
  have hmarked := hr
  rw [hl] at hmarked
  obtain ⟨marked, hlate, hfailed, hholds⟩ := hmarked.failed_of_marked
  have hown : own l = own early ++ own late := by simp [hl]
  have hread : ∀ before row after,
      late = before ++ .own (.called (.getExecution ids.execution) (.ok row)) :: after →
        row.status = .error ∧ own l = (own early ++ own before) ++
          .called (.getExecution ids.execution) (.ok row) :: own after := by
    rintro before row after rfl
    exact ⟨hlate.error_of_read hm hfailed, by simp [hl]⟩
  refine ⟨hlate.failed hm hfailed, fun hspare => ?_, ?_, ?_, ?_, ?_⟩
  · refine hlate.holds hspare (fun w r hmem => ho.not_deleted w r ?_) hholds
    rw [hown]
    exact List.mem_append_right _ hmem
  · intro before row after hsplit
    obtain ⟨hrow, hh⟩ := hread before row after hsplit
    exact halted_of_read hrow (hh ▸ ho)
  · exact (hpath.ensures (ensures_drive hp)).mono
      fun report h' _ ho' he => he.reported.settled ho' hp
  · rintro hspare report rfl id r hres
    have hfiled := filed_of_runs hm hspare hr ho
    rcases (ended_of_path hp hpath).reported.logged id r hres with hrec | hun
    · exact Or.inl (written_of_recorded hfiled ho hres hrec)
    · exact Or.inr ⟨hun, hun.refused⟩
  · rintro report rfl before row after hsplit hlast
    obtain ⟨hrow, hh⟩ := hread before row after hsplit
    rw [hlast] at hh
    exact Ended.status_of_read (hh ▸ ended_of_path hp hpath) hrow

/-- Wherever in the trace of a run and of all others its row is marked with an error, be it by a
stop or by a step of the run, the run is cancelled. It has read its row before it started the steps
of a stage. A stop comes down to one write of the row, and one that returns `false` has written
nothing. -/
theorem drive_cancelled (hc : x.compile graph = .ok program) (hm : S.Mints ids.execution)
    (hpath : Action.Path [] (x.drive ids program) (own l) rest)
    (hl : l = early ++ .other (.updateStatus ids.execution .error finished) (.ok true) :: late)
    (hr : S.Runs first l s) :
    x.Cancelled ids program S l late rest s ∧
      (∀ before i w after, own l = before ++ .started i w :: after →
        Checked program ids.execution before i) ∧
      ∀ team hs granted,
        Action.Path [] (Tracker.stop ids.execution team) hs (.done (.ok granted)) →
          (∃ reads, hs = reads ++
            [.called (.updateStatus ids.execution .error true) (.ok granted)]) ∧
          (granted = false → ∀ c r before after, .called c r ∈ hs →
            S.Answers before c r after → after.tables = before.tables) := by
  have hp := Graph.compile_layered hc
  refine ⟨cancelled_of_path hp hm hpath hl hr, fun _ _ _ _ => checked_of_path hp hpath,
    fun team hs granted p => ?_⟩
  constructor
  · obtain ⟨row, owner, rfl⟩ := (p.ensures Tracker.ensures_stop).2 granted rfl
    exact ⟨[_, _], rfl⟩
  · rintro rfl c r before after hcall ha
    exact Tracker.tables_eq_of_stop_false p hcall ha

end

/-- Others do nothing but stop the execution. -/
def stopping (execution : Uuid) : Setting where
  fails := True
  issues s id := id ≠ execution ∧ ∀ row ∈ s.tables.logs, row.id ≠ id
  others _ c := c = .updateStatus execution .error true

/-- A store that takes no logs. -/
def withoutLogs : Service MemoryStore where
  answer s c :=
    if c.method = .insertLog ∨ c.method = .completeLog then (.error .notFound, s)
    else ((s.answer ⟨0, 0⟩ c).1, (s.answer ⟨0, 0⟩ c).2.1)
  now s := (⟨0, 0⟩, s)

theorem withoutLogs_backed {execution : Uuid} (hid : (Supply.fresh ⟨0, 0⟩).1 ≠ execution) :
    withoutLogs.Backed (stopping execution) id fun s => s.tables.logs = [] := by
  have hanswers : ∀ s c, s.tables.logs = [] →
      (stopping execution).Answers s c (withoutLogs.answer s c).1 (withoutLogs.answer s c).2 := by
    intro s c hs
    simp only [withoutLogs]
    split
    · exact .refused trivial
    · exact .served ⟨hid, by simp [hs]⟩ rfl
  refine ⟨hanswers, fun _ => rfl, fun s c hs => ?_, fun _ hs => hs⟩
  rw [List.eq_nil_iff_forall_not_mem]
  intro row hrow
  rcases (hanswers s c hs).effect.log_origin hrow with hold | ⟨entry, _, rfl, -, -⟩ |
    ⟨target, cc, old, -, hold, -, -⟩
  · simp [hs] at hold
  · simp [withoutLogs, Call.method, hs] at hrow
  · simp [hs] at hold

/-- Two nodes, in a store that takes no logs, stopped before the run begins. -/
theorem relay_cancelled : ∃ program marked h report s,
    let ids : RunIds := ⟨.ofNat 1, .ofNat 2⟩
    let stop : Entry := .other (.updateStatus ids.execution .error true) (.ok true)
    echoing.compile .relay = .ok program ∧
    (stopping ids.execution).Step (.opened ids) stop marked ∧
    Action.Path [] (echoing.drive ids program) h (.done report) ∧
    echoing.Cancelled ids program (stopping ids.execution) (stop :: h.map .own) (h.map .own)
      (.done report) s := by
  obtain ⟨program, hc⟩ := relay_compiles
  let ids : RunIds := ⟨.ofNat 1, .ofNat 2⟩
  let opened : MemoryStore := .opened ids
  let marked := (opened.answer ⟨0, 0⟩ (.updateStatus ids.execution .error true)).2.1
  have hid : (Supply.fresh ⟨0, 0⟩).1 ≠ ids.execution := by decide
  have hm : (stopping ids.execution).Mints ids.execution := ⟨fun _ _ h => h.1, fun _ _ h => h.2⟩
  have hstop : (stopping ids.execution).Step opened
      (.other (.updateStatus ids.execution .error true) (.ok true)) marked :=
    .other rfl (.served ⟨hid, by simp [opened, MemoryStore.opened]⟩ rfl)
  obtain ⟨report, h, s, -, hpath, hruns, -⟩ := perform_drive_done ids
    (withoutLogs_backed hid) (s := marked) rfl echoing_silent (Graph.compile_layered hc)
    fun h _ _ => not_exhausted (by decide) h
  have hpath' : Action.Path [] (echoing.drive ids program)
      (own (.other (.updateStatus ids.execution .error true) (.ok true) :: h.map .own))
      (.done report) := by
    simpa using hpath
  have hruns' := (Setting.Runs.nil.snoc hstop).append hruns
  exact ⟨program, marked, h, report, s, hc, hstop, hpath,
    (drive_cancelled hc hm hpath' (List.nil_append _).symm hruns').1⟩

end Executor

end Flowgraph
