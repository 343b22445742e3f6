import Flowgraph.Proofs.Executor.Numbered

/-! Attempts on a line that loses replies. The start of an attempt is repeated until a reply comes
back, and each repetition draws a new identifier, so every reply that is lost leaves a row behind
that no handle names and no completion reaches. -/

namespace Flowgraph

/-- What becomes of a call. -/
inductive Fate
  | delivered
  /-- It does not reach the store. -/
  | refused (e : StoreError)
  /-- The store answers it, but the answer does not come back. -/
  | lost (e : StoreError)

def Fate.isLost : Fate → Bool
  | lost _ => true
  | _ => false

/-- A store at the end of a line, and what becomes of the calls to come. When nothing is said of
them any more, they are delivered. -/
structure Line where
  tables : Tables
  supply : Supply
  fates : List Fate

namespace Line

def serve (l : Line) (c : Call) : c.Reply × Line :=
  let (reply, store, supply) := MemoryStore.answer ⟨l.tables, false, 0⟩ l.supply c
  (reply, ⟨store.tables, supply, l.fates⟩)

def answer (l : Line) (c : Call) : c.Reply × Line :=
  match l.fates with
  | [] => l.serve c
  | .delivered :: fates => serve { l with fates } c
  | .refused e :: fates => (.error e, { l with fates })
  | .lost e :: fates => (.error e, (serve { l with fates } c).2)

def now (l : Line) : Instant × Line :=
  let (t, supply) := l.supply.now
  (t, { l with supply })

def service : Service Line := ⟨answer, now⟩

section Answers

variable {l : Line} {fates : List Fate} {e : StoreError} (c : Call)

theorem answer_nil (hl : l.fates = []) : l.answer c = l.serve c := by
  simp only [answer, hl]

theorem answer_delivered (hl : l.fates = .delivered :: fates) :
    l.answer c = serve { l with fates } c := by
  simp only [answer, hl]

theorem answer_refused (hl : l.fates = .refused e :: fates) :
    l.answer c = (.error e, { l with fates }) := by
  simp only [answer, hl]

theorem answer_lost (hl : l.fates = .lost e :: fates) :
    l.answer c = (.error e, (serve { l with fates } c).2) := by
  simp only [answer, hl]

end Answers

end Line

/-- The identifier that is given out under a number. -/
def issued (serial : Nat) : Uuid := (Supply.fresh ⟨serial, 0⟩).1

namespace Action

section Preserves

variable {σ : Type} {service : Service σ} {I : σ → Prop}

/-- What holds of the service before the action is performed by itself holds of it afterwards. -/
def Preserves (service : Service σ) (I : σ → Prop) (a : Action α) : Prop :=
  ∀ p : Progress σ, I p.state → I (a.perform service p).2.state

theorem preserves_done (a : α) : (done a).Preserves service I := fun _ hp => hp

theorem preserves_ask {c : Call} (hI : ∀ s, I s → I (service.answer s c).2) :
    (ask c).Preserves service I :=
  fun p hp => hI p.state hp

theorem Preserves.sleep {a : Action α} (ha : a.Preserves service I) (d : Duration) :
    (sleep d a).Preserves service I :=
  fun p hp => ha { p with elapsed := p.elapsed + d.nanos } hp

theorem Preserves.bind {β : Type} {a : Action α} {f : α → Action β} (ha : a.Preserves service I)
    (hf : ∀ r, (f r).Preserves service I) : (a.bind f).Preserves service I := by
  intro p hp
  have hmid := ha p hp
  cases hperform : a.perform service p with
  | mk result q =>
    rw [hperform] at hmid
    cases result with
    | none => rwa [perform_bind_none hperform]
    | some r =>
      rw [perform_bind hperform]
      exact hf r q hmid

theorem preserves_withRetry {config : TrackerConfig} {op : Action (Except StoreError α)}
    (hop : op.Preserves service I) : (withRetry config op).Preserves service I :=
  withRetry_of preserves_done (fun _ hp => hp) (fun d _ ha => ha.sleep d) fun _ hnext => hop.bind hnext

end Preserves

end Action

section Starts

variable {l l' : Line} {entry : LogEntry} {used : List Fate} {id : Option Uuid}

/-- The rows of the replies that are lost. -/
def Line.strays (l : Line) (entry : LogEntry) (used : List Fate) : List LogRow :=
  (List.range' l.supply.serial (used.countP Fate.isLost)).map fun k => entry.row (issued k)

/-- What tries to insert a row make of the line: they leave a row for each reply that is lost, and
one more if its identifier has come back. -/
structure Line.Inserts (l : Line) (entry : LogEntry) (used : List Fate) (id : Option Uuid)
    (l' : Line) : Prop where
  fates : l.fates = used ++ l'.fates
  logs : l'.tables.logs = l.tables.logs ++ l.strays entry used ++ id.toList.map entry.row
  told : ∀ i ∈ id, i = issued (l.supply.serial + used.countP Fate.isLost)

namespace Line

theorem Inserts.none (l : Line) (entry : LogEntry) : l.Inserts entry [] .none l :=
  ⟨rfl, by simp [strays], by simp⟩

/-- The line after a row was inserted. -/
theorem serve_insertLog (l : Line) (entry : LogEntry) :
    l.serve (.insertLog entry) =
      (.ok (entry.row (issued l.supply.serial)),
        ⟨{ l.tables with logs := l.tables.logs ++ [entry.row (issued l.supply.serial)] },
          ⟨l.supply.serial + 1, l.supply.micros⟩, l.fates⟩) :=
  rfl

theorem Inserts.refused {e : StoreError} {fates : List Fate} (hl : l.fates = .refused e :: fates)
    (rest : Inserts { l with fates } entry used id l') :
    l.Inserts entry (.refused e :: used) id l' := by
  obtain ⟨hfates, hlogs, htold⟩ := rest
  have hcount : (.refused e :: used).countP Fate.isLost = used.countP Fate.isLost :=
    List.countP_cons_of_neg (by simp [Fate.isLost])
  refine ⟨by simpa [hl] using hfates, ?_, ?_⟩
  · rwa [strays, hcount]
  · rwa [hcount]

theorem Inserts.lost {e : StoreError} {fates : List Fate} (hl : l.fates = .lost e :: fates)
    (rest : Inserts (serve { l with fates } (.insertLog entry)).2 entry used id l') :
    l.Inserts entry (.lost e :: used) id l' := by
  obtain ⟨hfates, hlogs, htold⟩ := rest
  have hcount : (.lost e :: used).countP Fate.isLost = used.countP Fate.isLost + 1 :=
    List.countP_cons_of_pos rfl
  simp only [serve_insertLog, strays] at hfates hlogs htold
  refine ⟨by simpa [hl] using hfates, ?_, fun i hi => ?_⟩
  · rw [strays, hcount, List.range'_succ, hlogs]
    simp
  · rw [hcount, htold i hi, Nat.add_assoc, Nat.add_comm 1]

theorem Inserts.served {l₁ : Line} {first : List Fate} (hl : l.fates = first ++ l₁.fates)
    (htables : l₁.tables = l.tables) (hsupply : l₁.supply = l.supply)
    (hfirst : first.countP Fate.isLost = 0) :
    l.Inserts entry first (some (issued l.supply.serial)) (l₁.serve (.insertLog entry)).2 := by
  simp only [serve_insertLog]
  exact ⟨hl, by simp [strays, hfirst, htables, hsupply], by simp [hfirst]⟩

/-- One try: either the row is reported, or what comes after it stands behind what it has left. -/
theorem answer_insertLog (l : Line) (entry : LogEntry) :
    ∃ first, first.length ≤ 1 ∧
      ((∃ row, (l.answer (.insertLog entry)).1 = .ok row ∧
          l.Inserts entry first (some row.id) (l.answer (.insertLog entry)).2) ∨
        ∃ e, (l.answer (.insertLog entry)).1 = .error e ∧
          ∀ used id l', (l.answer (.insertLog entry)).2.Inserts entry used id l' →
            l.Inserts entry (first ++ used) id l') := by
  cases hl : l.fates with
  | nil =>
    refine ⟨[], by simp, .inl ⟨entry.row (issued l.supply.serial), ?_⟩⟩
    rw [answer_nil _ hl]
    exact ⟨rfl, .served rfl rfl rfl rfl⟩
  | cons fate fates =>
    refine ⟨[fate], by simp, ?_⟩
    cases fate with
    | delivered =>
      rw [answer_delivered _ hl]
      exact .inl ⟨entry.row (issued l.supply.serial), rfl, .served hl rfl rfl rfl⟩
    | refused e =>
      rw [answer_refused _ hl]
      exact .inr ⟨e, rfl, fun _ _ _ rest => .refused hl rest⟩
    | lost e =>
      rw [answer_lost _ hl]
      exact .inr ⟨e, rfl, fun _ _ _ rest => .lost hl rest⟩

/-- No more tries come after one that has failed. -/
theorem Inserts.stop {first : List Fate} (last : ∀ used id l'', l'.Inserts entry used id l'' →
    l.Inserts entry (first ++ used) id l'') : l.Inserts entry first .none l' := by
  simpa using last [] .none l' (.none l' entry)

end Line

/-- The identifier of the row that was reported, if any was. -/
def reported : Option (Except StoreError LogRow) → Option Uuid
  | some (.ok row) => some row.id
  | _ => none

/-- A call by itself, and then what comes after its reply. -/
theorem Line.perform_ask (c : Call) (next : c.Reply → Action α) (p : Progress Line) :
    ((Action.ask c).bind next).perform service p =
      (next (p.state.answer c).1).perform service { p with state := (p.state.answer c).2 } :=
  rfl

/-- The tries of an insertion with so many repetitions to come. -/
theorem Line.inserts_retryFrom (config : TrackerConfig) (entry : LogEntry) (left : Nat)
    {p q : Progress Line} {result : Option (Except StoreError LogRow)}
    (hperform : (Action.retryFrom config (.ask (.insertLog entry)) left).perform service p =
      (result, q)) :
    ∃ used, used.length ≤ left + 1 ∧ p.state.Inserts entry used (reported result) q.state := by
  induction left generalizing p with
  | zero =>
    obtain ⟨first, hlength, h⟩ := p.state.answer_insertLog entry
    refine ⟨first, hlength, ?_⟩
    rw [Action.retryFrom, perform_ask] at hperform
    rcases h with ⟨row, hreply, hinserts⟩ | ⟨e, hreply, hrest⟩
    · rw [hreply] at hperform
      obtain ⟨rfl, rfl⟩ := Prod.mk.inj hperform
      exact hinserts
    · rw [hreply] at hperform
      cases e with
      | notFound =>
        obtain ⟨rfl, rfl⟩ := Prod.mk.inj hperform
        exact .stop hrest
      | unavailable | database =>
        dsimp only at hperform
        split at hperform <;>
        · obtain ⟨rfl, rfl⟩ := Prod.mk.inj hperform
          exact .stop hrest
  | succ left ih =>
    obtain ⟨first, hlength, h⟩ := p.state.answer_insertLog entry
    rw [Action.retryFrom, perform_ask] at hperform
    rcases h with ⟨row, hreply, hinserts⟩ | ⟨e, hreply, hrest⟩
    · rw [hreply] at hperform
      obtain ⟨rfl, rfl⟩ := Prod.mk.inj hperform
      exact ⟨first, by omega, hinserts⟩
    · rw [hreply] at hperform
      cases e with
      | notFound =>
        obtain ⟨rfl, rfl⟩ := Prod.mk.inj hperform
        exact ⟨first, by omega, .stop hrest⟩
      | unavailable | database =>
        obtain ⟨used, hused, hinserts⟩ := ih hperform
        exact ⟨first ++ used, by rw [List.length_append]; omega, hrest _ _ _ hinserts⟩

theorem Line.Inserts.of_now (h : l.now.2.Inserts entry used id l') : l.Inserts entry used id l' :=
  ⟨h.fates, h.logs, h.told⟩

/-- The tries at the start of an attempt. The handle tells of the row that was reported. -/
theorem Line.inserts_logStart {config : TrackerConfig} {execution : Uuid} {node : CompiledNode}
    {input : Json} {p q : Progress Line} {handle : Option LogHandle}
    (hperform : (Tracker.logStart config execution node input).perform service p = (handle, q)) :
    ∃ used, used.length ≤ config.maxLogRetries.toNat + 1 ∧
      p.state.Inserts (node.logEntry execution input p.state.now.1) used
        (handle.bind LogHandle.row) q.state := by
  let p' : Progress Line := { p with state := p.state.now.2 }
  let tries : Action (Except StoreError LogRow) :=
    Action.withRetry config (.ask (.insertLog (node.logEntry execution input p.state.now.1)))
  change (tries.bind _).perform service p' = (handle, q) at hperform
  cases htries : tries.perform service p' with
  | mk result mid =>
    obtain ⟨used, hused, hinserts⟩ := inserts_retryFrom config _ _ htries
    refine ⟨used, hused, ?_⟩
    cases result with
    | none =>
      rw [Action.perform_bind_none htries] at hperform
      obtain ⟨rfl, rfl⟩ := Prod.mk.inj hperform
      exact hinserts.of_now
    | some reply =>
      rw [Action.perform_bind htries] at hperform
      rcases reply with e | row <;>
      · obtain ⟨rfl, rfl⟩ := Prod.mk.inj hperform
        exact hinserts.of_now

end Starts

section Ends

variable {l : Line} {before : List LogRow} {row : LogRow} {c : Completion} {target : LogTarget}

/-- The last row of the log, completed or not. -/
def Line.EndsIn (before : List LogRow) (row : LogRow) (c : Completion) (l : Line) : Prop :=
  l.tables.logs = before ++ [row] ∨ l.tables.logs = before ++ [row.complete c]

theorem Rows.updateFirst?_append {p : α → Bool} {f : α → α} {xs : List α} (none : ∀ a ∈ xs, p a = false)
    (a : α) : updateFirst? p f (xs ++ [a]) = if p a then some (xs ++ [f a]) else .none := by
  induction xs with
  | nil => simp [updateFirst?]
  | cons x xs ih =>
    have hrest := ih fun a ha => none a (.tail _ ha)
    simp only [List.cons_append, updateFirst?, none x (.head _), hrest]
    cases p a <;> simp

theorem Rows.updateLast?_append {p : α → Bool} {f : α → α} (xs : List α) {a : α} (ha : p a = true) :
    updateLast? p f (xs ++ [a]) = some (xs ++ [f a]) := by
  simp [updateLast?, updateFirst?, ha]

/-- Among rows with other identifiers, completing reaches the last row only. -/
theorem Tables.completeLog_last {t : Tables} (hlogs : t.logs = before ++ [row])
    (others : ∀ r ∈ before, r.id ≠ row.id)
    (htarget : target = .row row.id ∨ target = .latest row.execution row.nodeId) :
    t.completeLog target c = some { t with logs := before ++ [row.complete c] } := by
  rcases htarget with rfl | rfl
  · rw [completeLog, hlogs, Rows.updateFirst?_append fun r hr => by simpa using others r hr]
    simp
  · rw [completeLog, hlogs, Rows.updateLast?_append before (by simp)]
    rfl

theorem Line.EndsIn.serve (h : l.EndsIn before row c) (others : ∀ r ∈ before, r.id ≠ row.id)
    (htarget : target = .row row.id ∨ target = .latest row.execution row.nodeId) :
    (l.serve (.completeLog target c)).2.EndsIn before row c := by
  have hcomplete : l.tables.completeLog target c =
      some { l.tables with logs := before ++ [row.complete c] } := by
    rcases h with h | h
    · exact Tables.completeLog_last h others htarget
    -- completed once more it stays as it is
    · have hagain : l.tables.completeLog target c =
          some { l.tables with logs := before ++ [(row.complete c).complete c] } :=
        Tables.completeLog_last h others htarget
      exact hagain
  simp only [Line.serve, MemoryStore.answer, Bool.false_eq_true, if_false, hcomplete]
  exact .inr rfl

theorem Line.EndsIn.answer (h : l.EndsIn before row c) (others : ∀ r ∈ before, r.id ≠ row.id)
    (htarget : target = .row row.id ∨ target = .latest row.execution row.nodeId) :
    (l.answer (.completeLog target c)).2.EndsIn before row c := by
  cases hl : l.fates with
  | nil =>
    rw [answer_nil _ hl]
    exact h.serve others htarget
  | cons fate fates =>
    have hrest : EndsIn before row c { l with fates } := h
    cases fate with
    | delivered =>
      rw [answer_delivered _ hl]
      exact hrest.serve others htarget
    | refused e =>
      rw [answer_refused _ hl]
      exact hrest
    | lost e =>
      rw [answer_lost _ hl]
      exact hrest.serve others htarget

/-- Whatever becomes of its calls, the end of an attempt leaves all rows but its own as they are. -/
theorem Line.endsIn_logComplete {config : TrackerConfig} {handle : LogHandle} {result : StepResult}
    {p : Progress Line} (hlogs : p.state.tables.logs = before ++ [row])
    (others : ∀ r ∈ before, r.id ≠ row.id) (hrow : handle.row = some row.id) :
    ((Tracker.logComplete config row.execution row.nodeId handle result).perform service p).2.state
      |>.EndsIn before row (Tracker.completion result p.state.now.1) := by
  let c := Tracker.completion result p.state.now.1
  have hcomplete : ∀ {target}, (target = .row row.id ∨ target = .latest row.execution row.nodeId) →
      (Tracker.complete config target c).Preserves service (EndsIn before row c) := fun htarget =>
    Action.preserves_withRetry (Action.preserves_ask fun _ h => h.answer others htarget)
  simp only [Tracker.logComplete, hrow]
  change (((Tracker.complete config (.row row.id) c).bind _).perform service
    { p with state := p.state.now.2 }).2.state.EndsIn before row c
  refine Action.Preserves.bind (hcomplete (.inl rfl)) (fun byRow => ?_) _ (.inl hlogs)
  split
  · exact Action.Preserves.bind (hcomplete (.inr rfl)) fun _ => Action.preserves_done _
  · exact Action.preserves_done _

end Ends

section Attempts

variable {l : Line} {entry : LogEntry} {used : List Fate}

theorem Line.length_strays (l : Line) (entry : LogEntry) (used : List Fate) :
    (l.strays entry used).length = used.countP Fate.isLost := by
  simp [strays]

theorem Line.mem_strays {row : LogRow} :
    row ∈ l.strays entry used ↔ ∃ k, l.supply.serial ≤ k ∧
      k < l.supply.serial + used.countP Fate.isLost ∧ row = entry.row (issued k) := by
  simp only [strays, List.mem_map, List.mem_range'_1, and_assoc, eq_comm]

/-- Identifiers were given out one after the other, and not too many of them. -/
structure Line.Numbered (l : Line) : Prop where
  few : l.supply.serial < 2 ^ 63
  known : ∀ row ∈ l.tables.logs, ∃ k < l.supply.serial, row.id = issued k

theorem Line.Numbered.ne (numbered : l.Numbered) (few : used.length ≤ 2 ^ 32) {row : LogRow}
    (hrow : row ∈ l.tables.logs ++ l.strays entry used) :
    row.id ≠ issued (l.supply.serial + used.countP Fate.isLost) := by
  have hlost : used.countP Fate.isLost ≤ used.length := List.countP_le_length
  have hserial := numbered.few
  have hnew : l.supply.serial + used.countP Fate.isLost < 2 ^ 64 := by omega
  rcases List.mem_append.1 hrow with hrow | hrow
  · obtain ⟨k, hk, hid⟩ := numbered.known row hrow
    rw [hid]
    exact Supply.fresh_ne (by omega) hnew
  · obtain ⟨k, -, hk, rfl⟩ := Line.mem_strays.1 hrow
    exact Supply.fresh_ne hk hnew

/-- The start of an attempt leaves one row for each reply that was lost, besides the row of its
handle. The end of the attempt leaves these rows running, whatever becomes of its own calls. -/
theorem Tracker.lost_replies_leave_rows (config : TrackerConfig) (execution : Uuid)
    (node : CompiledNode) (input : Json) (l : Line) :
    let started := (logStart config execution node input).perform Line.service (.new l)
    let entry := node.logEntry execution input l.now.1
    ∃ used, l.fates = used ++ started.2.state.fates ∧
      (l.strays entry used).length = used.countP Fate.isLost ∧
      (∀ stray ∈ l.strays entry used, stray.status = .running) ∧
      started.2.state.tables.logs = l.tables.logs ++ l.strays entry used ++
        (started.1.bind LogHandle.row).toList.map entry.row ∧
      (l.Numbered → ∀ handle id, started.1 = some handle → handle.row = some id → ∀ result,
        ∃ row, row.id = id ∧
          ((logComplete config execution node.id handle result).perform Line.service
            started.2).2.state.tables.logs = l.tables.logs ++ l.strays entry used ++ [row]) := by
  intro started entry
  obtain ⟨used, hused, hinserts⟩ : ∃ used, used.length ≤ config.maxLogRetries.toNat + 1 ∧
      l.Inserts entry used (started.1.bind LogHandle.row) started.2.state :=
    Line.inserts_logStart (q := started.2) rfl
  refine ⟨used, hinserts.fates, l.length_strays entry used, ?_, hinserts.logs, ?_⟩
  · intro stray hstray
    obtain ⟨k, -, -, rfl⟩ := Line.mem_strays.1 hstray
    rfl
  · intro numbered handle id hstarted hid result
    have hbind : started.1.bind LogHandle.row = some id := by rw [hstarted]; exact hid
    have hlogs : started.2.state.tables.logs =
        l.tables.logs ++ l.strays entry used ++ [entry.row id] := by
      rw [hinserts.logs, hbind]
      rfl
    have hnew : id = issued (l.supply.serial + used.countP Fate.isLost) :=
      hinserts.told id hbind
    have hfew : used.length ≤ 2 ^ 32 := by
      have := config.maxLogRetries.toNat_lt
      omega
    have hothers : ∀ r ∈ l.tables.logs ++ l.strays entry used, r.id ≠ (entry.row id).id :=
      fun r hr => hnew ▸ numbered.ne hfew hr
    have hend : ((logComplete config execution node.id handle result).perform Line.service
        started.2).2.state.EndsIn _ (entry.row id) (completion result started.2.state.now.1) :=
      Line.endsIn_logComplete hlogs hothers hid
    rcases hend with hends | hends
    · exact ⟨_, rfl, hends⟩
    · exact ⟨_, rfl, hends⟩

/-- Of four calls the second one does not arrive, and the replies to the first and the third are
lost. -/
def Line.unsteady : Line where
  tables := .empty
  supply := ⟨0, 0⟩
  fates := [.lost (.unavailable "reset"), .refused (.unavailable "reset"),
    .lost (.unavailable "reset")]

/-- Two rows go on running beside the one that is completed. -/
theorem Tracker.unsteady_leaves_two :
    let node : CompiledNode := ⟨"a", "a", "echo", 0, [], [], none⟩
    let started := (logStart .default .nil node .null).perform Line.service (.new .unsteady)
    let handle : LogHandle := ⟨some (issued 2), .ofMicros 0⟩
    let ended := (logComplete .default .nil "a" handle (.success .null)).perform Line.service started.2
    started.1 = some handle ∧ ∃ first second row, ended.2.state.tables.logs = [first, second, row] ∧
      first.status = .running ∧ second.status = .running ∧ row.id = issued 2 := by
  intro node started handle ended
  have hstarted : started.1 = some handle := by decide +kernel
  have hfates : started.2.state.fates = [] := by
    have : started.2.state.fates.isEmpty = true := by decide +kernel
    simpa using this
  obtain ⟨used, hused, hcount, hrunning, -, hends⟩ :=
    lost_replies_leave_rows .default .nil node .null .unsteady
  obtain rfl : Line.unsteady.fates = used := by rw [hused, hfates, List.append_nil]
  obtain ⟨first, second, hstrays⟩ := List.length_eq_two.1 hcount
  obtain ⟨row, hrow, hlogs⟩ :=
    hends ⟨by decide, by simp [Line.unsteady, Tables.empty]⟩ handle _ hstarted rfl (.success .null)
  rw [hstrays] at hrunning hlogs
  exact ⟨hstarted, first, second, row, hlogs, hrunning _ (by simp), hrunning _ (by simp), hrow⟩

/-- One lost reply is enough for a second row. -/
theorem Tracker.not_one_row_per_attempt :
    ¬ ∀ (config : TrackerConfig) (execution : Uuid) (node : CompiledNode) (input : Json) (l : Line),
      ((logStart config execution node input).perform Line.service
        (.new l)).2.state.tables.logs.length ≤ l.tables.logs.length + 1 := by
  intro all
  have hone := all .default .nil ⟨"a", "a", "echo", 0, [], [], none⟩ .null
    ⟨.empty, ⟨0, 0⟩, [.lost (.unavailable "reset")]⟩
  exact absurd hone (by decide +kernel)

end Attempts

end Flowgraph
