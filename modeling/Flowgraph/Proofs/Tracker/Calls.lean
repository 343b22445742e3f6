import Flowgraph.Proofs.Action.History
import Flowgraph.Tracker

/-! What the tracker adds to a history. A write that is refused is tried again until the budget of
retries is spent, so whatever it comes to, the history tells why. -/

namespace Flowgraph

/-- The second history is the first one followed by events of a kind. -/
def Adds (P : Event → Prop) (h h' : List Event) : Prop := ∃ more, h' = h ++ more ∧ ∀ e ∈ more, P e

namespace Adds

variable {P Q : Event → Prop} {h h' h'' : List Event}

theorem refl (P : Event → Prop) (h : List Event) : Adds P h h := ⟨[], by simp, by simp⟩

theorem one {e : Event} (he : P e) : Adds P h (h ++ [e]) := ⟨[e], rfl, by simpa using he⟩

theorem trans (h1 : Adds P h h') (h2 : Adds P h' h'') : Adds P h h'' := by
  obtain ⟨l, rfl, hl⟩ := h1
  obtain ⟨m, rfl, hm⟩ := h2
  refine ⟨l ++ m, List.append_assoc .., fun e he => ?_⟩
  rcases List.mem_append.1 he with he | he
  · exact hl e he
  · exact hm e he

theorem mono (hPQ : ∀ e, P e → Q e) (hP : Adds P h h') : Adds Q h h' := by
  obtain ⟨l, rfl, hl⟩ := hP
  exact ⟨l, rfl, fun e he => hPQ e (hl e he)⟩

theorem grows (hP : Adds P h h') : h <+: h' := by
  obtain ⟨l, rfl, -⟩ := hP
  exact List.prefix_append _ _

theorem mem (hP : Adds P h h') {e : Event} (he : e ∈ h') : e ∈ h ∨ P e := by
  obtain ⟨l, rfl, hl⟩ := hP
  exact (List.mem_append.1 he).imp_right (hl e)

end Adds

/-- A call that was refused so many times, with a pause after each. -/
inductive Refused (c : Call) : Nat → List Event → Prop
  | none : Refused c 0 []
  | more {k l e d} : Refused c k l → e ≠ .notFound →
    Refused c (k + 1) (l ++ [.called c (.error e), .slept d])

/-- A try of a call, or the pause after one. -/
def IsTry (c : Call) : Event → Prop
  | .called c' _ => c' = c
  | .slept _ => True
  | _ => False

/-- The call was refused as often as the budget of retries allows, and once more. -/
def Spent (config : TrackerConfig) (c : Call) (h : List Event) : Prop :=
  ∃ l e, Refused c config.maxLogRetries.toNat l ∧ e ≠ .notFound ∧
    (l ++ [.called c (.error e)]) <:+: h

/-- The call is not tried again: there is no row for it, or the budget is spent. -/
def GivenUp (config : TrackerConfig) (c : Call) (h : List Event) : Prop :=
  .called c (.error .notFound) ∈ h ∨ Spent config c h

/-- The budget is the greatest one and all of it was spent on one call. -/
def Exhausted (config : TrackerConfig) (h : List Event) : Prop :=
  config.maxLogRetries.toNat + 1 = UInt32.size ∧ ∃ c, Spent config c h

/-- What a call has come to in the end. -/
structure Replied (config : TrackerConfig) (c : Call) (r : c.Reply) (h : List Event) : Prop where
  of_ok : ∀ a, r = .ok a → .called c (.ok a) ∈ h
  of_error : ∀ e, r = .error e → e ≠ .notFound → Spent config c h
  of_notFound : r = .error .notFound → .called c (.error .notFound) ∈ h

theorem Spent.grows {config : TrackerConfig} {c : Call} {h h' : List Event} (hp : h <+: h')
    (hs : Spent config c h) : Spent config c h' := by
  obtain ⟨l, e, hl, he, hi⟩ := hs
  exact ⟨l, e, hl, he, hi.trans hp.isInfix⟩

theorem GivenUp.grows {config : TrackerConfig} {c : Call} {h h' : List Event} (hp : h <+: h')
    (hg : GivenUp config c h) : GivenUp config c h' :=
  hg.imp (fun hm => hp.subset hm) fun hs => hs.grows hp

theorem Replied.givenUp {config : TrackerConfig} {c : Call} {e : StoreError} {h : List Event}
    (hr : Replied config c (.error e) h) : GivenUp config c h := by
  by_cases he : e = .notFound
  · subst he
    exact Or.inl (hr.of_notFound rfl)
  · exact Or.inr (hr.of_error e rfl he)

theorem Refused.isTry {c : Call} {k : Nat} {l : List Event} (hl : Refused c k l) :
    ∀ e ∈ l, IsTry c e := by
  induction hl with
  | none => simp
  | more _ _ ih =>
    intro e he
    rcases List.mem_append.1 he with he | he
    · exact ih e he
    · rcases List.mem_cons.1 he with rfl | he
      · rfl
      · obtain rfl := List.mem_singleton.1 he
        trivial

theorem Refused.not_ok {c : Call} {k : Nat} {l : List Event} (hl : Refused c k l) (c' : Call)
    (a : c'.Answer) : .called c' (.ok a) ∉ l := by
  induction hl with
  | none => simp
  | more _ _ ih =>
    intro he
    rcases List.mem_append.1 he with he | he
    · exact ih he
    · rcases List.mem_cons.1 he with he | he
      · obtain ⟨rfl, he⟩ := Event.called.inj he
        exact absurd (eq_of_heq he) (by simp)
      · simp at he

/-- All tries of a call: the last one has this reply, and those before were refused. -/
def Tried (config : TrackerConfig) (c : Call) (r : c.Reply) (l : List Event) : Prop :=
  ∃ k refused, Refused c k refused ∧ l = refused ++ [.called c r] ∧
    ∀ e, r = .error e → e ≠ .notFound → k = config.maxLogRetries.toNat

theorem Refused.adds {c : Call} {k : Nat} {l : List Event} (hl : Refused c k l) (h : List Event)
    (r : c.Reply) : Adds (IsTry c) h (h ++ l ++ [Event.called c r]) :=
  Adds.trans ⟨l, rfl, hl.isTry⟩ (.one rfl)

namespace Action

variable {keeps : List Event → Prop} {config : TrackerConfig} {c : Call} {h : List Event}

theorem ensures_ask {fails : List Event → Prop} (hk : keeps h)
    (hkeep : ∀ r, keeps (h ++ [Event.called c r])) :
    (ask c).Ensures keeps fails (fun r h' => h' = h ++ [Event.called c r]) h :=
  ⟨hk, fun r => ⟨hkeep r, rfl⟩⟩

theorem ensures_clock {fails : List Event → Prop} (hk : keeps h)
    (hkeep : ∀ t, keeps (h ++ [Event.told t])) :
    clock.Ensures keeps fails (fun t h' => h' = h ++ [Event.told t]) h :=
  ⟨hk, fun t => ⟨hkeep t, rfl⟩⟩

theorem ensures_start {fails : List Event → Prop} {i : Invocation} {w : Work} (hk : keeps h)
    (hkeep : keeps (h ++ [Event.started i w])) :
    (start i w).Ensures keeps fails (fun _ h' => h' = h ++ [Event.started i w]) h :=
  ⟨hk, hkeep, rfl⟩

theorem ensures_outcomes {fails : List Event → Prop} (hk : keeps h)
    (hkeep : ∀ os, Outcomes h os → keeps (h ++ [.joined os])) :
    outcomes.Ensures keeps fails (fun os h' => Outcomes h os ∧ h' = h ++ [.joined os]) h :=
  ⟨hk, fun os ho => ⟨hkeep os ho, ho, rfl⟩⟩

/-- What holds of every end, and is kept by a pause and by one more try, holds of all tries. -/
theorem withRetry_of {config : TrackerConfig} {op : Action (Except StoreError α)}
    {holds : Action (Except StoreError α) → Prop} (ends : ∀ r, holds (.done r))
    (stops : holds .overflow) (pauses : ∀ d a, holds a → holds (.sleep d a))
    (tries : ∀ next, (∀ r, holds (next r)) → holds (op.bind next)) :
    holds (withRetry config op) := by
  unfold withRetry
  generalize config.maxLogRetries.toNat = left
  induction left with
  | zero =>
    refine tries _ fun r => ?_
    rcases r with (_ | _ | _) | _
    · exact ends _
    · dsimp only
      split
      · exact stops
      · exact ends _
    · dsimp only
      split
      · exact stops
      · exact ends _
    · exact ends _
  | succ left ih =>
    refine tries _ fun r => ?_
    rcases r with (_ | _ | _) | _
    · exact ends _
    · exact pauses _ _ ih
    · exact pauses _ _ ih
    · exact ends _

/-- After so many refusals, as many tries remain as the budget has left. -/
theorem ensures_retryFrom
    (hkeep : ∀ k l, Refused c k l → keeps (h ++ l) ∧ ∀ r, keeps (h ++ l ++ [Event.called c r]))
    (left : Nat) {k : Nat} {l : List Event} (hl : Refused c k l)
    (hk : k + left = config.maxLogRetries.toNat) :
    (retryFrom config (ask c) left).Ensures keeps (Exhausted config)
      (fun r h' => ∃ l, h' = h ++ l ∧ Tried config c r l) (h ++ l) := by
  induction left generalizing k l with
  | zero =>
    obtain rfl : k = config.maxLogRetries.toNat := by omega
    rw [retryFrom]
    refine ⟨(hkeep _ l hl).1, fun r => ?_⟩
    have hhere := (hkeep _ l hl).2 r
    have htried : ∃ l', h ++ l ++ [Event.called c r] = h ++ l' ∧ Tried config c r l' :=
      ⟨_, List.append_assoc .., _, l, hl, rfl, fun _ _ _ => rfl⟩
    have hend : ∀ e, r = .error e → e ≠ .notFound →
        (if config.maxLogRetries.toNat + 1 = UInt32.size then (.overflow : Action c.Reply)
          else .done (.error e)).Ensures keeps (Exhausted config)
          (fun r h' => ∃ l, h' = h ++ l ∧ Tried config c r l) (h ++ l ++ [Event.called c r]) := by
      rintro e rfl he
      split
      · next hmax =>
        refine ⟨hhere, hmax, c, l, e, hl, he, ?_⟩
        rw [List.append_assoc]
        exact (List.suffix_append _ _).isInfix
      · exact ⟨hhere, htried⟩
    rcases r with (_ | reason | fault) | a
    · exact ⟨hhere, htried⟩
    · exact hend _ rfl (by simp)
    · exact hend _ rfl (by simp)
    · exact ⟨hhere, htried⟩
  | succ left ih =>
    rw [retryFrom]
    refine ⟨(hkeep k l hl).1, fun r => ?_⟩
    have hhere := (hkeep k l hl).2 r
    have htried : (∀ e, r = .error e → e = .notFound) →
        ∃ l', h ++ l ++ [Event.called c r] = h ++ l' ∧ Tried config c r l' := fun hr =>
      ⟨_, List.append_assoc .., k, l, hl, rfl, fun e he hne => absurd (hr e he) hne⟩
    have hagain : ∀ e d, r = .error e → e ≠ .notFound →
        (Action.sleep d (retryFrom config (ask c) left)).Ensures keeps (Exhausted config)
          (fun r h' => ∃ l, h' = h ++ l ∧ Tried config c r l) (h ++ l ++ [Event.called c r]) := by
      rintro e d rfl he
      refine ⟨hhere, ?_⟩
      have hmore := ih (hl.more he (d := d)) (by omega)
      rwa [List.append_cons, ← List.append_assoc, ← List.append_assoc] at hmore
    rcases r with (_ | reason | fault) | a
    · exact ⟨hhere, htried (by simp)⟩
    · exact hagain _ _ rfl (by simp)
    · exact hagain _ _ rfl (by simp)
    · exact ⟨hhere, htried (by simp)⟩

theorem ensures_tries
    (hkeep : ∀ k l, Refused c k l → keeps (h ++ l) ∧ ∀ r, keeps (h ++ l ++ [Event.called c r])) :
    (withRetry config (ask c)).Ensures keeps (Exhausted config)
      (fun r h' => ∃ l, h' = h ++ l ∧ Tried config c r l) h := by
  have h0 := ensures_retryFrom hkeep config.maxLogRetries.toNat .none (Nat.zero_add _)
  rwa [List.append_nil] at h0

theorem ensures_withRetry (hkeep : ∀ h', Adds (IsTry c) h h' → keeps h') :
    (withRetry config (ask c)).Ensures keeps (Exhausted config)
      (fun r h' => Adds (IsTry c) h h' ∧ Replied config c r h') h := by
  have htries : (withRetry config (ask c)).Ensures keeps (Exhausted config)
      (fun r h' => ∃ l, h' = h ++ l ∧ Tried config c r l) h :=
    ensures_tries fun k l hl => ⟨hkeep _ ⟨l, rfl, hl.isTry⟩, fun r => hkeep _ (hl.adds h r)⟩
  refine htries.mono ?_
  rintro r _ - - ⟨_, rfl, k, l, hl, rfl, hspent⟩
  rw [← List.append_assoc]
  refine ⟨hl.adds h r, by rintro a rfl; simp, fun e he hne => ?_, by rintro rfl; simp⟩
  subst he
  refine ⟨l, e, hspent e rfl hne ▸ hl, hne, ?_⟩
  rw [List.append_assoc]
  exact (List.suffix_append _ _).isInfix

end Action

/-- What is logged when the node is started on an input. -/
def CompiledNode.logEntry (n : CompiledNode) (execution : Uuid) (input : Json)
    (startedAt : Instant) : LogEntry where
  execution := execution
  nodeId := n.id
  nodeName := n.name
  nodeType := n.stepType
  input := Redaction.redact input
  startedAt := startedAt

/-- The target is the row that was written for the node, or the latest one of the node. -/
def Targets (execution : Uuid) (h : List Event) (id : String) : LogTarget → Prop
  | .row row => ∃ entry r, .called (.insertLog entry) (.ok r) ∈ h ∧ entry.nodeId = id ∧ r.id = row
  | .latest e node => e = execution ∧ node = id

/-- The result of the node has been written to its log. -/
def Recorded (execution : Uuid) (h : List Event) (id : String) (r : StepResult) : Prop :=
  ∃ target t, Targets execution h id target ∧
    .called (.completeLog target (Tracker.completion r t)) (.ok ()) ∈ h

/-- Writing the result of the node to its log was given up. -/
def Unrecorded (config : TrackerConfig) (execution : Uuid) (h : List Event) (id : String)
    (r : StepResult) : Prop :=
  ∃ t, GivenUp config (.completeLog (.latest execution id) (Tracker.completion r t)) h ∨
    ∃ row, Targets execution h id (.row row) ∧
      Spent config (.completeLog (.row row) (Tracker.completion r t)) h

theorem targets_latest (execution : Uuid) (h : List Event) (id : String) :
    Targets execution h id (.latest execution id) :=
  ⟨rfl, rfl⟩

theorem Targets.grows {execution : Uuid} {h h' : List Event} (hp : h <+: h') {id : String}
    {target : LogTarget} (ht : Targets execution h id target) : Targets execution h' id target := by
  cases target with
  | row row =>
    obtain ⟨entry, r, hr, hid, hrow⟩ := ht
    exact ⟨entry, r, hp.subset hr, hid, hrow⟩
  | latest e node => exact ht

theorem Recorded.grows {execution : Uuid} {h h' : List Event} (hp : h <+: h') {id : String}
    {r : StepResult} (hr : Recorded execution h id r) : Recorded execution h' id r := by
  obtain ⟨target, t, ht, hc⟩ := hr
  exact ⟨target, t, ht.grows hp, hp.subset hc⟩

theorem Unrecorded.grows {config : TrackerConfig} {execution : Uuid} {h h' : List Event}
    (hp : h <+: h') {id : String} {r : StepResult} (hu : Unrecorded config execution h id r) :
    Unrecorded config execution h' id r := by
  obtain ⟨t, hg | ⟨row, ht, hs⟩⟩ := hu
  · exact ⟨t, Or.inl (hg.grows hp)⟩
  · exact ⟨t, Or.inr ⟨row, ht.grows hp, hs.grows hp⟩⟩

/-- Nothing is given up that was not refused. -/
theorem Unrecorded.refused {config : TrackerConfig} {execution : Uuid} {h : List Event}
    {id : String} {r : StepResult} (hu : Unrecorded config execution h id r) :
    ∃ target c e, .called (.completeLog target c) (.error e) ∈ h := by
  have hspent : ∀ target c, Spent config (.completeLog target c) h →
      ∃ target c e, .called (.completeLog target c) (.error e) ∈ h := by
    rintro target c ⟨l, e, -, -, hinfix⟩
    exact ⟨target, c, e, hinfix.subset (by simp)⟩
  obtain ⟨t, (hmissing | hs) | ⟨row, -, hs⟩⟩ := hu
  · exact ⟨_, _, _, hmissing⟩
  · exact hspent _ _ hs
  · exact hspent _ _ hs

/-- What logging the start of a node adds. -/
def IsStartLog (n : CompiledNode) (execution : Uuid) (input : Json) : Event → Prop
  | .called (.insertLog entry) _ => ∃ t, entry = n.logEntry execution input t
  | .told _ => True
  | .slept _ => True
  | _ => False

/-- What logging the end of a node adds. -/
def IsEndLog (execution : Uuid) (h : List Event) (id : String) (r : StepResult) : Event → Prop
  | .called (.completeLog target c) _ =>
    Targets execution h id target ∧ ∃ t, c = Tracker.completion r t
  | .told _ => True
  | .slept _ => True
  | _ => False

/-- The statuses that were read from the logs; none if they could not be read. -/
def loggedStatuses : Except StoreError (List LogRow) → List (String × RunStatus)
  | .ok logs => latestPerNode logs
  | .error _ => []

namespace Tracker

open Flowgraph.Action

variable {keeps : List Event → Prop} {config : TrackerConfig} {execution : Uuid} {h : List Event}

theorem ensures_logStart {n : CompiledNode} {input : Json}
    (hkeep : ∀ h', Adds (IsStartLog n execution input) h h' → keeps h') :
    (logStart config execution n input).Ensures keeps (Exhausted config)
      (fun handle h' => Adds (IsStartLog n execution input) h h' ∧
        ∀ row, handle.row = some row → Targets execution h' n.id (.row row)) h := by
  have htold : ∀ t, Adds (IsStartLog n execution input) h (h ++ [Event.told t]) :=
    fun _ => .one trivial
  refine Ensures.bind (ensures_clock (hkeep h (.refl _ _)) fun t => hkeep _ (htold t)) ?_
  rintro t _ - - rfl
  have htry : ∀ h',
      Adds (IsTry (.insertLog (n.logEntry execution input t))) (h ++ [Event.told t]) h' →
      Adds (IsStartLog n execution input) h h' := by
    intro h' hh
    refine (htold t).trans (hh.mono fun e he => ?_)
    cases e with
    | called c r => obtain rfl : c = _ := he; exact ⟨t, rfl⟩
    | slept d => trivial
    | told | warned | started | joined => exact he.elim
  refine Ensures.bind (ensures_withRetry fun h' hh => hkeep h' (htry h' hh)) ?_
  rintro r h' - hk ⟨hadds, hreply⟩
  rcases r with e | row
  · exact ⟨hk, htry h' hadds, by simp⟩
  · refine ⟨hk, htry h' hadds, ?_⟩
    rintro _ ⟨⟩
    exact ⟨_, row, hreply.of_ok row rfl, rfl, rfl⟩

theorem ensures_complete {id : String} {r : StepResult} {t : Instant} {target : LogTarget}
    (ht : Targets execution h id target) {h₀ : List Event}
    (h0 : Adds (IsEndLog execution h id r) h h₀)
    (hkeep : ∀ h', Adds (IsEndLog execution h id r) h h' → keeps h') :
    (complete config target (completion r t)).Ensures keeps (Exhausted config)
      (fun reply h' => Adds (IsEndLog execution h id r) h h' ∧
        Replied config (.completeLog target (completion r t)) reply h') h₀ := by
  have htry : ∀ h', Adds (IsTry (.completeLog target (completion r t))) h₀ h' →
      Adds (IsEndLog execution h id r) h h' := by
    intro h' hh
    refine h0.trans (hh.mono fun e he => ?_)
    cases e with
    | called c r => obtain rfl : c = _ := he; exact ⟨ht, t, rfl⟩
    | slept d => trivial
    | told | warned | started | joined => exact he.elim
  refine (ensures_withRetry fun h' hh => hkeep h' (htry h' hh)).mono ?_
  rintro reply h' - - ⟨hadds, hreply⟩
  exact ⟨htry h' hadds, hreply⟩

/-- Tries the row of the handle, if there is one. -/
def completeRow (config : TrackerConfig) (handle : LogHandle) (c : Completion) :
    Action (Except StoreError Unit) :=
  match handle.row with
  | some id => complete config (.row id) c
  | none => .done (.error .notFound)

/-- Goes on to the latest row of the node if the other one was not there. -/
def completeLatest (config : TrackerConfig) (execution : Uuid) (id : String) (c : Completion) :
    Except StoreError Unit → Action (Except StoreError Unit)
  | .error .notFound => complete config (.latest execution id) c
  | other => .done other

theorem logComplete_eq (id : String) (handle : LogHandle) (r : StepResult) :
    logComplete config execution id handle r = clock.bind fun t =>
      (completeRow config handle (completion r t)).bind fun byRow =>
        (completeLatest config execution id (completion r t) byRow).bind fun w =>
          .done w.isOk := by
  have hrest : ∀ (c : Completion) (byRow : Except StoreError Unit),
      (completeLatest config execution id c byRow).bind (fun w => .done w.isOk) =
        match byRow with
        | .error .notFound => (complete config (.latest execution id) c).bind fun w => .done w.isOk
        | other => .done other.isOk := by
    rintro c ((_ | _ | _) | _) <;> rfl
  simp only [hrest]
  obtain ⟨_ | row, startedAt⟩ := handle <;> rfl

theorem ensures_logComplete {id : String} {handle : LogHandle} {r : StepResult}
    (hrow : ∀ row, handle.row = some row → Targets execution h id (.row row))
    (hkeep : ∀ h', Adds (IsEndLog execution h id r) h h' → keeps h') :
    (logComplete config execution id handle r).Ensures keeps (Exhausted config)
      (fun _ h' => Adds (IsEndLog execution h id r) h h' ∧
        (Recorded execution h' id r ∨ Unrecorded config execution h' id r)) h := by
  have htold : ∀ t, Adds (IsEndLog execution h id r) h (h ++ [Event.told t]) := fun _ => .one trivial
  rw [logComplete_eq]
  refine Ensures.bind (ensures_clock (hkeep h (.refl _ _)) fun t => hkeep _ (htold t)) ?_
  rintro t _ - - rfl
  have hbyRow : (completeRow config handle (completion r t)).Ensures keeps (Exhausted config)
      (fun reply h' => Adds (IsEndLog execution h id r) h h' ∧
        (reply = .ok () → Recorded execution h' id r) ∧
        ∀ e, reply = .error e → e ≠ .notFound → Unrecorded config execution h' id r)
      (h ++ [Event.told t]) := by
    rw [completeRow]
    split
    · next row hr =>
      refine (ensures_complete (hrow row hr) (htold t) hkeep).mono ?_
      rintro reply h' - - ⟨hadds, hreply⟩
      have ht : Targets execution h' id (.row row) := (hrow row hr).grows hadds.grows
      exact ⟨hadds, fun ho => ⟨_, t, ht, hreply.of_ok _ ho⟩,
        fun e he hne => ⟨t, Or.inr ⟨row, ht, hreply.of_error e he hne⟩⟩⟩
    · exact ⟨hkeep _ (htold t), htold t, by simp, by simp⟩
  refine Ensures.bind hbyRow ?_
  rintro byRow h₁ - hk ⟨hadds, hok, herror⟩
  have hlatest : (completeLatest config execution id (completion r t) byRow).Ensures keeps
      (Exhausted config) (fun _ h' => Adds (IsEndLog execution h id r) h h' ∧
        (Recorded execution h' id r ∨ Unrecorded config execution h' id r)) h₁ := by
    rcases byRow with (_ | reason | fault) | ⟨⟩
    · refine (ensures_complete (targets_latest execution h id) hadds hkeep).mono ?_
      rintro reply h' - - ⟨hadds, hreply⟩
      refine ⟨hadds, ?_⟩
      rcases reply with e | ⟨⟩
      · exact Or.inr ⟨t, Or.inl hreply.givenUp⟩
      · exact Or.inl ⟨_, t, targets_latest execution h' id, hreply.of_ok _ rfl⟩
    · exact ⟨hk, hadds, Or.inr (herror _ rfl (by simp))⟩
    · exact ⟨hk, hadds, Or.inr (herror _ rfl (by simp))⟩
    · exact ⟨hk, hadds, Or.inl (hok rfl)⟩
  refine Ensures.bind hlatest ?_
  rintro w h' - hk' hw
  exact ⟨hk', hw⟩

/-- The status that is derived from a reading of the logs. -/
def derivedStatus (run : RunState) (listed : Except StoreError (List LogRow)) : RunStatus :=
  .derive (mergedStatuses run (loggedStatuses listed))

/-- The status that is written for it. -/
def writtenStatus (finished : Bool) (derived : RunStatus) : RunStatus :=
  if finished then derived else .running

theorem refreshStatus_eq (run : RunState) (finished : Bool) :
    refreshStatus config execution run finished =
      (ask (.listLogs execution)).bind fun listed =>
        (withRetry config (ask (.updateStatus execution
          (writtenStatus finished (derivedStatus run listed)) finished))).bind fun _ =>
            .done (derivedStatus run listed) :=
  congrArg (bind _) (funext fun listed => by cases listed <;> rfl)

theorem ensures_refreshStatus {run : RunState} (finished : Bool) (hk : keeps h)
    (hkeep : ∀ listed h', Adds (IsTry (.updateStatus execution
      (writtenStatus finished (derivedStatus run listed)) finished))
        (h ++ [Event.called (.listLogs execution) listed]) h' → keeps h') :
    (refreshStatus config execution run finished).Ensures keeps (Exhausted config)
      (fun derived h' => ∃ listed, derived = derivedStatus run listed ∧
        Adds (IsTry (.updateStatus execution (writtenStatus finished derived) finished))
          (h ++ [Event.called (.listLogs execution) listed]) h') h := by
  rw [refreshStatus_eq]
  refine Ensures.bind (ensures_ask hk fun listed => hkeep listed _ (.refl _ _)) ?_
  rintro listed _ - - rfl
  refine Ensures.bind (ensures_withRetry (hkeep listed)) ?_
  rintro _ h' - hk' ⟨hadds, -⟩
  exact ⟨hk', listed, rfl, hadds⟩

theorem ensures_persistedStatus {fails : List Event → Prop} (hk : keeps h)
    (hkeep : ∀ r, keeps (h ++ [Event.called (.getExecution execution) r])) :
    (persistedStatus execution).Ensures keeps fails
      (fun s h' => ∃ r : Except StoreError ExecutionRow, s = r.toOption.map (·.status) ∧
        h' = h ++ [Event.called (.getExecution execution) r]) h := by
  refine Ensures.bind (ensures_ask hk hkeep) ?_
  rintro r _ - hk' rfl
  rcases r with e | row
  · exact ⟨hk', _, rfl, rfl⟩
  · exact ⟨hk', _, rfl, rfl⟩

end Tracker

end Flowgraph
