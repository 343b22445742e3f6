import Flowgraph.Proofs.Action.Makes
import Flowgraph.Proofs.Tracker.Calls
import Mathlib.Logic.Function.Iterate

/-! How often a call is tried. The first reply that is no refusal ends the tries, and the budget ends
them otherwise, with one pause between any two of them. Only with the greatest budget of all there is a
try too many to be counted. -/

namespace Flowgraph

/-- After such a reply the call is tried again, if the budget allows it. -/
def isRefusal : Except StoreError α → Bool
  | .ok _ => false
  | .error .notFound => false
  | .error _ => true

section Service

variable {σ : Type} (service : Service σ) (c : Call) (s : σ)

/-- The state of a service once the call has been made so many times. -/
def Service.after (n : Nat) : σ := (fun s => (service.answer s c).2)^[n] s

theorem Service.after_succ (n : Nat) :
    service.after c s (n + 1) = (service.answer (service.after c s n) c).2 :=
  Function.iterate_succ_apply' ..

/-- What the service replies to the call once it has been made so many times. -/
def Service.reply (n : Nat) : c.Reply := (service.answer (service.after c s n) c).1

end Service

section Tries

variable (config : TrackerConfig) {c : Call}

/-- Tries that are refused, each with the pause after it. So many were made before them. -/
def refusals (c : Call) (replies : Nat → c.Reply) (before k : Nat) : List Event :=
  (List.range k).flatMap fun i =>
    [.called c (replies i), .slept (backoffDelay config.retryBaseDelay (before + i + 1))]

theorem refusals_succ (replies : Nat → c.Reply) (before k : Nat) :
    refusals config c replies before (k + 1) =
      .called c (replies 0) :: .slept (backoffDelay config.retryBaseDelay (before + 1)) ::
        refusals config c (fun i => replies (i + 1)) (before + 1) k := by
  have hnext : ∀ i, before + (i + 1) + 1 = before + 1 + i + 1 := by omega
  simp [refusals, List.range_succ_eq_map, List.flatMap_map, hnext]

/-- What the last reply comes to. A refusal that comes after the greatest budget has no number. -/
def TrackerConfig.verdict (r : Except StoreError α) : Option (Except StoreError α) :=
  if isRefusal r ∧ config.maxLogRetries.toNat + 1 = UInt32.size then none else some r

variable {config} in
theorem TrackerConfig.verdict_eq_some {r r' : Except StoreError α} (h : config.verdict r = some r') :
    r' = r := by
  rw [verdict] at h
  split at h
  · cases h
  · exact (Option.some.inj h).symm

variable {config} in
theorem TrackerConfig.verdict_eq_none_iff {r : Except StoreError α} :
    config.verdict r = none ↔ isRefusal r = true ∧ config.maxLogRetries.toNat + 1 = UInt32.size := by
  rw [verdict]
  split <;> simp_all

variable {config} in
/-- Below the greatest budget the last reply is the result. -/
theorem TrackerConfig.verdict_of_budget (hbudget : config.maxLogRetries.toNat + 1 < UInt32.size)
    (r : Except StoreError α) : config.verdict r = some r :=
  if_neg fun h => Nat.ne_of_lt hbudget h.2

end Tries

namespace Action

section

variable (config : TrackerConfig) (op : Action (Except StoreError α)) (left : Nat)

theorem retryFrom_zero : retryFrom config op 0 = op.bind fun r => ending (config.verdict r) := by
  rw [retryFrom]
  congr 1
  funext r
  rcases r with (_ | _ | _) | a
  · rfl
  · by_cases hmax : config.maxLogRetries.toNat + 1 = UInt32.size <;>
      simp [TrackerConfig.verdict, isRefusal, hmax, ending]
  · by_cases hmax : config.maxLogRetries.toNat + 1 = UInt32.size <;>
      simp [TrackerConfig.verdict, isRefusal, hmax, ending]
  · rfl

theorem retryFrom_succ : retryFrom config op (left + 1) = op.bind fun r =>
    if isRefusal r then
      sleep (backoffDelay config.retryBaseDelay (config.maxLogRetries.toNat - left))
        (retryFrom config op left)
    else done r := by
  rw [retryFrom]
  congr 1
  funext r
  rcases r with (_ | _ | _) | a <;> rfl

end

variable {σ : Type} (service : Service σ) (config : TrackerConfig) (c : Call)

/-- With so many retries left, as many tries at most are refused before the last one. -/
theorem makes_retryFrom (left : Nat) (hleft : left ≤ config.maxLogRetries.toNat) (p : Progress σ) :
    ∃ k ≤ left, (∀ i < k, isRefusal (service.reply c p.state i) = true) ∧
      (k < left → isRefusal (service.reply c p.state k) = false) ∧
      ∃ q, q.state = service.after c p.state (k + 1) ∧
        (retryFrom config (ask c) left).Makes service p
          (refusals config c (service.reply c p.state) (config.maxLogRetries.toNat - left) k ++
            [Event.called c (service.reply c p.state k)])
          (config.verdict (service.reply c p.state k)) q := by
  induction left generalizing p with
  | zero =>
    refine ⟨0, Nat.le_refl 0, by simp, by simp,
      { p with state := (service.answer p.state c).2 }, rfl, ?_⟩
    rw [retryFrom_zero]
    exact (makes_ask c p).bind (makes_ending _ _)
  | succ left ih =>
    let mid : Progress σ := { p with state := (service.answer p.state c).2 }
    have hask : (ask c).Makes service p [.called c (service.reply c p.state 0)]
        (some (service.reply c p.state 0)) mid := makes_ask c p
    rw [retryFrom_succ]
    cases hfirst : isRefusal (service.reply c p.state 0) with
    | false =>
      have hverdict : config.verdict (service.reply c p.state 0) = some (service.reply c p.state 0) := by
        simp [TrackerConfig.verdict, hfirst]
      refine ⟨0, Nat.zero_le _, by simp, fun _ => hfirst, mid, rfl, ?_⟩
      rw [hverdict]
      refine hask.bind ?_
      rw [hfirst]
      exact makes_done _ _
    | true =>
      let delay := backoffDelay config.retryBaseDelay (config.maxLogRetries.toNat - left)
      obtain ⟨k, hk, hrefused, hlast, q, hq, hmakes⟩ :=
        ih (by omega) { mid with elapsed := mid.elapsed + delay.nanos }
      have hbefore : config.maxLogRetries.toNat - left = config.maxLogRetries.toNat - (left + 1) + 1 := by
        omega
      refine ⟨k + 1, by omega, ?_, fun h => hlast (by omega), q, hq, ?_⟩
      · intro i hi
        cases i with
        | zero => exact hfirst
        | succ i => exact hrefused i (by omega)
      · rw [refusals_succ, ← hbefore]
        refine hask.bind ?_
        rw [hfirst]
        exact hmakes.sleep

theorem makes_withRetry (p : Progress σ) :
    ∃ k ≤ config.maxLogRetries.toNat, (∀ i < k, isRefusal (service.reply c p.state i) = true) ∧
      (k < config.maxLogRetries.toNat → isRefusal (service.reply c p.state k) = false) ∧
      ∃ q, q.state = service.after c p.state (k + 1) ∧
        (withRetry config (ask c)).Makes service p
          (refusals config c (service.reply c p.state) 0 k ++
            [Event.called c (service.reply c p.state k)])
          (config.verdict (service.reply c p.state k)) q := by
  have htries := makes_retryFrom service config c _ (Nat.le_refl _) p
  rwa [Nat.sub_self] at htries

end Action

/-- Replies to calls, each known by how many calls came before it. -/
abbrev Tape := Nat → (c : Call) → c.Reply

/-- Counts the calls and replies as the tape says. -/
def Tape.service (tape : Tape) : Service Nat := ⟨fun n c => (tape n c, n + 1), fun n => (.ofMicros 0, n)⟩

namespace Action

theorem after_tape (tape : Tape) (c : Call) (n : Nat) : tape.service.after c 0 n = n := by
  induction n with
  | zero => rfl
  | succ n ih =>
    rw [Service.after_succ]
    exact congrArg (· + 1) ih

theorem reply_tape (tape : Tape) (c : Call) (n : Nat) : tape.service.reply c 0 n = tape n c := by
  rw [Service.reply, after_tape]
  rfl

/-- A call is tried until a reply is no refusal or the budget is spent, with one pause between any two
tries, and its last reply is the result. There is none if the budget is the greatest and all of it was
refused, and one more try as well: the count of the tries runs over then. -/
theorem withRetry_bounded (config : TrackerConfig) (c : Call) (tape : Tape) :
    let op := withRetry config (ask c)
    let ran := op.perform tape.service (.new 0)
    ∃ last ≤ config.maxLogRetries.toNat,
      (∀ i < last, isRefusal (tape i c) = true) ∧
      (last < config.maxLogRetries.toNat → isRefusal (tape last c) = false) ∧
      ran.2.state = last + 1 ∧
      Path [] op (refusals config c (tape · c) 0 last ++ [.called c (tape last c)])
        (ending ran.1) ∧
      (∀ r, ran.1 = some r → r = tape last c) ∧
      (ran.1 = none ↔ config.maxLogRetries.toNat + 1 = UInt32.size ∧
        ∀ i < UInt32.size, isRefusal (tape i c) = true) := by
  intro op ran
  obtain ⟨last, hlast, hrefused, hfinal, q, hq, hmakes⟩ :=
    makes_withRetry tape.service config c (.new 0)
  have hreply : tape.service.reply c 0 = (tape · c) := funext (reply_tape tape c)
  have hran : ran = (config.verdict (tape last c), q) := by
    rw [← reply_tape tape c]
    exact hmakes.perform
  have hpath := hmakes.path []
  simp only [Progress.new, hreply, List.nil_append] at hrefused hfinal hpath
  refine ⟨last, hlast, hrefused, hfinal, ?_, ?_, ?_, ?_⟩
  · rw [hran]
    exact hq.trans (after_tape tape c _)
  · rwa [hran]
  · rw [hran]
    exact fun r => TrackerConfig.verdict_eq_some
  · rw [hran, TrackerConfig.verdict_eq_none_iff, and_comm]
    refine and_congr_right fun hgreatest => ⟨fun hrefusal i hi => ?_, fun h => h last (by omega)⟩
    -- The budget is spent: a last reply that came before would be no refusal.
    have hspent : last = config.maxLogRetries.toNat := by
      by_contra hne
      simp [hfinal (by omega)] at hrefusal
    obtain hbefore | rfl : i < last ∨ i = last := by omega
    · exact hrefused i hbefore
    · exact hrefusal

/-- When a call is refused for ever, the greatest budget has no result. -/
theorem withRetry_overflows : ¬ ∀ (config : TrackerConfig) (c : Call) (tape : Tape),
    ∃ r, ((withRetry config (ask c)).perform tape.service (.new 0)).1 = some r := by
  intro all
  let config : TrackerConfig := ⟨4294967295, .ofMillis 50⟩
  let tape : Tape := fun _ _ => .error (.unavailable "down")
  obtain ⟨r, hr⟩ := all config (.listLogs .nil) tape
  obtain ⟨last, -, -, -, q, -, hmakes⟩ :=
    makes_withRetry tape.service config (.listLogs .nil) (.new 0)
  rw [hmakes.perform] at hr
  cases hr

end Action

end Flowgraph
