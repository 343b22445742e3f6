import Flowgraph.Proofs.Tracker.Calls

/-! What an action may ask of the store and which steps it may start, whatever the replies are, and
how a path of an action that goes on with another one falls into a path of each. -/

namespace Flowgraph

/-- If the event is a call, the call is of a kind. -/
def Event.Asks (P : Call → Prop) : Event → Prop
  | .called c _ => P c
  | _ => True

/-- If the event is a start, the step is of a kind. -/
def Event.Starts (P : Invocation → Prop) : Event → Prop
  | .started i _ => P i
  | _ => True

theorem Adds.of_concat {P : Event → Prop} {h k : List Event} {e : Event}
    (ha : Adds P h (k ++ [e])) : h = k ++ [e] ∨ (Adds P h k ∧ P e) := by
  obtain ⟨more, hmore, hP⟩ := ha
  rcases List.eq_nil_or_concat more with rfl | ⟨init, last, rfl⟩
  · exact Or.inl (by simpa using hmore.symm)
  · rw [List.concat_eq_append] at hmore hP
    rw [← List.append_assoc] at hmore
    obtain ⟨rfl, hlast⟩ := List.append_inj' hmore rfl
    obtain rfl := List.singleton_inj.1 hlast
    exact Or.inr ⟨⟨init, rfl, fun e he => hP e (List.mem_append_left _ he)⟩, hP e (by simp)⟩

theorem Adds.grows_or_last {P : Event → Prop} {h k : List Event} {e : Event}
    (ha : Adds P h (k ++ [e])) : h = k ++ [e] ∨ (h <+: k ∧ P e) :=
  ha.of_concat.imp_right fun ⟨hk, he⟩ => ⟨hk.grows, he⟩

theorem Adds.of_mem_starts {P : Invocation → Prop} {h h' : List Event}
    (ha : Adds (Event.Starts P) h h') {i : Invocation} (hi : i ∈ starts h') :
    i ∈ starts h ∨ P i := by
  obtain ⟨w, hw⟩ := mem_starts.1 hi
  exact (ha.mem hw).imp_left fun hw => mem_starts.2 ⟨w, hw⟩

namespace Action

/-- All calls that the action may make are of a kind. -/
def Asks (P : Call → Prop) : Action α → Prop
  | .done _ => True
  | .call c next => P c ∧ ∀ r, (next r).Asks P
  | .now next => ∀ t, (next t).Asks P
  | .sleep _ next => next.Asks P
  | .warn _ next => next.Asks P
  | .spawn _ _ next => next.Asks P
  | .join next => ∀ os, (next os).Asks P
  | .overflow => True

variable {P Q : Call → Prop}

theorem Asks.mono {a : Action α} (hPQ : ∀ c, P c → Q c) (ha : a.Asks P) : a.Asks Q := by
  induction a with
  | done | overflow => trivial
  | call c next ih => exact ⟨hPQ c ha.1, fun r => ih r (ha.2 r)⟩
  | now next ih => exact fun t => ih t (ha t)
  | join next ih => exact fun os => ih os (ha os)
  | sleep _ _ ih | warn _ _ ih | spawn _ _ _ ih => exact ih ha

theorem Asks.bind {a : Action α} {f : α → Action β} (ha : a.Asks P) (hf : ∀ r, (f r).Asks P) :
    (a.bind f).Asks P := by
  induction a with
  | done r => exact hf r
  | overflow => trivial
  | call c next ih => exact ⟨ha.1, fun r => ih r (ha.2 r)⟩
  | now next ih => exact fun t => ih t (ha t)
  | join next ih => exact fun os => ih os (ha os)
  | sleep _ _ ih | warn _ _ ih | spawn _ _ _ ih => exact ih ha

theorem asks_ask {c : Call} (hc : P c) : (ask c).Asks P := ⟨hc, fun _ => trivial⟩

theorem asks_withRetry {config : TrackerConfig} {op : Action (Except StoreError α)}
    (hop : op.Asks P) : (withRetry config op).Asks P :=
  withRetry_of (fun _ => trivial) trivial (fun _ _ ha => ha) fun _ hnext => hop.bind hnext

/-- All steps that the action may start are of a kind. -/
def Starts (P : Invocation → Prop) (a : Action α) : Prop :=
  ∀ h₀ h, Adds (Event.Starts P) h₀ h →
    a.Ensures (Adds (Event.Starts P) h₀) (fun _ => True) (fun _ _ => True) h

section

variable {P : Invocation → Prop}

theorem starts_done (a : α) : (done a).Starts P := fun _ _ hk => ⟨hk, trivial⟩

theorem starts_ask (c : Call) : (ask c).Starts P :=
  fun _ _ hk => ⟨hk, fun _ => ⟨hk.trans (.one trivial), trivial⟩⟩

theorem starts_clock : clock.Starts P :=
  fun _ _ hk => ⟨hk, fun _ => ⟨hk.trans (.one trivial), trivial⟩⟩

theorem starts_note (e : TransitionError) : (note e).Starts P :=
  fun _ _ hk => ⟨hk, hk.trans (.one trivial), trivial⟩

theorem starts_start {i : Invocation} (hi : P i) (w : Work) : (start i w).Starts P :=
  fun _ _ hk => ⟨hk, hk.trans (.one hi), trivial⟩

theorem starts_outcomes : outcomes.Starts P :=
  fun _ _ hk => ⟨hk, fun _ _ => ⟨hk.trans (.one trivial), trivial⟩⟩

theorem Starts.bind {a : Action α} {f : α → Action β} (ha : a.Starts P)
    (hf : ∀ r, (f r).Starts P) : (a.bind f).Starts P :=
  fun h₀ h hk => (ha h₀ h hk).bind fun r h' _ hk' _ => hf r h₀ h' hk'

theorem starts_withRetry (config : TrackerConfig) {op : Action (Except StoreError α)}
    (hop : op.Starts P) : (withRetry config op).Starts P :=
  withRetry_of starts_done (fun _ _ hk => ⟨hk, trivial⟩)
    (fun _ _ ha h₀ _ hk => ⟨hk, ha h₀ _ (hk.trans (.one trivial))⟩) fun _ hnext => hop.bind hnext

theorem Path.adds_starts {a b : Action α} {h h' : List Event} (p : Path h a h' b) (ha : a.Starts P) :
    Adds (Event.Starts P) h h' :=
  (p.ensures (ha h h (.refl _ _))).here

end

variable {a b : Action α} {h h' : List Event}

/-- Along a path an action makes only calls that it may make. -/
theorem Path.adds (p : Path h a h' b) (ha : a.Asks P) : Adds (Event.Asks P) h h' ∧ b.Asks P := by
  induction p with
  | refl => exact ⟨.refl _ _, ha⟩
  | call r _ ih =>
    obtain ⟨hadds, hb⟩ := ih (ha.2 r)
    exact ⟨(Adds.one ha.1).trans hadds, hb⟩
  | now t _ ih =>
    obtain ⟨hadds, hb⟩ := ih (ha t)
    exact ⟨(Adds.one trivial).trans hadds, hb⟩
  | join os _ _ ih =>
    obtain ⟨hadds, hb⟩ := ih (ha os)
    exact ⟨(Adds.one trivial).trans hadds, hb⟩
  | sleep _ ih | warn _ ih | spawn _ ih =>
    obtain ⟨hadds, hb⟩ := ih ha
    exact ⟨(Adds.one trivial).trans hadds, hb⟩

/-- The last call of a path is one that the action may make. -/
theorem Path.last {c : Call} {r : c.Reply} (p : Path [] a (h ++ [Event.called c r]) b)
    (ha : a.Asks P) :
    P c := by
  rcases (p.adds ha).1.grows_or_last with hnil | ⟨-, hlast⟩
  · simp at hnil
  · exact hlast

/-- A path of one action after another lies in the first one or goes through its result. -/
theorem Path.of_bind {a : Action α} {f : α → Action β} {b : Action β}
    (p : Path h (a.bind f) h' b) :
    (∃ rest, Path h a h' rest) ∨ ∃ r mid, Path h a mid (.done r) ∧ Path mid (f r) h' b := by
  induction a generalizing h with
  | done r => exact Or.inr ⟨r, h, .refl, p⟩
  | overflow =>
    cases p with
    | refl => exact Or.inl ⟨_, .refl⟩
  | call c next ih =>
    cases p with
    | refl => exact Or.inl ⟨_, .refl⟩
    | call r p =>
      exact (ih r p).imp (fun ⟨_, p⟩ => ⟨_, .call r p⟩) fun ⟨_, _, p, q⟩ => ⟨_, _, .call r p, q⟩
  | now next ih =>
    cases p with
    | refl => exact Or.inl ⟨_, .refl⟩
    | now t p =>
      exact (ih t p).imp (fun ⟨_, p⟩ => ⟨_, .now t p⟩) fun ⟨_, _, p, q⟩ => ⟨_, _, .now t p, q⟩
  | sleep d next ih =>
    cases p with
    | refl => exact Or.inl ⟨_, .refl⟩
    | sleep p =>
      exact (ih p).imp (fun ⟨_, p⟩ => ⟨_, .sleep p⟩) fun ⟨_, _, p, q⟩ => ⟨_, _, .sleep p, q⟩
  | warn e next ih =>
    cases p with
    | refl => exact Or.inl ⟨_, .refl⟩
    | warn p =>
      exact (ih p).imp (fun ⟨_, p⟩ => ⟨_, .warn p⟩) fun ⟨_, _, p, q⟩ => ⟨_, _, .warn p, q⟩
  | spawn i w next ih =>
    cases p with
    | refl => exact Or.inl ⟨_, .refl⟩
    | spawn p =>
      exact (ih p).imp (fun ⟨_, p⟩ => ⟨_, .spawn p⟩) fun ⟨_, _, p, q⟩ => ⟨_, _, .spawn p, q⟩
  | join next ih =>
    cases p with
    | refl => exact Or.inl ⟨_, .refl⟩
    | join os ho p =>
      exact (ih os p).imp (fun ⟨_, p⟩ => ⟨_, .join os ho p⟩)
        fun ⟨_, _, p, q⟩ => ⟨_, _, .join os ho p, q⟩

/-- What lies before a path does not matter to it if it tells of no steps. -/
theorem Path.of_append {before : List Event} (hbefore : tally before = tally [])
    (p : Path (before ++ h) a h' b) : ∃ k, h' = before ++ k ∧ Path h a k b := by
  generalize hg : before ++ h = g at p
  induction p generalizing h with
  | refl => exact ⟨h, hg.symm, .refl⟩
  | call r _ ih =>
    obtain ⟨k, rfl, q⟩ := ih (h := h ++ [Event.called _ r]) (by rw [← hg, List.append_assoc])
    exact ⟨k, rfl, .call r q⟩
  | now t _ ih =>
    obtain ⟨k, rfl, q⟩ := ih (h := h ++ [Event.told t]) (by rw [← hg, List.append_assoc])
    exact ⟨k, rfl, .now t q⟩
  | @sleep _ d _ _ _ _ ih =>
    obtain ⟨k, rfl, q⟩ := ih (h := h ++ [Event.slept d]) (by rw [← hg, List.append_assoc])
    exact ⟨k, rfl, .sleep q⟩
  | @warn _ e _ _ _ _ ih =>
    obtain ⟨k, rfl, q⟩ := ih (h := h ++ [Event.warned e]) (by rw [← hg, List.append_assoc])
    exact ⟨k, rfl, .warn q⟩
  | @spawn _ i w _ _ _ _ ih =>
    obtain ⟨k, rfl, q⟩ := ih (h := h ++ [Event.started i w]) (by rw [← hg, List.append_assoc])
    exact ⟨k, rfl, .spawn q⟩
  | join os ho _ ih =>
    obtain ⟨k, rfl, q⟩ := ih (h := h ++ [Event.joined os]) (by rw [← hg, List.append_assoc])
    have htally : tally (before ++ h) = tally h := by rw [tally_append, hbefore]; rfl
    refine ⟨k, rfl, .join os ?_ q⟩
    rw [Outcomes, ← htally, hg]
    exact ho

theorem Path.grows {a b : Action α} {h h' : List Event} (p : Path h a h' b) : h <+: h' := by
  induction p with
  | refl => exact List.prefix_refl _
  | call _ _ ih | now _ _ ih | sleep _ ih | warn _ ih | spawn _ ih | join _ _ _ ih =>
    exact (List.prefix_append _ _).trans ih

/-- Where a path comes by, the action can come. -/
theorem Path.before {a b : Action α} {h₀ h h' : List Event} (p : Path h₀ a h' b) (h₁ : h₀ <+: h)
    (h₂ : h <+: h') : ∃ rest, Path h₀ a h rest := by
  have hstep : ∀ {a a' : Action α} {h₀ : List Event} {e : Event}, h₀ <+: h → h₀ ++ [e] <+: h' →
      (∀ rest, Path (h₀ ++ [e]) a' h rest → Path h₀ a h rest) →
      (h₀ ++ [e] <+: h → ∃ rest, Path (h₀ ++ [e]) a' h rest) → ∃ rest, Path h₀ a h rest := by
    intro a a' h₀ e h₁ he hcons ih
    rcases Nat.eq_or_lt_of_le h₁.length_le with hlen | hlen
    · exact h₁.eq_of_length hlen ▸ ⟨a, .refl⟩
    · obtain ⟨rest, q⟩ := ih (List.prefix_of_prefix_length_le he h₂ (by rwa [List.length_append]))
      exact ⟨rest, hcons rest q⟩
  induction p with
  | refl => exact h₁.eq_of_length (Nat.le_antisymm h₁.length_le h₂.length_le) ▸ ⟨_, .refl⟩
  | call r q ih => exact hstep h₁ q.grows (fun _ => .call r) fun h₁ => ih h₁ h₂ hstep
  | now t q ih => exact hstep h₁ q.grows (fun _ => .now t) fun h₁ => ih h₁ h₂ hstep
  | sleep q ih => exact hstep h₁ q.grows (fun _ => .sleep) fun h₁ => ih h₁ h₂ hstep
  | warn q ih => exact hstep h₁ q.grows (fun _ => .warn) fun h₁ => ih h₁ h₂ hstep
  | spawn q ih => exact hstep h₁ q.grows (fun _ => .spawn) fun h₁ => ih h₁ h₂ hstep
  | join os ho q ih => exact hstep h₁ q.grows (fun _ => .join os ho) fun h₁ => ih h₁ h₂ hstep

end Action

end Flowgraph
