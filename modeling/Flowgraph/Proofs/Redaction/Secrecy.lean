import Flowgraph.Proofs.Redaction.Rules

/-! Where a pair's value goes when the three rules run one after the other. A header may reach into
the pair from the text before it or begin inside the value; only one that takes the equals sign
keeps the pair from being recognised. -/

namespace Flowgraph.Redaction

variable {cs xs ys : List Char} {l before after : List Chunk} {p : KeyValue}

/-- Whether a hit takes the character at a place. -/
def takes : List Chunk → (place : Nat) → Bool
  | [], _ => false
  | .plain _ :: _, 0 => false
  | .plain _ :: l, place + 1 => takes l place
  | .hit h :: l, place => place < h.matched.length || takes l (place - h.matched.length)

theorem takes_append (l₁ l₂ : List Chunk) (place : Nat) :
    takes (l₁ ++ l₂) ((sources l₁).length + place) = takes l₂ place := by
  induction l₁ with
  | nil => simp
  | cons chunk l₁ ih =>
    cases chunk with
    | plain c => simpa [takes, Nat.add_right_comm] using ih
    | hit h =>
      have hplace : ¬ h.matched.length + ((sources l₁).length + place) < h.matched.length := by omega
      simp [takes, Nat.add_assoc, hplace, ih]

theorem KeyValue.hit_injective : Function.Injective KeyValue.hit := by
  rintro ⟨key, value⟩ ⟨key', value'⟩ h
  simp only [KeyValue.hit, Hit.mk.injEq] at h
  obtain ⟨hmatched, hshown⟩ := h
  obtain rfl : key = key' := List.append_cancel_right hshown
  simpa using hmatched

/-- A place no hit takes stays as it is, and the text after it is judged on its own. -/
theorem Splits.at_untaken {rule : Rule} (sound : rule.Sound) {w : Bool} {c : Char}
    (split : Splits rule w (xs ++ c :: ys) l) (untaken : takes l xs.length = false) :
    ∃ l₁ l₂, l = l₁ ++ .plain c :: l₂ ∧ sources l₁ = xs ∧
      Splits rule (Text.isWord c) ys l₂ := by
  rcases split.of_append with ⟨l₁, l₂, rfl, rfl, rest⟩ | ⟨k, l₁, l₂, rfl, hsrc, -⟩
  · have htakes := takes_append l₁ l₂ 0
    rw [Nat.add_zero, untaken] at htakes
    generalize endsInWord w (sources l₁) = w' at rest
    generalize htext : c :: ys = text at rest
    cases rest with
    | nil => cases htext
    | plain _ rest =>
      obtain ⟨rfl, rfl⟩ := List.cons.inj htext
      exact ⟨l₁, _, rfl, rfl, rest⟩
    | hit found _ => simp [takes, (sound found).1] at htakes
  · have htakes := takes_append l₁ (.hit k.hit :: l₂) k.first.length
    have hplace : (sources l₁).length + k.first.length = xs.length := by
      rw [hsrc, ← List.length_append, ← k.xs_eq]
    simp [hplace, untaken, takes, k.matched_eq, k.second_ne] at htakes

section Auth

/-- A header has blanks, so a text without them stays as it is. -/
theorem showns_of_value (found : FoundBy authRule l)
    (value : ∀ c ∈ sources l, isValueChar c = true) : showns l = sources l := by
  refine showns_of_no_hit fun h hh => ?_
  obtain ⟨rest, hrule⟩ := found h hh
  obtain ⟨a, _, rfl, -, stands⟩ := authRule_stands hrule
  obtain ⟨c, blanks, hblanks⟩ := List.exists_cons_of_ne_nil stands.blanks_ne
  have hc : isValueChar c = true := value c (mem_sources hh (by simp [AuthHeader.hit, hblanks]))
  have hb := stands.blanks c (by simp [hblanks])
  simp [isBlank_of_isValueChar hc] at hb

/-- What is shown for a header ends in a sign, so it ends no later word. -/
theorem endsInWord_showns (found : FoundBy authRule l)
    {w w' : Bool} (le : w' = true → w = true) (ends : endsInWord w (sources l) = false) :
    endsInWord w' (showns l) = false := by
  induction l generalizing w w' with
  | nil => cases w' <;> simp_all
  | cons chunk l ih =>
    have rest : FoundBy authRule l := found.subset (List.subset_cons_self _ _)
    cases chunk with
    | plain c => exact ih rest id (by simpa using ends)
    | hit h =>
      obtain ⟨_, hrule⟩ := found h (.head _)
      obtain ⟨a, _, rfl, -, -⟩ := authRule_stands hrule
      rw [sources_hit, endsInWord_append] at ends
      rw [showns_hit, endsInWord_append]
      exact ih rest (by simp [AuthHeader.hit]) ends

/-- A header that ends within a key would have gone on through it and the equals sign. -/
theorem not_stands_in_key {a : AuthHeader} {first second rest tail key : List Char}
    (isKey : IsKey key) (hkey : key = second ++ rest) (ne : second ≠ [])
    (matched : a.hit.matched = first ++ second) : ¬ a.Stands (rest ++ '=' :: tail) := by
  intro stands
  have hpad : a.padding = [] := by
    by_contra hne
    have hlast : a.hit.matched.getLast? = some '=' := by
      obtain ⟨xs, x, hx⟩ := List.eq_nil_or_concat a.padding |>.resolve_left hne
      simp [AuthHeader.hit, hx, stands.padding x (by simp [hx])]
    rw [matched, List.getLast?_append_of_ne_nil _ ne] at hlast
    exact isKey.not_mem (by simp [hkey, List.mem_of_getLast? hlast])
  cases rest with
  | nil => simpa using stands.ends
  | cons c rest =>
    have := stands.stops
    simp [hpad, isKey.isAuthChar (c := c) (by simp [hkey])] at this

/-- Up to the value of a pair: the text before it is judged on its own, the key stays. -/
theorem auth_before_value {key tail : List Char} (isKey : IsKey key)
    (split : Splits authRule false (cs ++ (key ++ '=' :: tail)) l)
    (untaken : takes l (cs ++ key).length = false) :
    ∃ l₁ l₂, l = l₁ ++ l₂ ∧ sources l₁ = cs ∧ ∃ l₃, showns l₂ = key ++ '=' :: showns l₃ ∧
      Splits authRule false tail l₃ := by
  rcases split.of_append with ⟨l₁, l₂, rfl, rfl, rest⟩ | ⟨k, l₁, l₂, rfl, hsrc, -⟩
  · refine ⟨l₁, l₂, rfl, rfl, ?_⟩
    rw [List.length_append, takes_append] at untaken
    obtain ⟨m, l₃, rfl, rfl, hl₃⟩ := rest.at_untaken authRule_sound untaken
    have hm : showns m = sources m := by
      refine showns_of_value (split.foundBy.subset ?_) fun c hc => isKey.isValueChar hc
      simp
    exact ⟨l₃, by simp [hm], hl₃⟩
  · obtain ⟨a, hhit, stands⟩ := authRule_stands_before k.found
    -- the hit ends before the equals sign, for it does not take it
    have hle : k.second.length ≤ key.length := by
      have hplace : (cs ++ key).length = (sources l₁).length + (k.first ++ key).length := by
        rw [hsrc, ← List.length_append, ← List.append_assoc, ← k.xs_eq]
      rw [hplace, takes_append] at untaken
      simp [takes, k.matched_eq] at untaken
      omega
    obtain ⟨key₂, hkey, hrest⟩ : ∃ key₂, key = k.second ++ key₂ ∧ k.rest = key₂ ++ '=' :: tail := by
      rcases List.append_eq_append_iff.1 k.ys_eq with ⟨us, hus, hrest⟩ | ⟨us, hus, hrest⟩
      · have : us = [] := by
          have := congrArg List.length hus
          simp at this
          exact List.length_eq_zero_iff.1 (by omega)
        subst this
        exact ⟨[], by simpa using hus.symm, by simpa using hrest.symm⟩
      · exact ⟨us, hus, hrest⟩
    rw [hrest] at stands
    exact absurd stands (not_stands_in_key isKey hkey k.second_ne (hhit ▸ k.matched_eq))

/-- Within the value of a pair: a header can only begin with the scheme the value ends in, and
its scheme is shown. -/
theorem auth_in_value {value tail : List Char} (all : ∀ c ∈ value, isValueChar c = true)
    (stops : Stops isValueChar tail) (split : Splits authRule false (value ++ tail) l) :
    ∃ tail', showns l = value ++ tail' ∧ Stops isValueChar tail' ∧
      ∀ c ∈ tail', c ∈ tail ∨ c ∈ marks := by
  rcases split.of_append with ⟨l₁, l₂, rfl, rfl, rest⟩ | ⟨k, l₁, l₂, rfl, hsrc, rest⟩
  · have hl₁ : showns l₁ = sources l₁ :=
      showns_of_value (split.foundBy.subset (by simp)) all
    refine ⟨showns l₂, by simp [hl₁], ?_, fun c => rest.mem_showns authRule_marks⟩
    generalize endsInWord false (sources l₁) = w at rest
    cases rest with
    | nil => simp
    | plain _ _ => simpa using stops
    | hit found _ =>
      obtain ⟨a, _, rfl, -, stands⟩ := authRule_stands found
      obtain ⟨c, scheme, hscheme, -⟩ := stands.scheme.head
      have := stands.scheme.isValueChar (c := c) (by simp [hscheme])
      simp [AuthHeader.hit, hscheme, this] at stops
  · obtain ⟨a, _, hhit, -, stands⟩ := authRule_stands k.found
    have hl₁ : showns l₁ = k.skipped := by
      rw [← hsrc]
      refine showns_of_value (split.foundBy.subset (by simp)) fun c hc => ?_
      exact all c (by rw [k.xs_eq, ← hsrc]; simp [hc])
    have hfirst : k.first = a.scheme := by
      have hsecond : Stops isValueChar k.second := by
        rw [k.ys_eq] at stops
        exact stops.of_append k.second_ne
      have hmatched := k.matched_eq
      simp only [hhit, AuthHeader.hit, List.append_assoc] at hmatched
      obtain ⟨b, blanks, hblanks⟩ := List.exists_cons_of_ne_nil stands.blanks_ne
      have hb : isValueChar b = false :=
        Bool.eq_false_iff.2 fun h => by
          simpa [isBlank_of_isValueChar h] using stands.blanks b (by simp [hblanks])
      exact (eq_of_append_stops (fun c hc => stands.scheme.isValueChar hc)
        (by simpa [hblanks] using hb) (fun c hc => all c (by simp [k.xs_eq, hc])) hsecond
        hmatched).1.symm
    refine ⟨marks ++ showns l₂, ?_, by simp [marks, isValueChar]; rfl, fun c hc => ?_⟩
    · simp [hl₁, hhit, AuthHeader.hit, k.xs_eq, hfirst, marks]
    · rcases List.mem_append.1 hc with hc | hc
      · exact .inr hc
      · refine (rest.mem_showns authRule_marks hc).imp_left fun h => ?_
        rw [k.ys_eq]
        simp [h]

end Auth

section Pairs

/-- A pair that the text before leads into takes this one up to its end: its key and its equals sign
come before. -/
theorem value_reaches_end {tail : List Char} (stands : p.Stands tail)
    (ends : endsInWord false cs = false) (k : Crossing pairRule cs (p.hit.matched ++ tail)) :
    k.rest = tail ∧ ∃ (q : KeyValue) (value : List Char), k.hit = q.hit ∧
      k.first = q.key ++ '=' :: value := by
  obtain ⟨q, hhit, stands'⟩ := pairRule_stands_before k.found
  have hmatched : k.first ++ k.second = q.key ++ '=' :: q.value := by
    rw [← k.matched_eq, hhit, KeyValue.hit]
  have hys : k.second ++ k.rest = p.hit.matched ++ tail := k.ys_eq.symm
  have hsign : '=' ∈ k.first := by
    by_contra hnot
    -- then the other key goes on into this one, and a word across the beginning of the key
    have hkey : k.first ++ p.key = q.key := by
      have heq : (k.first ++ p.key) ++ '=' :: (p.value ++ tail) =
          q.key ++ '=' :: (q.value ++ k.rest) := by
        have := congrArg (· ++ k.rest) hmatched
        simpa [hys, KeyValue.hit] using this
      exact (eq_of_append_sep (by simp [hnot, stands.key.not_mem]) stands'.key.not_mem heq).1
    rw [k.xs_eq, endsInWord_append, endsInWord_of_forall k.first_ne] at ends
    · cases ends
    · exact fun c hc => stands'.key.isWord (by simp [← hkey, hc])
  obtain ⟨key, value, hfirst, hnot⟩ := List.eq_append_cons_of_mem hsign
  obtain ⟨rfl, hvalue⟩ : q.key = key ∧ q.value = value ++ k.second := by
    refine eq_of_append_sep stands'.key.not_mem hnot (hmatched.symm.trans ?_)
    simp [hfirst]
  have hrest : k.rest = tail :=
    (eq_of_append_stops (fun c hc => stands'.value c (by simp [hvalue, hc])) stands'.stops
      (fun _ hc => stands.matched hc) stands.stops hys).2
  exact ⟨hrest, q, value, hhit, hfirst⟩

/-- Whatever pair the text before leads into, the value of this one is not shown. -/
theorem pair_drops_value {tail : List Char} (stands : p.Stands tail)
    (ends : endsInWord false cs = false)
    (split : Splits pairRule false (cs ++ (p.hit.matched ++ tail)) l) {c : Char}
    (hc : c ∈ showns l) : c ∈ cs ∨ c ∈ p.key ∨ c = '=' ∨ c ∈ tail ∨ c ∈ marks := by
  have hmarks : c ∈ redacted → c ∈ marks := List.mem_cons_of_mem _
  rcases split.of_append with ⟨l₁, l₂, rfl, rfl, rest⟩ | ⟨k, l₁, l₂, rfl, hsrc, rest⟩
  · rw [ends] at rest
    obtain ⟨_, l₃, htail, rfl, hl₃⟩ := rest.of_found pairRule_sound
      (Option.map_eq_some_iff.2 ⟨p, keyValue?_eq_some.2 ⟨tail, rfl, stands⟩, rfl⟩)
    rw [← List.append_cancel_left htail] at hl₃
    simp only [showns_append, showns_hit, KeyValue.hit, List.mem_append, List.mem_cons] at hc
    rcases hc with hc | (hc | hc | hc) | hc
    · refine ((split.foundBy.subset (by simp)).mem_showns pairRule_marks hc).imp_right fun hc => ?_
      exact .inr (.inr (.inr hc))
    · exact .inr (.inl hc)
    · exact .inr (.inr (.inl hc))
    · exact .inr (.inr (.inr (.inr (hmarks hc))))
    · exact .inr (.inr (.inr (hl₃.mem_showns pairRule_marks hc)))
  · obtain ⟨htail, q, value, hhit, hfirst⟩ := value_reaches_end stands ends k
    rw [htail] at rest
    simp only [showns_append, showns_hit, hhit, KeyValue.hit, List.mem_append, List.mem_cons] at hc
    rcases hc with hc | (hc | hc | hc) | hc
    · rcases (split.foundBy.subset (by simp)).mem_showns pairRule_marks hc with hc | hc
      · refine .inl ?_
        rw [k.xs_eq, ← hsrc]
        exact List.mem_append_left _ hc
      · exact .inr (.inr (.inr (.inr hc)))
    · refine .inl ?_
      rw [k.xs_eq, hfirst]
      simp [hc]
    · exact .inr (.inr (.inl hc))
    · exact .inr (.inr (.inr (.inr (hmarks hc))))
    · exact .inr (.inr (.inr (rest.mem_showns pairRule_marks hc)))

end Pairs

/-- A pair where it was found: what it is made of, and that no word leads into it. -/
theorem stands_of_chunks (found : chunks pairRule cs = before ++ .hit p.hit :: after) :
    cs = sources before ++ (p.hit.matched ++ sources after) ∧ p.Stands (sources after) ∧
      endsInWord false (sources before) = false := by
  have split := splits_chunks pairRule_sound cs
  rw [found] at split
  obtain ⟨hrule, hends⟩ := split.at_hit
  obtain ⟨q, hq, stands⟩ := pairRule_stands_before hrule
  obtain rfl := KeyValue.hit_injective hq
  exact ⟨by simpa using split.sources_eq.symm, stands, hends⟩

/-- No character of a pair's value survives, unless an authorization header of the text takes the
pair's equals sign. -/
theorem redactText_hides {text : String} {c : Char}
    (found : chunks pairRule text.toList = before ++ .hit p.hit :: after)
    (untaken : takes (chunks authRule text.toList) (sources before ++ p.key).length = false)
    (elsewhere : c ∉ sources before ++ p.key ++ '=' :: sources after) (unmarked : c ∉ marks) :
    c ∉ (redactText text).toList := by
  obtain ⟨htext, stands, hends⟩ := stands_of_chunks found
  have headers := splits_chunks authRule_sound text.toList
  rw [htext] at headers untaken
  -- after the first rule the pair is still there, with new text around it
  obtain ⟨l₁, l₂, hl, hsrc, l₃, hl₂, rest⟩ :=
    auth_before_value stands.key (by simpa [KeyValue.hit] using headers) untaken
  obtain ⟨tail, hl₃, hstops, htail⟩ := auth_in_value stands.value stands.stops rest
  have hmask : mask authRule text.toList = showns l₁ ++ (p.hit.matched ++ tail) := by
    rw [mask_eq, htext, hl, showns_append, hl₂, hl₃]
    simp [KeyValue.hit]
  have hfound : FoundBy authRule l₁ := (hl ▸ headers.foundBy).subset (by simp)
  have hstart : endsInWord false (showns l₁) = false :=
    endsInWord_showns hfound id (by rwa [hsrc])
  have hsplit := splits_chunks pairRule_sound (showns l₁ ++ (p.hit.matched ++ tail))
  intro hc
  rw [redactText, String.toList_ofList, redactChars, hmask, mask_eq] at hc
  rcases (splits_chunks tokenRule_sound _).mem_showns tokenRule_marks hc with hc | hc
  · rw [mask_eq] at hc
    have hpair := pair_drops_value { stands with stops := hstops } hstart hsplit hc
    have hbefore : c ∈ showns l₁ → c ∈ sources before ∨ c ∈ marks := fun h => by
      simpa [hsrc] using hfound.mem_showns authRule_marks h
    simp only [List.mem_append, List.mem_cons, not_or] at elsewhere
    obtain ⟨⟨notBefore, notKey⟩, notSign, notAfter⟩ := elsewhere
    rcases hpair with hc | hc | hc | hc | hc
    · exact (hbefore hc).elim notBefore unmarked
    · exact notKey hc
    · exact notSign hc
    · exact (htail c hc).elim notAfter unmarked
    · exact unmarked hc
  · exact unmarked hc

/-- A header before the pair and a token after it do no harm. -/
theorem redactText_hides_between :
    'u' ∉ (redactText "Bearer abcdefgh1 password=hunter2 sk-abcdefgh12345678").toList := by
  have found : chunks pairRule "Bearer abcdefgh1 password=hunter2 sk-abcdefgh12345678".toList =
      "Bearer abcdefgh1 ".toList.map .plain ++
        Chunk.hit (KeyValue.hit ⟨"password".toList, "hunter2".toList⟩) ::
          " sk-abcdefgh12345678".toList.map .plain := by decide +kernel
  exact redactText_hides found (by decide +kernel) (by decide +kernel) (by decide +kernel)

/-- Key and equals sign pass for credentials, and the value stands alone. -/
theorem header_uncovers_value :
    ¬ ∀ (text : String) (p : KeyValue) (before after : List Chunk) (c : Char),
      chunks pairRule text.toList = before ++ .hit p.hit :: after →
      c ∉ sources before ++ p.key ++ '=' :: sources after → c ∉ marks →
      c ∉ (redactText text).toList := by
  intro hides
  exact hides "Bearer password=hunter2" ⟨"password".toList, "hunter2".toList⟩
    ("Bearer ".toList.map .plain) [] 'u' (by decide +kernel) (by decide +kernel)
    (by decide +kernel) (by decide +kernel)

end Flowgraph.Redaction
