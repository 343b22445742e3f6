import Flowgraph.Redaction.Scan

/-! How a rule splits a text, as a relation that follows the text chunk by chunk. Every chunk is
judged with the rest of the text still in front of it, since a rule looks ahead. -/

namespace Flowgraph.Redaction

/-- Whether a word is going on after a text, given whether one was before it. -/
def endsInWord (inWord : Bool) (cs : List Char) : Bool := cs.foldl (fun _ c => Text.isWord c) inWord

@[simp] theorem endsInWord_nil (w : Bool) : endsInWord w [] = w := rfl

@[simp] theorem endsInWord_cons (w : Bool) (c : Char) (cs : List Char) :
    endsInWord w (c :: cs) = endsInWord (Text.isWord c) cs := rfl

@[simp] theorem endsInWord_append (w : Bool) (xs ys : List Char) :
    endsInWord w (xs ++ ys) = endsInWord (endsInWord w xs) ys := by
  simp [endsInWord]

theorem endsInWord_of_forall {cs : List Char} (ne : cs ≠ [])
    (all : ∀ c ∈ cs, Text.isWord c = true) (w : Bool) : endsInWord w cs = true := by
  obtain ⟨xs, x, rfl⟩ := List.eq_nil_or_concat cs |>.resolve_left ne
  simpa using all x (by simp)

/-- A hit is a start of the text it was found in, and not empty. -/
def Rule.Sound (rule : Rule) : Prop :=
  ∀ ⦃cs : List Char⦄ ⦃h : Hit⦄, rule cs = some h → h.matched ≠ [] ∧ h.matched <+: cs

section Chunks

variable {l l' : List Chunk}

def sources (l : List Chunk) : List Char := l.flatMap Chunk.source

def showns (l : List Chunk) : List Char := l.flatMap Chunk.shown

@[simp] theorem sources_nil : sources [] = [] := rfl

@[simp] theorem sources_plain (c : Char) : sources (.plain c :: l) = c :: sources l := rfl

@[simp] theorem sources_hit (h : Hit) : sources (.hit h :: l) = h.matched ++ sources l := rfl

@[simp] theorem sources_append : sources (l ++ l') = sources l ++ sources l' := by simp [sources]

@[simp] theorem showns_nil : showns [] = [] := rfl

@[simp] theorem showns_plain (c : Char) : showns (.plain c :: l) = c :: showns l := rfl

@[simp] theorem showns_hit (h : Hit) : showns (.hit h :: l) = h.shown ++ showns l := rfl

@[simp] theorem showns_append : showns (l ++ l') = showns l ++ showns l' := by simp [showns]

theorem mask_eq (rule : Rule) (cs : List Char) : mask rule cs = showns (chunks rule cs) := rfl

@[simp] theorem sources_map_plain (cs : List Char) : sources (cs.map .plain) = cs := by
  induction cs with
  | nil => rfl
  | cons c cs ih => simp [ih]

@[simp] theorem showns_map_plain (cs : List Char) : showns (cs.map .plain) = cs := by
  induction cs with
  | nil => rfl
  | cons c cs ih => simp [ih]

theorem mem_sources {h : Hit} {c : Char} (hh : .hit h ∈ l) (hc : c ∈ h.matched) : c ∈ sources l :=
  List.mem_flatMap.2 ⟨.hit h, hh, hc⟩

/-- Where nothing is found nothing changes. -/
theorem showns_of_no_hit (none : ∀ h, .hit h ∉ l) : showns l = sources l := by
  induction l with
  | nil => rfl
  | cons chunk l ih =>
    have rest := ih fun h hh => none h (.tail _ hh)
    cases chunk with
    | plain c => simp [rest]
    | hit h => exact absurd (.head _) (none h)

/-- Every hit was found by the rule, at some place. -/
def FoundBy (rule : Rule) (l : List Chunk) : Prop :=
  ∀ h, .hit h ∈ l → ∃ rest, rule (h.matched ++ rest) = some h

theorem FoundBy.subset {rule : Rule} (found : FoundBy rule l) (sub : l' ⊆ l) : FoundBy rule l' :=
  fun h hh => found h (sub hh)

end Chunks

/-- The chunks of a text, given whether a word is going on before it. -/
inductive Splits (rule : Rule) : Bool → List Char → List Chunk → Prop
  | nil {w} : Splits rule w [] []
  | plain {w c cs l} (free : w = false → rule (c :: cs) = none)
      (rest : Splits rule (Text.isWord c) cs l) : Splits rule w (c :: cs) (.plain c :: l)
  | hit {h cs l} (found : rule (h.matched ++ cs) = some h)
      (rest : Splits rule (endsInWord false h.matched) cs l) :
      Splits rule false (h.matched ++ cs) (.hit h :: l)

/-- Skipping drops the characters skipped. -/
theorem scan_skip (rule : Rule) (w : Bool) (xs cs : List Char) :
    scan rule xs.length w (xs ++ cs) = scan rule 0 (endsInWord w xs) cs := by
  induction xs generalizing w with
  | nil => rfl
  | cons x xs ih => simpa [scan] using ih (Text.isWord x)

theorem splits_scan {rule : Rule} (sound : rule.Sound) (w : Bool) (cs : List Char) :
    Splits rule w cs (scan rule 0 w cs) := by
  induction hn : cs.length using Nat.strongRecOn generalizing w cs with
  | _ n ih =>
    cases cs with
    | nil => simpa [scan] using .nil
    | cons c cs =>
      have next : Splits rule (Text.isWord c) cs (scan rule 0 (Text.isWord c) cs) :=
        ih cs.length (by simp at hn; omega) _ _ rfl
      rw [scan]
      cases w with
      | true => exact .plain (by simp) next
      | false =>
        cases hrule : rule (c :: cs) with
        | none => simpa [hrule] using .plain (fun _ => hrule) next
        | some h =>
          obtain ⟨hne, rest, hrest⟩ := sound hrule
          obtain ⟨x, xs, hxs⟩ := List.exists_cons_of_ne_nil hne
          obtain ⟨rfl, rfl⟩ : x = c ∧ xs ++ rest = cs := by simpa [hxs] using hrest
          have tail : Splits rule (endsInWord false h.matched) rest
              (scan rule 0 (endsInWord false h.matched) rest) :=
            ih rest.length (by simp at hn; omega) _ _ rfl
          have skip : scan rule (h.matched.length - 1) (Text.isWord x) (xs ++ rest) =
              scan rule 0 (endsInWord false h.matched) rest := by
            simpa [hxs] using scan_skip rule (Text.isWord x) xs rest
          simp only [Bool.false_eq_true, if_false, skip]
          rw [← hrest]
          exact .hit (by rwa [hrest]) tail

theorem splits_chunks {rule : Rule} (sound : rule.Sound) (cs : List Char) :
    Splits rule false cs (chunks rule cs) :=
  splits_scan sound false cs

/-- A hit that begins in a text and ends in the text after it. -/
structure Crossing (rule : Rule) (xs ys : List Char) where
  skipped : List Char
  first : List Char
  second : List Char
  rest : List Char
  hit : Hit
  xs_eq : xs = skipped ++ first
  ys_eq : ys = second ++ rest
  matched_eq : hit.matched = first ++ second
  first_ne : first ≠ []
  second_ne : second ≠ []
  found : rule (hit.matched ++ rest) = some hit

def Crossing.prepend {rule : Rule} {xs ys : List Char} (before : List Char)
    (k : Crossing rule xs ys) : Crossing rule (before ++ xs) ys :=
  { k with skipped := before ++ k.skipped, xs_eq := by simp [← k.xs_eq] }

namespace Splits

variable {rule : Rule} {w : Bool} {cs xs ys : List Char} {l : List Chunk}

theorem sources_eq (split : Splits rule w cs l) : sources l = cs := by
  induction split with
  | nil => rfl
  | plain _ _ ih => simp [ih]
  | hit _ _ ih => simp [ih]

theorem foundBy (split : Splits rule w cs l) : FoundBy rule l := by
  intro h hmem
  induction split with
  | nil => simp at hmem
  | plain _ _ ih => exact ih (by simpa using hmem)
  | @hit h' rest _ found _ ih =>
    rcases List.mem_cons.1 hmem with heq | hmem
    · obtain rfl : h = h' := by simpa using heq
      exact ⟨rest, found⟩
    · exact ih hmem

/-- Where a hit stands, the rule found it, and no word was going on before it. -/
theorem at_hit {l₁ l₂ : List Chunk} {h : Hit} (split : Splits rule w cs (l₁ ++ .hit h :: l₂)) :
    rule (h.matched ++ sources l₂) = some h ∧ endsInWord w (sources l₁) = false := by
  induction l₁ generalizing w cs with
  | nil =>
    cases split with
    | hit found rest => exact ⟨by rwa [rest.sources_eq], rfl⟩
  | cons chunk l₁ ih =>
    cases split with
    | plain _ rest => exact ih rest
    | hit _ rest => simpa using ih rest

theorem of_found {h : Hit} (split : Splits rule false cs l) (sound : rule.Sound)
    (found : rule cs = some h) :
    ∃ rest l', cs = h.matched ++ rest ∧ l = .hit h :: l' ∧
      Splits rule (endsInWord false h.matched) rest l' := by
  cases split with
  | nil => simpa using sound found
  | plain free _ => simp [free rfl] at found
  | @hit h' cs l found' rest =>
    obtain rfl : h' = h := by simpa [found'] using found
    exact ⟨cs, l, rfl, rfl, rest⟩

/-- A text in two parts: the chunks part there too, or a hit reaches from one into the other. -/
theorem of_append (split : Splits rule w (xs ++ ys) l) :
    (∃ before after, l = before ++ after ∧ sources before = xs ∧
      Splits rule (endsInWord w xs) ys after) ∨
    ∃ (x : Crossing rule xs ys) (before after : _), l = before ++ .hit x.hit :: after ∧
      sources before = x.skipped ∧ Splits rule (endsInWord false x.hit.matched) x.rest after := by
  generalize htext : xs ++ ys = text at split
  induction split generalizing xs with
  | nil =>
    obtain ⟨rfl, rfl⟩ := List.append_eq_nil_iff.1 htext
    exact .inl ⟨[], [], rfl, rfl, .nil⟩
  | @plain w c cs l free rest ih =>
    cases xs with
    | nil =>
      subst htext
      exact .inl ⟨[], _, rfl, rfl, .plain free rest⟩
    | cons x xs =>
      obtain ⟨rfl, htail⟩ : x = c ∧ xs ++ ys = cs := by simpa using htext
      rcases ih htail with ⟨before, after, rfl, hsrc, hafter⟩ | ⟨k, before, after, rfl, hsrc, hafter⟩
      · exact .inl ⟨.plain x :: before, after, rfl, by simp [hsrc], hafter⟩
      · exact .inr ⟨k.prepend [x], .plain x :: before, after, rfl, by simp [hsrc, Crossing.prepend], hafter⟩
  | @hit h cs l found rest ih =>
    cases xs with
    | nil =>
      subst htext
      exact .inl ⟨[], _, rfl, rfl, .hit found rest⟩
    | cons x xs =>
      rcases List.append_eq_append_iff.1 htext with ⟨second, hm, hys⟩ | ⟨xs', hxs, htail⟩
      · by_cases hsecond : second = []
        -- the hit ends where the first part ends
        · subst hsecond
          simp only [List.append_nil] at hm
          obtain rfl : ys = cs := by simpa using hys
          exact .inl ⟨[.hit h], l, rfl, by simpa using hm, by simpa [hm] using rest⟩
        · exact .inr ⟨⟨[], x :: xs, second, cs, h, rfl, hys, hm, by simp, hsecond, found⟩,
            [], l, rfl, rfl, rest⟩
      · rw [hxs]
        rcases ih htail.symm with ⟨before, after, rfl, hsrc, hafter⟩ |
          ⟨k, before, after, rfl, hsrc, hafter⟩
        · exact .inl ⟨.hit h :: before, after, rfl, by simp [hsrc], by simpa using hafter⟩
        · exact .inr ⟨k.prepend h.matched, .hit h :: before, after, rfl,
            by simp [hsrc, Crossing.prepend], hafter⟩

end Splits

end Flowgraph.Redaction
