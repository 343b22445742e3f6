import Flowgraph.Proofs.Redaction.Rules

/-! What holds of a text wherever no word is going on, and how masking carries it over to the text
shown. Masking moves such places only behind a hit that ends in a word. -/

namespace Flowgraph.Redaction

variable {P Q : List Char → Prop} {rule : Rule} {w : Bool} {cs cs' : List Char} {l : List Chunk}

/-- A property of the rest of a text, wherever no word is going on. -/
def AtStarts (P : List Char → Prop) : (inWord : Bool) → List Char → Prop
  | _, [] => True
  | w, c :: cs => (w = false → P (c :: cs)) ∧ AtStarts P (Text.isWord c) cs

theorem AtStarts.of_append {xs ys : List Char} (h : AtStarts P w (xs ++ ys)) :
    AtStarts P (endsInWord w xs) ys := by
  induction xs generalizing w with
  | nil => exact h
  | cons x xs ih => exact ih h.2

theorem atStarts_true : AtStarts (fun _ => True) w cs := by
  induction cs generalizing w with
  | nil => trivial
  | cons c cs ih => exact ⟨fun _ => trivial, ih⟩

theorem AtStarts.imp (h : AtStarts P w cs) (le : ∀ cs, P cs → Q cs) : AtStarts Q w cs := by
  induction cs generalizing w with
  | nil => trivial
  | cons c cs ih => exact ⟨fun hw => le _ (h.1 hw), ih h.2⟩

theorem AtStarts.head (h : AtStarts P false cs) (ne : cs ≠ []) : P cs := by
  cases cs with
  | nil => exact absurd rfl ne
  | cons c cs => exact h.1 rfl

theorem AtStarts.start (h : AtStarts P w cs) (start : P cs) : AtStarts P false cs := by
  cases cs with
  | nil => trivial
  | cons c cs => exact ⟨fun _ => start, h.2⟩

theorem atStarts_of_word {xs ys : List Char} (all : ∀ c ∈ xs, Text.isWord c = true)
    (h : AtStarts P true ys) : AtStarts P true (xs ++ ys) := by
  induction xs with
  | nil => exact h
  | cons x xs ih =>
    rw [List.forall_mem_cons] at all
    refine ⟨by simp, ?_⟩
    rw [all.1]
    exact ih all.2

theorem redacted_eq : redacted = '[' :: 'R' :: ("EDACTED".toList ++ [']']) := by decide

theorem atStarts_redacted (signs : P (redacted ++ cs)) (word : P (redacted.tail ++ cs))
    (h : AtStarts P false cs) : AtStarts P false (redacted ++ cs) := by
  have letters : ∀ c ∈ "EDACTED".toList, Text.isWord c = true := List.all_eq_true.1 (by decide)
  rw [redacted_eq] at signs word ⊢
  refine ⟨fun _ => signs, fun _ => word, ?_⟩
  rw [List.append_eq, List.append_assoc]
  exact atStarts_of_word letters ⟨nofun, h⟩

/-- The form in which a hit is shown: signs, or a word, a sign between and the signs. -/
def Shows (shown : List Char) : Prop :=
  shown = redacted ∨ ∃ c word sep, (∀ x ∈ c :: word, Text.isWord x = true) ∧
    Text.isWord sep = false ∧ shown = c :: word ++ sep :: redacted

theorem Shows.atStarts {shown : List Char} (shows : Shows shown) (start : P (shown ++ cs))
    (signs : P (redacted ++ cs)) (word : P (redacted.tail ++ cs)) (h : AtStarts P false cs) :
    AtStarts P false (shown ++ cs) := by
  have hsigns := atStarts_redacted signs word h
  obtain rfl | ⟨c, word, sep, all, hsep, rfl⟩ := shows
  · exact hsigns
  · rw [List.forall_mem_cons] at all
    rw [List.append_assoc] at start ⊢
    refine ⟨fun _ => start, ?_⟩
    rw [all.1]
    exact atStarts_of_word all.2 ⟨nofun, by rwa [hsep]⟩

theorem Splits.showns_eq_self (split : Splits rule w cs l) (sound : rule.Sound)
    (h : AtStarts (fun cs => ∀ h, rule cs = some h → h.shown = h.matched) w cs) :
    cs = showns l := by
  induction split with
  | nil => rfl
  | plain _ _ ih => rw [showns_plain, ← ih h.2]
  | @hit k cs l found _ ih =>
    have hne : k.matched ++ cs ≠ [] := by simp [(sound found).1]
    rw [showns_hit, h.head hne k found, ← ih h.of_append]

/-- Where the rule finds only what it would show, masking changes nothing. -/
theorem mask_eq_self (sound : rule.Sound)
    (h : AtStarts (fun cs => ∀ h, rule cs = some h → h.shown = h.matched) false cs) :
    mask rule cs = cs := by
  have split := splits_chunks sound cs
  rw [mask_eq, ← split.showns_eq_self sound h]

theorem mask_of_free (sound : rule.Sound) (free : AtStarts (rule · = none) false cs) :
    mask rule cs = cs :=
  mask_eq_self sound (free.imp fun cs hcs h hh => by simp [hcs] at hh)

/-- A text and what is shown for it: the same, at least up to a first hit. -/
inductive Alike (rule : Rule) (w : Bool) : List Char → List Char → Prop
  | same {cs : List Char} : Alike rule w cs cs
  | hit (xs : List Char) {ys ys' : List Char} {h : Hit} (found : rule (h.matched ++ ys) = some h)
      (starts : endsInWord w xs = false) :
      Alike rule w (xs ++ (h.matched ++ ys)) (xs ++ (h.shown ++ ys'))

theorem Alike.cons {c : Char} (h : Alike rule (Text.isWord c) cs cs') :
    Alike rule w (c :: cs) (c :: cs') := by
  cases h with
  | same => exact .same
  | @hit xs h ys ys' found starts => exact .hit (c :: xs) found starts

theorem Alike.head? (h : Alike rule true cs cs') : cs'.head? = cs.head? := by
  cases h with
  | same => rfl
  | @hit xs h ys ys' found starts => cases xs <;> simp at starts ⊢

theorem Alike.stops {p : Char → Bool} (h : Alike rule true cs cs') (stops : Stops p cs) :
    Stops p cs' := by
  rwa [Stops, h.head?]

theorem Splits.alike (split : Splits rule w cs l) : Alike rule w cs (showns l) := by
  induction split with
  | nil => exact .same
  | plain _ _ ih => exact ih.cons
  | hit found _ _ => exact .hit [] found rfl

/-- What the rests of a text are before, the rests of the text shown are after. -/
theorem Splits.atStarts_showns (split : Splits rule w cs l) (all : AtStarts P w cs)
    (sound : rule.Sound) (shows : ∀ cs h, rule cs = some h → Shows h.shown)
    (signs : ∀ cs, Q (redacted ++ cs) ∧ Q (redacted.tail ++ cs))
    (plain : ∀ cs cs', cs ≠ [] → Alike rule false cs cs' → rule cs = none → P cs → Q cs')
    (hit : ∀ h ys ys', rule (h.matched ++ ys) = some h →
      Alike rule (endsInWord false h.matched) ys ys' → P (h.matched ++ ys) → Q (h.shown ++ ys'))
    (after : ∀ l₁ h l₂, l = l₁ ++ .hit h :: l₂ → rule (h.matched ++ sources l₂) = some h →
      endsInWord false h.matched = true → Alike rule true (sources l₂) (showns l₂) →
      Q (showns l₂)) :
    AtStarts Q w (showns l) := by
  induction split with
  | nil => trivial
  | @plain w c cs l free rest ih =>
    refine ⟨?_, ih all.2 fun l₁ h l₂ hl => after (.plain c :: l₁) h l₂ (by rw [hl]; rfl)⟩
    rintro rfl
    exact plain (c :: cs) _ (by simp) rest.alike.cons (free rfl) (all.1 rfl)
  | @hit h cs l found rest ih =>
    have next := ih all.of_append fun l₁ h' l₂ hl => after (.hit h :: l₁) h' l₂ (by rw [hl]; rfl)
    refine (shows _ h found).atStarts ?_ (signs _).1 (signs _).2 ?_
    · exact hit h cs _ found rest.alike (all.head (by simp [(sound found).1]))
    · cases hends : endsInWord false h.matched with
      | false => rwa [hends] at next
      | true =>
        refine next.start (after [] h l rfl (by rwa [rest.sources_eq]) hends ?_)
        rw [rest.sources_eq, ← hends]
        exact rest.alike

end Flowgraph.Redaction
