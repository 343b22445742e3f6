import Mathlib.Data.List.Forall2
import Mathlib.Data.List.TakeWhile
import Flowgraph.Proofs.Redaction.Splits
import Flowgraph.Redaction.Rule

/-! The readers the rules are made of, said about the text: what stands at its start, and that
the text does not go on with more of it. -/

namespace Flowgraph.Redaction

/-- The text does not go on with such a character. -/
def Stops (p : Char → Bool) (cs : List Char) : Prop := ∀ c ∈ cs.head?, p c = false

section Runs

variable {p q : Char → Bool} {c : Char} {cs found rest : List Char}

@[simp] theorem stops_nil : Stops p [] := by simp [Stops]

@[simp] theorem stops_cons : Stops p (c :: cs) ↔ p c = false := by simp [Stops]

theorem Stops.of_append (h : Stops p (cs ++ rest)) (ne : cs ≠ []) : Stops p cs := by
  cases cs with
  | nil => exact absurd rfl ne
  | cons c cs => simpa using h

theorem Stops.mono (h : Stops p cs) (le : ∀ c, q c = true → p c = true) : Stops q cs := by
  cases cs with
  | nil => simp
  | cons c cs =>
    rw [stops_cons] at h ⊢
    exact Bool.eq_false_iff.2 fun hq => Bool.eq_false_iff.1 h (le c hq)

theorem stops_dropWhile : Stops p (cs.dropWhile p) := by
  intro c hc
  have h := List.head?_dropWhile_not p cs
  rwa [Option.mem_def.1 hc] at h

theorem Stops.takeWhile (stops : Stops p cs) : cs.takeWhile p = [] := by
  cases cs with
  | nil => rfl
  | cons c cs => simp [stops_cons.1 stops]

theorem Stops.dropWhile (stops : Stops p cs) : cs.dropWhile p = cs := by
  cases cs with
  | nil => rfl
  | cons c cs => simp [stops_cons.1 stops]

/-- Where a run ends is told by the text. -/
theorem eq_of_append_stops {xs ys us vs : List Char} (hx : ∀ c ∈ xs, p c = true) (hu : Stops p us)
    (hy : ∀ c ∈ ys, p c = true) (hv : Stops p vs) (h : xs ++ us = ys ++ vs) : xs = ys ∧ us = vs := by
  have htake := congrArg (List.takeWhile p) h
  rw [List.takeWhile_append_of_pos hx, List.takeWhile_append_of_pos hy, hu.takeWhile,
    hv.takeWhile, List.append_nil, List.append_nil] at htake
  subst htake
  exact ⟨rfl, List.append_cancel_left h⟩

theorem run?_eq_some {least : Nat} :
    run? p least cs = some (found, rest) ↔
      cs = found ++ rest ∧ least ≤ found.length ∧ (∀ c ∈ found, p c = true) ∧ Stops p rest := by
  constructor
  · intro h
    simp only [run?] at h
    split at h
    · next hlen =>
      obtain ⟨rfl, rfl⟩ : cs.takeWhile p = found ∧ cs.dropWhile p = rest := by simpa using h
      exact ⟨List.takeWhile_append_dropWhile.symm, hlen, fun c hc => List.mem_takeWhile_imp hc,
        stops_dropWhile⟩
    · cases h
  · rintro ⟨rfl, hlen, all, stops⟩
    simp [run?, List.takeWhile_append_of_pos all, List.dropWhile_append_of_pos all,
      stops.takeWhile, stops.dropWhile, hlen]

theorem run?_zero : run? p 0 cs = some (cs.takeWhile p, cs.dropWhile p) := by
  simp [run?]

/-- Enough characters of a run are enough for the run. -/
theorem run?_of_append {least : Nat} (len : least ≤ found.length)
    (all : ∀ c ∈ found, p c = true) (tail : List Char) :
    ∃ more rest, run? p least (found ++ tail) = some (found ++ more, rest) := by
  refine ⟨tail.takeWhile p, tail.dropWhile p, run?_eq_some.2 ⟨?_, ?_, ?_, stops_dropWhile⟩⟩
  · simp
  · simp; omega
  · intro c hc
    rcases List.mem_append.1 hc with hc | hc
    · exact all c hc
    · exact List.mem_takeWhile_imp hc

theorem literal?_eq_some {text : List Char} : literal? text cs = some rest ↔ cs = text ++ rest := by
  rw [literal?]
  constructor
  · intro h
    split at h
    · next hpre =>
      obtain ⟨tail, rfl⟩ := List.isPrefixOf_iff_prefix.1 hpre
      simpa [eq_comm] using h
    · cases h
  · rintro rfl
    simp

@[simp] theorem literal?_append (text rest : List Char) : literal? text (text ++ rest) = some rest :=
  literal?_eq_some.2 rfl

end Runs

section Words

/-- A word as it may be spelled. -/
def Spells (word found : List Char) : Prop :=
  List.Forall₂ (fun letter c => isForm letter c = true) word found

theorem spelling?_eq_some {word cs found rest : List Char} :
    spelling? word cs = some (found, rest) ↔ cs = found ++ rest ∧ Spells word found := by
  unfold Spells
  induction word generalizing cs found with
  | nil => grind [spelling?, List.forall₂_nil_left_iff]
  | cons letter word ih =>
    cases cs with
    | nil => simp [spelling?, List.forall₂_cons_left_iff]; grind
    | cons c cs =>
      rw [spelling?, List.forall₂_cons_left_iff]
      split
      · next hc =>
        constructor
        · intro h
          obtain ⟨⟨f, r⟩, hs, heq⟩ := Option.map_eq_some_iff.1 h
          obtain ⟨rfl, rfl⟩ : c :: f = found ∧ r = rest := by simpa using heq
          obtain ⟨rfl, hf⟩ := ih.1 hs
          exact ⟨rfl, c, f, hc, hf, rfl⟩
        · rintro ⟨htext, b, f, -, hf, rfl⟩
          obtain ⟨rfl, rfl⟩ : c = b ∧ cs = f ++ rest := by simpa using htext
          simp [ih.2 ⟨rfl, hf⟩]
      · grind

/-- The characters that can stand for a letter, and some that cannot. -/
def forms (letter : Char) : List Char := [letter, letter.toUpper, '\u017f', '\u212a']

theorem mem_forms {letter c : Char} (h : isForm letter c = true) : c ∈ forms letter := by
  simp only [isForm, Bool.or_eq_true, Bool.and_eq_true, beq_iff_eq] at h
  rcases h with ((h | h) | ⟨-, h⟩) | ⟨-, h⟩ <;> simp [forms, h]

/-- What holds of all forms of the letters holds of the word as spelled. -/
theorem Spells.forall {P : Char → Prop} {word found : List Char} (h : Spells word found)
    (all : ∀ letter ∈ word, ∀ c ∈ forms letter, P c) : ∀ c ∈ found, P c := by
  induction h with
  | nil => simp
  | cons form _ ih =>
    simp only [List.mem_cons, forall_eq_or_imp] at all ⊢
    exact ⟨all.1 _ (mem_forms form), ih all.2⟩

end Words

section Classes

variable {c : Char}

theorem toNat_of_isAlphanum (h : c.isAlphanum = true) :
    48 ≤ c.toNat ∧ c.toNat ≤ 57 ∨ 65 ≤ c.toNat ∧ c.toNat ≤ 90 ∨ 97 ≤ c.toNat ∧ c.toNat ≤ 122 := by
  delta Char.isAlphanum Char.isAlpha Char.isUpper Char.isLower Char.isDigit at h
  simp only [Bool.or_eq_true, Bool.and_eq_true, decide_eq_true_eq, UInt32.le_iff_toNat_le,
    ge_iff_le, Char.toNat_val] at h
  simp only [Char.reduceToNat] at h
  omega

theorem isAlphanum_of_isDigit_or_isUpper (h : (c.isDigit || c.isUpper) = true) :
    c.isAlphanum = true := by
  have hclasses : c.isAlphanum = (c.isUpper || c.isLower || c.isDigit) := rfl
  rcases Bool.or_eq_true_iff.1 h with h | h <;> simp [hclasses, h]

theorem isWord_of_isAlphanum (h : c.isAlphanum = true) : Text.isWord c = true := by
  have := toNat_of_isAlphanum h
  rw [Text.isWord_of_ascii (by omega), Text.isAsciiWord, h, Bool.true_or]

theorem isBlank_of_isAlphanum (h : c.isAlphanum = true) : Text.isBlank c = false := by
  have := toNat_of_isAlphanum h
  simp only [Text.isBlank, Bool.or_eq_false_iff, Bool.and_eq_false_iff, decide_eq_false_iff_not,
    beq_eq_false_iff_ne, ne_eq]
  omega

theorem isBlank_of_isAuthChar (h : isAuthChar c = true) : Text.isBlank c = false := by
  simp only [isAuthChar, Bool.or_eq_true, beq_iff_eq] at h
  rcases h with (((((((h | rfl) | rfl) | rfl) | rfl) | rfl) | rfl) | rfl) | rfl
  · exact isBlank_of_isAlphanum h
  all_goals rfl

theorem isBlank_of_isValueChar (h : isValueChar c = true) : Text.isBlank c = false := by
  by_contra hb
  simp [isValueChar, hb] at h

theorem isValueChar_of_isAlphanum (h : c.isAlphanum = true) : isValueChar c = true := by
  have := toNat_of_isAlphanum h
  simp only [isValueChar, isBlank_of_isAlphanum h, Bool.or_false, Bool.not_eq_true',
    Bool.or_eq_false_iff, beq_eq_false_iff_ne]
  refine ⟨⟨⟨⟨?_, ?_⟩, ?_⟩, ?_⟩, ?_⟩ <;> rintro rfl <;> simp at h

end Classes

end Flowgraph.Redaction
