import Flowgraph.Text.Blank
import Mathlib.Data.List.DropRight

/-! Parts that a separator divides, and the blanks around them. Splitting finds the parts that were put
together and no others. -/

namespace Flowgraph.Text

variable {sep : Char} {cs part : List Char} {parts : List (List Char)}

theorem splitAt_of_not_mem (h : sep ∉ part) : splitAt sep part = [part] := by
  induction part with
  | nil => rfl
  | cons c part ih =>
    simp only [List.mem_cons, not_or] at h
    rw [splitAt, if_neg (Ne.symm h.1), ih h.2]

theorem splitAt_append (h : sep ∉ part) (cs : List Char) :
    splitAt sep (part ++ sep :: cs) = part :: splitAt sep cs := by
  induction part with
  | nil => simp [splitAt]
  | cons c part ih =>
    simp only [List.mem_cons, not_or] at h
    rw [List.cons_append, splitAt, if_neg (Ne.symm h.1), ih h.2]

/-- Before every part but the first stands a separator, and none stands within a part. -/
theorem splitAt_eq_cons_iff :
    splitAt sep cs = part :: parts ↔
      cs = part ++ parts.flatMap (sep :: ·) ∧ ∀ p ∈ part :: parts, sep ∉ p := by
  constructor
  · intro h
    induction cs generalizing part parts with
    | nil =>
      obtain ⟨rfl, rfl⟩ : [] = part ∧ [] = parts := by simpa [splitAt] using h
      simp
    | cons c cs ih =>
      obtain ⟨first, more, hsplit⟩ := List.exists_cons_of_ne_nil (splitAt_ne_nil sep cs)
      obtain ⟨hcs, hfree⟩ := ih hsplit
      rw [splitAt, hsplit] at h
      split at h
      · next hc =>
        obtain ⟨rfl, rfl⟩ : [] = part ∧ first :: more = parts := by simpa using h
        refine ⟨?_, ?_⟩
        · rw [hcs, hc]
          simp
        · simpa using hfree
      · next hc =>
        obtain ⟨rfl, rfl⟩ : c :: first = part ∧ more = parts := by simpa using h
        refine ⟨?_, ?_⟩
        · rw [hcs]
          rfl
        · simpa [Ne.symm hc] using hfree
  · rintro ⟨rfl, hfree⟩
    induction parts generalizing part with
    | nil => simpa using splitAt_of_not_mem (hfree part (by simp))
    | cons next parts ih =>
      have hrest := ih fun p hp => hfree p (List.mem_cons_of_mem _ hp)
      rw [List.flatMap_cons, List.cons_append, splitAt_append (hfree part (by simp)), hrest]

theorem intercalate_cons (sep : Char) (part : List Char) (parts : List (List Char)) :
    [sep].intercalate (part :: parts) = part ++ parts.flatMap (sep :: ·) := by
  induction parts generalizing part with
  | nil => simp
  | cons next parts ih => rw [List.intercalate_cons_cons, ih, List.flatMap_cons]; simp

/-- Nothing is trimmed where both ends are free of blanks. -/
theorem trimChars_eq_self_iff :
    trimChars cs = cs ↔
      (∀ c ∈ cs.head?, isBlank c = false) ∧ ∀ c ∈ cs.getLast?, isBlank c = false := by
  have hhead : cs.dropWhile isBlank = cs ↔ ∀ c ∈ cs.head?, isBlank c = false := by
    rw [List.dropWhile_eq_self_iff]
    cases cs <;> simp
  have hlast : cs.rdropWhile isBlank = cs ↔ ∀ c ∈ cs.getLast?, isBlank c = false := by
    rw [List.rdropWhile_eq_self_iff]
    cases cs using List.reverseRecOn <;> simp
  have htrim : trimChars cs = (cs.dropWhile isBlank).rdropWhile isBlank := rfl
  rw [htrim, ← hhead, ← hlast]
  constructor
  · intro h
    have hfront : cs.dropWhile isBlank = cs := by
      apply (List.dropWhile_suffix isBlank).eq_of_length_le
      have hle := (List.rdropWhile_prefix isBlank (cs.dropWhile isBlank)).length_le
      rwa [h] at hle
    exact ⟨hfront, by rwa [hfront] at h⟩
  · rintro ⟨hfront, hback⟩
    rw [hfront, hback]

end Flowgraph.Text
