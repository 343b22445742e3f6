/-! Blank characters: the white space of every script, and trimming by it. -/

namespace Flowgraph.Text

def isBlank (c : Char) : Bool :=
  (9 ≤ c.toNat && c.toNat ≤ 13) || c.toNat == 0x20 || c.toNat == 0x85 || c.toNat == 0xa0 ||
    c.toNat == 0x1680 || (0x2000 ≤ c.toNat && c.toNat ≤ 0x200a) || c.toNat == 0x2028 ||
    c.toNat == 0x2029 || c.toNat == 0x202f || c.toNat == 0x205f || c.toNat == 0x3000

/-- Drops blanks on both sides. -/
def trimChars (cs : List Char) : List Char :=
  ((cs.dropWhile isBlank).reverse.dropWhile isBlank).reverse

def trim (s : String) : String := String.ofList (trimChars s.toList)

@[simp] theorem trimChars_nil : trimChars [] = [] := rfl

/-- Splits at every `sep`, keeping empty pieces: there is always one piece more than separators. -/
def splitAt (sep : Char) : List Char → List (List Char)
  | [] => [[]]
  | c :: cs =>
    if c = sep then [] :: splitAt sep cs
    else match splitAt sep cs with
      | [] => [[c]]
      | piece :: rest => (c :: piece) :: rest

theorem splitAt_ne_nil (sep : Char) (cs : List Char) : splitAt sep cs ≠ [] := by
  cases cs with
  | nil => simp [splitAt]
  | cons c cs =>
    rw [splitAt]
    split
    · simp
    · split <;> simp

/-- The text before the first `sep` and the text after it. -/
def splitFirst (sep : Char) : List Char → Option (List Char × List Char)
  | [] => none
  | c :: cs =>
    if c = sep then some ([], cs)
    else (splitFirst sep cs).map fun (left, right) => (c :: left, right)

theorem splitFirst_eq_some {sep : Char} {cs left right : List Char}
    (h : splitFirst sep cs = some (left, right)) : cs = left ++ sep :: right ∧ sep ∉ left := by
  induction cs generalizing left with
  | nil => simp [splitFirst] at h
  | cons c cs ih =>
    rw [splitFirst] at h
    split at h
    · next hc => simp_all
    · next hc =>
      obtain ⟨⟨l, r⟩, hlr, heq⟩ := Option.map_eq_some_iff.1 h
      obtain ⟨rfl, rfl⟩ : c :: l = left ∧ r = right := by simpa using heq
      obtain ⟨rfl, hmem⟩ := ih hlr
      exact ⟨rfl, by simp [hmem, Ne.symm hc]⟩

end Flowgraph.Text
