import Flowgraph.Proofs.Code.Names
import Mathlib

/-! How the names of generated code are spelled. Each begins with a small letter and goes on with small
letters, digits and low lines, and none is a word of the language. -/

namespace Flowgraph.Code

/-- A character that a name can go on with. -/
def NamePart (c : Char) : Prop := c.isLower = true ∨ c.isDigit = true ∨ c = '_'

instance (c : Char) : Decidable (NamePart c) := inferInstanceAs (Decidable (_ ∨ _))

def IsName (name : String) : Prop :=
  ∃ c rest, name.toList = c :: rest ∧ c.isLower = true ∧ ∀ d ∈ rest, NamePart d

/-- The words that the language has a use for, and then those that it keeps for a later one. -/
def languageWords : List String :=
  ["as", "async", "await", "break", "const", "continue", "crate", "dyn", "else", "enum", "extern",
   "false", "fn", "for", "if", "impl", "in", "let", "loop", "match", "mod", "move", "mut", "pub",
   "ref", "return", "Self", "self", "static", "struct", "super", "trait", "true", "type", "unsafe",
   "use", "where", "while"] ++
  ["abstract", "become", "box", "do", "final", "gen", "macro", "override", "priv", "try", "typeof",
   "unsized", "virtual", "yield"]

/-- Only the first letter of one word keeps it from being listed. -/
theorem word_cases {word : String} (h : word ∈ languageWords) : word ∈ keywords ∨ word = "Self" := by
  have hall : ∀ word ∈ languageWords, word ∈ keywords ∨ word = "Self" := by decide
  exact hall word h

theorem low_line_not_mem_word {word : String} (h : word ∈ languageWords ++ keywords) :
    '_' ∉ word.toList := by
  have hall : ∀ word ∈ keywords, '_' ∉ word.toList := by decide +kernel
  rcases List.mem_append.1 h with hword | hkeyword
  · rcases word_cases hword with hkeyword | rfl
    · exact hall word hkeyword
    · decide
  · exact hall word hkeyword

namespace IsName

theorem namePart {name : String} (h : IsName name) : ∀ d ∈ name.toList, NamePart d := by
  obtain ⟨c, rest, htext, hc, hrest⟩ := h
  rw [htext]
  exact List.forall_mem_cons.2 ⟨.inl hc, hrest⟩

theorem append {name more : String} (h : IsName name) (hmore : ∀ d ∈ more.toList, NamePart d) :
    IsName (name ++ more) := by
  obtain ⟨c, rest, htext, hc, hrest⟩ := h
  refine ⟨c, rest ++ more.toList, by simp [htext], hc, fun d hd => ?_⟩
  exact (List.mem_append.1 hd).elim (hrest d) (hmore d)

theorem ne_self {name : String} (h : IsName name) : name ≠ "Self" := by
  rintro rfl
  obtain ⟨c, rest, htext, hc, -⟩ := h
  obtain ⟨rfl, -⟩ := List.cons_eq_cons.1 htext
  exact absurd hc (by decide)

end IsName

theorem namePart_nameChar (c : Char) : NamePart (nameChar c) := by
  rw [nameChar]
  split
  · next hc =>
    rcases Bool.or_eq_true_iff.1 hc with halpha | hdigit
    · exact .inl (by simpa using halpha)
    · have hlower : ¬ c.isUpper := by
        simp only [Char.isUpper, Char.isDigit, Bool.and_eq_true, decide_eq_true_eq, ge_iff_le,
          UInt32.le_iff_toNat_le] at hdigit ⊢
        have : '9'.val.toNat = 57 := rfl
        have : 'A'.val.toNat = 65 := rfl
        omega
      exact .inr (.inl (by rwa [Char.toLower_eq_of_not_isUpper hlower]))
  · exact .inr (.inr rfl)

theorem namePart_stripped {id : String} {d : Char} (hd : d ∈ stripped id) : NamePart d := by
  have hmem : d ∈ id.toList.map nameChar :=
    (List.dropWhile_suffix _).subset
      (List.mem_reverse.1 ((List.dropWhile_suffix _).subset (List.mem_reverse.1 hd)))
  obtain ⟨c, -, rfl⟩ := List.mem_map.1 hmem
  exact namePart_nameChar c

/-- What is stripped does not begin with a low line. -/
theorem stripped_head {id : String} {c : Char} {rest : List Char} (h : stripped id = c :: rest) :
    c ≠ '_' := by
  let kept := (id.toList.map nameChar).dropWhile (· == '_')
  have hprefix : c :: rest <+: kept := by
    have hsuffix := List.dropWhile_suffix (l := kept.reverse) (· == '_')
    rw [← h, stripped, ← List.reverse_suffix, List.reverse_reverse]
    exact hsuffix
  obtain ⟨more, hkept⟩ := hprefix
  have hne : kept ≠ [] := by simp [← hkept]
  have hhead := List.head_dropWhile_not (· == '_') hne
  have hc : kept.head hne = c := by simp [← hkept]
  rintro rfl
  exact absurd hhead (by simpa using hc)

/-- The base name of an id before it is kept apart from the words of the language. -/
def coreName (id : String) : String :=
  match stripped id with
  | [] => "node"
  | c :: cs => if c.isDigit then "n_" ++ String.ofList (c :: cs) else String.ofList (c :: cs)

theorem baseName_eq (id : String) :
    baseName id = if coreName id ∈ keywords then coreName id ++ "_" else coreName id := rfl

theorem isName_coreName (id : String) : IsName (coreName id) := by
  rw [coreName]
  split
  · exact ⟨'n', ['o', 'd', 'e'], rfl, by decide, by simp [NamePart]⟩
  · next c cs h =>
    have hparts : ∀ d ∈ c :: cs, NamePart d := fun d hd => namePart_stripped (h ▸ hd)
    split
    · refine ⟨'n', '_' :: c :: cs, by simp, by decide, ?_⟩
      exact List.forall_mem_cons.2 ⟨.inr (.inr rfl), hparts⟩
    · next hdigit =>
      obtain ⟨hc, hcs⟩ := List.forall_mem_cons.1 hparts
      have hlower := hc.resolve_right fun h' => h'.elim hdigit (stripped_head h)
      exact ⟨c, cs, by simp, hlower, hcs⟩

theorem isName_baseName (id : String) : IsName (baseName id) := by
  rw [baseName_eq]
  split
  · exact (isName_coreName id).append (by simp [NamePart])
  · exact isName_coreName id

theorem baseName_not_word (id : String) : baseName id ∉ languageWords ++ keywords := by
  rw [baseName_eq]
  split
  · exact fun hword => low_line_not_mem_word hword (by simp)
  · next hcore =>
    intro hword
    rcases List.mem_append.1 hword with hword | hword
    · exact (word_cases hword).elim hcore (isName_coreName id).ne_self
    · exact hcore hword

/-- A name that is given to a node is the base, or the base and a number. -/
theorem freeName_cases (taken : List String) (base : String) :
    freeName taken base = base ∨ ∃ n : Nat, freeName taken base = base ++ "_" ++ toString n := by
  rw [freeName_eq]
  cases hf : (base :: numbered taken.length base).find? (· ∉ taken) with
  | none => exact .inl rfl
  | some name =>
    rcases List.mem_cons.1 (List.mem_of_find?_eq_some hf) with rfl | hname
    · exact .inl rfl
    · obtain ⟨n, -, rfl⟩ := List.mem_map.1 hname
      exact .inr ⟨n + 2, rfl⟩

theorem namePart_number {n : Nat} : ∀ d ∈ ("_" ++ toString n).toList, NamePart d := by
  intro d hd
  have hd : d = '_' ∨ d ∈ Nat.toDigits 10 n := by simpa [Nat.repr] using hd
  rcases hd with rfl | hd
  · exact .inr (.inr rfl)
  · exact .inr (.inl (Nat.isDigit_of_mem_toDigits (by decide) (by decide) hd))

theorem isName_freeName (taken : List String) (id : String) : IsName (freeName taken (baseName id)) := by
  rcases freeName_cases taken (baseName id) with h | ⟨n, h⟩
  · rw [h]
    exact isName_baseName id
  · rw [h, String.append_assoc]
    exact (isName_baseName id).append namePart_number

theorem freeName_not_word (taken : List String) (id : String) :
    freeName taken (baseName id) ∉ languageWords ++ keywords := by
  rcases freeName_cases taken (baseName id) with h | ⟨n, h⟩
  · rw [h]
    exact baseName_not_word id
  · rw [h]
    exact fun hword => low_line_not_mem_word hword (by simp)

theorem mem_assignNames {taken ids : List String} {p : String × String} (hp : p ∈ assignNames taken ids) :
    ∃ taken', p.2 = freeName taken' (baseName p.1) := by
  induction ids generalizing taken with
  | nil => simp [assignNames] at hp
  | cons id rest ih =>
    rcases List.mem_cons.1 hp with rfl | hp
    · exact ⟨taken, rfl⟩
    · exact ih hp

namespace Names

variable {program : Program} {id : String}

theorem exists_freeName (hid : id ∈ program.nodeIds) :
    ∃ taken, (ofProgram program).of id = freeName taken (baseName id) :=
  mem_assignNames (mem_of_lookup (lookup_eq_of hid))

theorem isName_of (hid : id ∈ program.nodeIds) : IsName ((ofProgram program).of id) := by
  obtain ⟨taken, h⟩ := exists_freeName hid
  exact h ▸ isName_freeName taken id

theorem of_not_word (hid : id ∈ program.nodeIds) :
    (ofProgram program).of id ∉ languageWords ++ keywords := by
  obtain ⟨taken, h⟩ := exists_freeName hid
  exact h ▸ freeName_not_word taken id

end Names

end Flowgraph.Code
