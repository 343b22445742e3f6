import Flowgraph.Text.Quoted
import Flowgraph.Uuid

/-! Reading a quoted text. The reader goes through a literal one character at a time; what stands for a
character when a text is quoted brings it from between two characters back there, with that one
character read. -/

namespace Flowgraph.Text

/-- Where a reader stands in a literal. -/
inductive Mode
  | start
  | within
  /-- Behind a backslash. -/
  | escape
  /-- Behind a backslash and the letter of an escape by number. -/
  | letter
  /-- Between braces, with some digits read. -/
  | number (code count : Nat)
  | closed
  deriving DecidableEq

/-- What a character behind a backslash stands for. -/
def escaped? : Char → Option Char
  | 'n' => some '\n'
  | 'r' => some '\r'
  | 't' => some '\t'
  | '0' => some '\x00'
  | '\\' => some '\\'
  | '\'' => some '\''
  | '"' => some '"'
  | _ => none

/-- Numbers that no character has stand for nothing. -/
def character? (code : Nat) : Option Char :=
  if code < 0xd800 ∨ 0xdfff < code ∧ code < 0x110000 then some (Char.ofNat code) else none

/-- A reader and what it has read. -/
abbrev Reading := Mode × List Char

/-- Reads one more character. Between braces stand one to six hexadecimal digits. -/
def Reading.step : Reading → Char → Option Reading
  | (.start, out), c => if c = '"' then some (.within, out) else none
  | (.within, out), c =>
    if c = '"' then some (.closed, out)
    else if c = '\\' then some (.escape, out)
    else if c = '\r' then none
    else some (.within, out ++ [c])
  | (.escape, out), c =>
    if c = 'u' then some (.letter, out) else (escaped? c).map fun e => (.within, out ++ [e])
  | (.letter, out), c => if c = '\x7b' then some (.number 0 0, out) else none
  | (.number code count, out), c =>
    if c = '\x7d' then
      if count = 0 then none else (character? code).map fun e => (.within, out ++ [e])
    else if count = 6 then none
    else (Uuid.hexValue? c).map fun d => (.number (code * 16 + d) (count + 1), out)
  | (.closed, _), _ => none

/-- The text that a literal stands for. -/
def unquote (literal : String) : Option String :=
  match literal.toList.foldlM Reading.step (.start, []) with
  | some (.closed, out) => some (String.ofList out)
  | _ => none

variable {out : List Char} {c : Char}

theorem hexValue?_digitChar : ∀ d < 16, Uuid.hexValue? d.digitChar = some d := by decide

theorem digitChar_ne_brace : ∀ d < 16, d.digitChar ≠ '\x7d' := by decide

theorem step_digit {code count d : Nat} (hd : d < 16) (hcount : count < 6) :
    Reading.step (.number code count, out) d.digitChar =
      some (.number (code * 16 + d) (count + 1), out) := by
  rw [Reading.step, if_neg (digitChar_ne_brace d hd), if_neg (by omega), hexValue?_digitChar d hd]
  rfl

/-- The digits of a number are read as that number. -/
theorem foldlM_toDigits (n : Nat) (h : (Nat.toDigits 16 n).length ≤ 6) :
    (Nat.toDigits 16 n).foldlM Reading.step (.number 0 0, out) =
      some (.number n (Nat.toDigits 16 n).length, out) := by
  induction n using Nat.strongRecOn with
  | ind n ih =>
    by_cases hn : n < 16
    · rw [Nat.toDigits_of_lt_base hn, List.foldlM_cons, step_digit hn (by decide)]
      simp
    · rw [Nat.toDigits_of_base_le (by decide) (Nat.le_of_not_lt hn)] at h ⊢
      rw [List.length_append, List.length_singleton] at h ⊢
      have hrest := ih (n / 16) (by omega) (by omega)
      rw [List.foldlM_append, hrest]
      simp only [Option.bind_eq_bind, Option.bind_some, List.foldlM_cons, List.foldlM_nil]
      rw [step_digit (Nat.mod_lt n (by decide)) (by omega), Nat.mul_comm, Nat.div_add_mod]
      rfl

theorem length_toDigits_char (c : Char) : (Nat.toDigits 16 c.toNat).length ≤ 6 := by
  have hlt : c.toNat < 0x110000 := by
    rcases c.valid with h | h
    · exact Nat.lt_trans h (by decide)
    · exact h.2
  exact (Nat.length_toDigits_le_iff (by decide) (by decide)).2 (Nat.lt_trans hlt (by decide))

theorem character?_toNat (c : Char) : character? c.toNat = some c := by
  have hvalid : c.toNat < 0xd800 ∨ 0xdfff < c.toNat ∧ c.toNat < 0x110000 := c.valid
  rw [character?, if_pos hvalid, Char.ofNat_toNat]

/-- An escape by number is read as its character. -/
theorem foldlM_number (c : Char) :
    ("\\u\x7b" ++ hexText c.toNat ++ "\x7d").toList.foldlM Reading.step (.within, out) =
      some (.within, out ++ [c]) := by
  have hopen : ['\\', 'u', '\x7b'].foldlM Reading.step (.within, out) = some (.number 0 0, out) := rfl
  have hclose : Reading.step (.number c.toNat (Nat.toDigits 16 c.toNat).length, out) '\x7d' =
      some (.within, out ++ [c]) := by
    have hcount := Nat.length_toDigits_pos (b := 16) (n := c.toNat)
    rw [Reading.step, if_pos rfl, if_neg (by omega), character?_toNat]
    rfl
  have htext : ("\\u\x7b" ++ hexText c.toNat ++ "\x7d").toList =
      ['\\', 'u', '\x7b'] ++ Nat.toDigits 16 c.toNat ++ ['\x7d'] := by
    simp [hexText]
  rw [htext, List.foldlM_append, List.foldlM_append, hopen]
  simp only [Option.bind_eq_bind, Option.bind_some]
  rw [foldlM_toDigits c.toNat (length_toDigits_char c)]
  simp only [Option.bind_some, List.foldlM_cons]
  rw [hclose]
  rfl

theorem step_plain (hquote : c ≠ '"') (hslash : c ≠ '\\') (hreturn : c ≠ '\r') :
    Reading.step (.within, out) c = some (.within, out ++ [c]) := by
  rw [Reading.step, if_neg hquote, if_neg hslash, if_neg hreturn]

/-- What stands for a character is read as that character. -/
theorem foldlM_escapeChar (c : Char) :
    (escapeChar c).toList.foldlM Reading.step (.within, out) = some (.within, out ++ [c]) := by
  unfold escapeChar
  split
  · rfl
  · rfl
  · rfl
  · rfl
  · rfl
  · rfl
  · next hquote hslash _ hreturn _ _ =>
    split
    · rw [Char.toString_eq_singleton, String.toList_singleton, List.foldlM_cons,
        step_plain hquote hslash hreturn]
      rfl
    · exact foldlM_number c

theorem foldlM_escape (cs : List Char) :
    (String.join (cs.map escapeChar)).toList.foldlM Reading.step (.within, out) =
      some (.within, out ++ cs) := by
  induction cs generalizing out with
  | nil => simp
  | cons c cs ih =>
    rw [List.map_cons, String.join_cons, String.toList_append, List.foldlM_append, foldlM_escapeChar]
    simp only [Option.bind_eq_bind, Option.bind_some]
    rw [ih, List.append_assoc, List.singleton_append]

/-- The reader comes to the closing quote with the whole text read. -/
theorem foldlM_quote (s : String) :
    (quote s).toList.foldlM Reading.step (.start, []) = some (.closed, s.toList) := by
  have hopen : ['"'].foldlM Reading.step (.start, []) = some (.within, []) := rfl
  have hclose : ['"'].foldlM Reading.step (.within, s.toList) = some (.closed, s.toList) := rfl
  have hquote : (quote s).toList = ['"'] ++ (escape s).toList ++ ['"'] := by simp [quote]
  rw [hquote, List.foldlM_append, List.foldlM_append, hopen]
  simp only [Option.bind_eq_bind, Option.bind_some]
  rw [escape, foldlM_escape, List.nil_append]
  exact hclose

/-- A quoted text is read as that text. -/
theorem unquote_quote (s : String) : unquote (quote s) = some s := by
  rw [unquote, foldlM_quote]
  dsimp only
  rw [String.ofList_toList]

end Flowgraph.Text
