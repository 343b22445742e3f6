import Flowgraph.Json.Printer
import Flowgraph.Proofs.Number.Numeral
import Flowgraph.Text.Quoted
import Mathlib

/-! Line breaks in texts. What is quoted has none, and neither has a number. -/

namespace Flowgraph.Text

def isBreak (c : Char) : Bool := c = '\n' || c = '\r'

/-- How many characters of the text break a line. -/
def breaks (s : String) : Nat := s.toList.countP isBreak

@[simp] theorem breaks_append (s t : String) : breaks (s ++ t) = breaks s + breaks t := by
  simp [breaks]

theorem breaks_eq_zero_iff {s : String} : breaks s = 0 ↔ ∀ c ∈ s.toList, isBreak c = false := by
  simp [breaks]

theorem breaks_ofList {cs : List Char} (h : ∀ c ∈ cs, isBreak c = false) :
    breaks (String.ofList cs) = 0 :=
  breaks_eq_zero_iff.2 (by simpa using h)

/-- For a literal; its characters are compared one by one, and never read from bytes. -/
theorem breaks_literal {cs : List Char} (h : cs.any isBreak = false) :
    breaks (String.ofList cs) = 0 :=
  breaks_ofList (by simpa using h)

theorem breaks_join (l : List String) : breaks (String.join l) = (l.map breaks).sum := by
  rw [breaks, String.toList_join, List.countP_flatMap]
  rfl

theorem sum_breaks_eq_zero {l : List String} (h : ∀ s ∈ l, breaks s = 0) : (l.map breaks).sum = 0 := by
  simpa [List.sum_eq_zero_iff] using h

theorem breaks_join_eq_zero {l : List String} (h : ∀ s ∈ l, breaks s = 0) :
    breaks (String.join l) = 0 :=
  (breaks_join l).trans (sum_breaks_eq_zero h)

theorem breaks_intercalate {separator : String} {l : List String} (hseparator : breaks separator = 0)
    (h : ∀ s ∈ l, breaks s = 0) : breaks (separator.intercalate l) = 0 := by
  induction l with
  | nil => rfl
  | cons s rest ih =>
    obtain ⟨hs, hrest⟩ := List.forall_mem_cons.1 h
    cases rest with
    | nil => simpa using hs
    | cons t rest => simp [String.intercalate_cons_cons, hs, hseparator, ih hrest]

theorem isBreak_of_isDigit {c : Char} (h : c.isDigit = true) : isBreak c = false := by
  refine Bool.eq_false_iff.2 fun hbreak => ?_
  rcases Bool.or_eq_true_iff.1 hbreak with hc | hc
  · rw [of_decide_eq_true hc] at h
    cases h
  · rw [of_decide_eq_true hc] at h
    cases h

theorem isBreak_of_mem_toDigits {b n : Nat} (hb : 1 < b) :
    ∀ c ∈ Nat.toDigits b n, isBreak c = false := by
  have hdigit : ∀ d : Nat, isBreak d.digitChar = false := by
    intro d
    simp +decide [Nat.digitChar, apply_ite isBreak]
  induction n using Nat.strongRecOn with
  | ind n ih =>
    rw [Nat.toDigits_eq_if hb]
    split
    · simpa using hdigit n
    · intro c hc
      rcases List.mem_append.1 hc with hc | hc
      · exact ih _ (Nat.div_lt_self (by omega) hb) c hc
      · obtain rfl := List.mem_singleton.1 hc
        exact hdigit _

@[simp] theorem breaks_repr (n : Nat) : breaks n.repr = 0 :=
  breaks_ofList (isBreak_of_mem_toDigits (by decide))

@[simp] theorem breaks_nat (n : Nat) : breaks (toString n) = 0 := breaks_repr n

@[simp] theorem breaks_escapeChar (c : Char) : breaks (escapeChar c) = 0 := by
  unfold escapeChar
  split
  · rfl
  · rfl
  · rfl
  · rfl
  · rfl
  · rfl
  · split
    · simp_all [breaks, isBreak]
    · have hhex : breaks (hexText c.toNat) = 0 := breaks_ofList (isBreak_of_mem_toDigits (by decide))
      simp +decide [hhex]

/-- A text between quotes stays on its line, whatever stands in it. -/
@[simp] theorem breaks_quote (s : String) : breaks (quote s) = 0 := by
  have hescape : breaks (escape s) = 0 := breaks_join_eq_zero (by simp)
  simp +decide [quote, hescape]

end Flowgraph.Text

namespace Flowgraph

open Text

section Numbers

variable {P : Char → Prop} (hdigit : ∀ c, c.isDigit = true → P c)

include hdigit

/-- What holds of digits and of what stands between them holds of all that a numeral is written with. -/
theorem Numeral.forall_text (hsign : ∀ c ∈ ['.', 'e', '-', '+'], P c) {n : Numeral} (h : n.Proper) :
    ∀ c ∈ n.text, P c := by
  have hdigits : ∀ {cs}, areDigits cs = true → ∀ c ∈ cs, P c := fun hcs c hc =>
    hdigit c ((areDigits_iff.1 hcs).2 c hc)
  simp only [text, List.mem_append]
  rintro c (hc | hc | hc)
  · exact hdigits h.whole c hc
  · cases hplaces : n.places with
    | none =>
      rw [hplaces] at hc
      cases hc
    | some places =>
      rw [hplaces] at hc
      rcases List.mem_cons.1 hc with rfl | hc
      · exact hsign _ (by simp)
      · exact hdigits (h.places places hplaces) c hc
  · cases hexponent : n.exponent with
    | none =>
      rw [hexponent] at hc
      cases hc
    | some e =>
      rw [hexponent, exponentText] at hc
      rcases List.mem_cons.1 hc with rfl | hc
      · exact hsign _ (by simp)
      · rcases List.mem_cons.1 hc with rfl | hc
        · refine hsign _ ?_
          split <;> simp
        · exact hdigits (areDigits_toDigits _) c hc

theorem Binary64.forall_text (hother : ∀ c ∈ ['.', 'e', '-', '+', 'n', 'u', 'l'], P c) (x : Binary64) :
    ∀ c ∈ x.text.toList, P c := by
  cases hx : x.isFinite with
  | false =>
    have htext : x.text = "null" := by rw [text, hx]; rfl
    have hnull : ['n', 'u', 'l', 'l'] ⊆ ['.', 'e', '-', '+', 'n', 'u', 'l'] := by simp
    rw [htext]
    exact fun c hc => hother c (hnull hc)
  | true =>
    have hsign : ∀ c ∈ ['.', 'e', '-', '+'], P c := fun c hc =>
      hother c (List.subset_append_left ['.', 'e', '-', '+'] ['n', 'u', 'l'] hc)
    have hunsigned : ∀ c ∈ x.unsignedText.toList, P c := by
      rw [unsignedText]
      split
      · have hzero : P '0' := hdigit '0' rfl
        have hpoint : P '.' := hsign '.' (by simp)
        simp [hzero, hpoint]
      · rw [magnitudeText_eq]
        exact Numeral.forall_text hdigit hsign (numeral_proper (Numeral.areDigits_toDigits _))
    rw [text_eq hx, String.toList_append]
    intro c hc
    rcases List.mem_append.1 hc with hc | hc
    · split at hc
      · exact hsign c (by simp_all)
      · simp at hc
    · exact hunsigned c hc

theorem Number.forall_text (hother : ∀ c ∈ ['.', 'e', '-', '+', 'n', 'u', 'l'], P c) (n : Number) :
    ∀ c ∈ n.text.toList, P c := by
  have hdigits : ∀ m : Nat, ∀ c ∈ (toString m).toList, P c := fun m c hc =>
    hdigit c ((Numeral.areDigits_iff.1 (Numeral.areDigits_toDigits m)).2 c (by simpa using hc))
  cases n with
  | whole n =>
    cases n with
    | ofNat m => exact hdigits m
    | negSucc m =>
      have htext : (Number.whole (.negSucc m)).text = "-" ++ toString (m + 1) := rfl
      rw [htext, String.toList_append]
      intro c hc
      rcases List.mem_append.1 hc with hc | hc
      · obtain rfl : c = '-' := by simpa using hc
        exact hother _ (by simp)
      · exact hdigits (m + 1) c hc
  | real x => exact x.forall_text hdigit hother

end Numbers

theorem Number.breaks_text (n : Number) : breaks n.text = 0 :=
  breaks_eq_zero_iff.2 (n.forall_text (fun _ => isBreak_of_isDigit) (by simp [isBreak]))

end Flowgraph
