import Flowgraph.Code.Layout
import Flowgraph.Json.Decode
import Flowgraph.Proofs.Number.Numeral
import Flowgraph.Proofs.Text.Unquote
import Mathlib

/-! The values of literals in generated code. A text is read between its quotes, an array or object from
its own text between quotes, and all else by the macro for values, where a whole number has 32 bits. -/

namespace Flowgraph.Code

/-- Whole numbers without a suffix have 32 bits, one of them for the sign. -/
def Fits (n : Int) : Prop := -2 ^ 31 ≤ n ∧ n < 2 ^ 31

instance (n : Int) : Decidable (Fits n) := inferInstanceAs (Decidable (_ ∧ _))

/-- The values that the macro for values gives to words and numerals. -/
inductive Scalar : List Char → Json → Prop
  | null : Scalar ['n', 'u', 'l', 'l'] .null
  | true : Scalar ['t', 'r', 'u', 'e'] (.bool .true)
  | false : Scalar ['f', 'a', 'l', 's', 'e'] (.bool .false)
  | whole {cs n} : Numeral.read cs = some n → n.isReal = .false → Fits n.digits →
    Scalar cs (.int n.digits)
  | negative {cs n} : Numeral.read cs = some n → n.isReal = .false → Fits (-n.digits) →
    Scalar ('-' :: cs) (.int (-n.digits))
  | real {cs n x} : Numeral.read cs = some n → n.isReal = .true → Binary64.Rounds n.value x →
    Scalar cs (.number (.real x))
  | negativeReal {cs n x} : Numeral.read cs = some n → n.isReal = .true →
    Binary64.Rounds n.value x → Scalar ('-' :: cs) (.number (.real x.opposite))

/-- The values of literal expressions, given how texts of values are parsed. A text that cannot be
parsed gives null. -/
inductive Denotes (parse : String → Option Json) : String → Json → Prop
  | text {literal s} : Text.unquote literal = some s →
    Denotes parse ("Value::from(" ++ literal ++ ")") (.string s)
  | scalar {source v} : Scalar source.toList v → Denotes parse ("json!(" ++ source ++ ")") v
  | parsed {literal s} : Text.unquote literal = some s →
    Denotes parse ("lit(" ++ literal ++ ")") ((parse s).getD .null)

section

variable {parse : String → Option Json} {literal source : String} {w : Json}

theorem append_inj_between {f a b g : String} (h : f ++ a ++ g = f ++ b ++ g) : a = b := by
  simpa [← String.toList_inj] using h

theorem denotes_text_iff : Denotes parse ("Value::from(" ++ literal ++ ")") w ↔
    ∃ s, Text.unquote literal = some s ∧ w = .string s := by
  constructor
  · intro h
    generalize hsource : "Value::from(" ++ literal ++ ")" = source at h
    cases h with
    | text h => exact ⟨_, append_inj_between hsource ▸ h, rfl⟩
    | scalar | parsed => simp [← String.toList_inj] at hsource
  · rintro ⟨s, h, rfl⟩
    exact .text h

theorem denotes_scalar_iff : Denotes parse ("json!(" ++ source ++ ")") w ↔ Scalar source.toList w := by
  constructor
  · intro h
    generalize hsource : "json!(" ++ source ++ ")" = s at h
    cases h with
    | scalar h => exact append_inj_between hsource ▸ h
    | text | parsed => simp [← String.toList_inj] at hsource
  · exact .scalar

theorem denotes_parsed_iff : Denotes parse ("lit(" ++ literal ++ ")") w ↔
    ∃ s, Text.unquote literal = some s ∧ w = (parse s).getD .null := by
  constructor
  · intro h
    generalize hsource : "lit(" ++ literal ++ ")" = source at h
    cases h with
    | parsed h => exact ⟨_, append_inj_between hsource ▸ h, rfl⟩
    | text | scalar => simp [← String.toList_inj] at hsource
  · rintro ⟨s, h, rfl⟩
    exact .parsed h

end

section

variable {cs : List Char} {n : Numeral} {w : Json}

/-- The values of a numeral. -/
theorem scalar_numeral_iff (h : Numeral.read cs = some n) : Scalar cs w ↔
    n.isReal = false ∧ Fits n.digits ∧ w = .int n.digits ∨
      n.isReal = true ∧ ∃ x, Binary64.Rounds n.value x ∧ w = .number (.real x) := by
  constructor
  · intro hs
    cases hs with
    | null | true | false => cases h
    | whole hread hwhole hfits =>
      obtain rfl := Option.some.inj (h.symm.trans hread)
      exact Or.inl ⟨hwhole, hfits, rfl⟩
    | real hread hreal hrounds =>
      obtain rfl := Option.some.inj (h.symm.trans hread)
      exact Or.inr ⟨hreal, _, hrounds, rfl⟩
    | negative | negativeReal => simp [Numeral.read_minus] at h
  · rintro (⟨hwhole, hfits, rfl⟩ | ⟨hreal, x, hrounds, rfl⟩)
    · exact .whole h hwhole hfits
    · exact .real h hreal hrounds

/-- The values of a numeral with a minus sign. -/
theorem scalar_minus_iff (h : Numeral.read cs = some n) : Scalar ('-' :: cs) w ↔
    n.isReal = false ∧ Fits (-n.digits) ∧ w = .int (-n.digits) ∨
      n.isReal = true ∧ ∃ x, Binary64.Rounds n.value x ∧ w = .number (.real x.opposite) := by
  constructor
  · intro hs
    cases hs with
    | whole hread | real hread => simp [Numeral.read_minus] at hread
    | negative hread hwhole hfits =>
      obtain rfl := Option.some.inj (h.symm.trans hread)
      exact Or.inl ⟨hwhole, hfits, rfl⟩
    | negativeReal hread hreal hrounds =>
      obtain rfl := Option.some.inj (h.symm.trans hread)
      exact Or.inr ⟨hreal, _, hrounds, rfl⟩
  · rintro (⟨hwhole, hfits, rfl⟩ | ⟨hreal, x, hrounds, rfl⟩)
    · exact .negative h hwhole hfits
    · exact .negativeReal h hreal hrounds

theorem scalar_null_iff : Scalar ['n', 'u', 'l', 'l'] w ↔ w = .null := by
  constructor
  · intro h
    cases h with
    | null => rfl
    | whole hread | real hread => cases hread
  · rintro rfl
    exact .null

theorem scalar_bool_iff (b : Bool) : Scalar (Json.text (.bool b)).toList w ↔ w = .bool b := by
  cases b with
  | true =>
    constructor
    · intro h
      cases h with
      | true => rfl
      | whole hread | real hread => cases hread
    · rintro rfl
      exact .true
  | false =>
    constructor
    · intro h
      cases h with
      | false => rfl
      | whole hread | real hread => cases hread
    · rintro rfl
      exact .false

/-- A whole number of 32 bits is read as it is written, and no other one is read. -/
theorem scalar_whole_iff (m : Int) : Scalar (toString m).toList w ↔ w = .int m ∧ Fits m := by
  cases m with
  | ofNat k =>
    have htext : (toString (Int.ofNat k)).toList = Nat.toDigits 10 k := Nat.toList_repr
    rw [htext, scalar_numeral_iff (Numeral.read_toDigits k), Numeral.digits_ofNat]
    constructor
    · rintro (⟨-, hfits, rfl⟩ | ⟨hreal, -⟩)
      · exact ⟨rfl, hfits⟩
      · cases hreal
    · rintro ⟨rfl, hfits⟩
      exact Or.inl ⟨rfl, hfits, rfl⟩
  | negSucc k =>
    have htext : (toString (Int.negSucc k)).toList = '-' :: Nat.toDigits 10 (k + 1) := by
      have hminus : toString (Int.negSucc k) = "-" ++ Nat.repr (k + 1) := rfl
      rw [hminus, String.toList_append, Nat.toList_repr]
      rfl
    rw [htext, scalar_minus_iff (Numeral.read_toDigits (k + 1)), Numeral.digits_ofNat]
    constructor
    · rintro (⟨-, hfits, rfl⟩ | ⟨hreal, -⟩)
      · exact ⟨rfl, hfits⟩
      · cases hreal
    · rintro ⟨rfl, hfits⟩
      exact Or.inl ⟨rfl, hfits, rfl⟩

/-- A finite real number is read as it is written. -/
theorem scalar_real_iff {x : Binary64} (hx : x.isFinite = true) :
    Scalar x.text.toList w ↔ w = .number (.real x) := by
  rw [Binary64.text_eq hx]
  cases hneg : x.isNegative with
  | false =>
    obtain ⟨n, hread, hreal, hrounds⟩ := Binary64.exists_numeral ⟨hx, hneg⟩
    have htext : ((if false = true then "-" else "") ++ x.unsignedText).toList =
        x.unsignedText.toList := by simp
    rw [htext, scalar_numeral_iff hread]
    constructor
    · rintro (⟨hwhole, -⟩ | ⟨-, y, hy, rfl⟩)
      · simp [hreal] at hwhole
      · rw [hy.unique hrounds]
    · rintro rfl
      exact Or.inr ⟨hreal, x, hrounds, rfl⟩
  | true =>
    obtain ⟨n, hread, hreal, hrounds⟩ :=
      Binary64.exists_numeral (Binary64.unsigned_opposite hx hneg)
    rw [Binary64.unsignedText_opposite] at hread
    have htext : ((if true = true then "-" else "") ++ x.unsignedText).toList =
        '-' :: x.unsignedText.toList := by simp
    rw [htext, scalar_minus_iff hread]
    constructor
    · rintro (⟨hwhole, -⟩ | ⟨-, y, hy, rfl⟩)
      · simp [hreal] at hwhole
      · rw [hy.unique hrounds, Binary64.opposite_opposite]
    · rintro rfl
      exact Or.inr ⟨hreal, x.opposite, hrounds, by rw [Binary64.opposite_opposite]⟩

end

section

variable {parse : String → Option Json} {w : Json}

theorem source_text (s : String) :
    (Expr.text s).source = "Value::from(" ++ Text.quote s ++ ")" := rfl

theorem source_scalar (v : Json) : (Expr.scalar v).source = "json!(" ++ v.text ++ ")" := rfl

theorem source_parsed (v : Json) :
    (Expr.parsed v).source = "lit(" ++ Text.quote v.text ++ ")" := rfl

theorem denotes_scalar_literal_iff (v : Json) :
    Denotes parse (Expr.scalar v).source w ↔ Scalar v.text.toList w := by
  rw [source_scalar]
  exact denotes_scalar_iff

theorem denotes_whole_iff (m : Int) :
    Denotes parse (Expr.ofLiteral (.int m)).source w ↔ w = .int m ∧ Fits m :=
  (denotes_scalar_literal_iff (.int m)).trans (scalar_whole_iff m)

theorem denotes_parsed_literal_iff {v : Json} (hparse : parse v.text = some v) :
    Denotes parse (Expr.parsed v).source w ↔ w = v := by
  rw [source_parsed, denotes_parsed_iff, Text.unquote_quote]
  simp [hparse]

/-- A literal has one value, which is the one it was made of, unless it is a whole number by itself that
has more than 32 bits: that has none. -/
theorem literal_denotes_iff {v : Json} (hfinite : ∀ x, v = .number (.real x) → x.isFinite = true)
    (hparse : parse v.text = some v) : Denotes parse (Expr.ofLiteral v).source w ↔
      w = v ∧ ∀ m, v = .int m → Fits m := by
  have hother : (∀ m, v ≠ .number (.whole m)) → (w = v ↔ w = v ∧ ∀ m, v = .int m → Fits m) :=
    fun hv => (and_iff_left fun m hm => absurd hm (hv m)).symm
  cases v with
  | null => exact (denotes_scalar_literal_iff .null).trans (scalar_null_iff.trans (hother (by simp)))
  | bool b =>
    exact (denotes_scalar_literal_iff (.bool b)).trans ((scalar_bool_iff b).trans (hother (by simp)))
  | string s =>
    rw [Expr.ofLiteral, source_text, denotes_text_iff, Text.unquote_quote, ← hother (by simp)]
    simp
  | array items => exact (denotes_parsed_literal_iff hparse).trans (hother (by simp))
  | object fields => exact (denotes_parsed_literal_iff hparse).trans (hother (by simp))
  | number n =>
    cases n with
    | whole m =>
      rw [← Json.int, denotes_whole_iff]
      simp [Json.int]
    | real x =>
      exact (denotes_scalar_literal_iff (.number (.real x))).trans
        ((scalar_real_iff (hfinite x rfl)).trans (hother (by simp)))

/-- What a text is parsed to, if it can be. -/
def parsed? (text : String) : Option Json := (Json.parse text).toOption

/-- A text, a large whole number and an object in a list. -/
def sampled : Json :=
  .array [.string "say \"hi\"\n", .int 3000000000, .object [("\\", .int (-1))]]

theorem parsed?_sampled : parsed? sampled.text = some sampled := by decide +kernel

theorem sampled_denoted : Denotes parsed? (Expr.ofLiteral sampled).source sampled := by
  have hfinite : ∀ x, sampled = .number (.real x) → x.isFinite = true := by rintro x ⟨⟩
  have hwhole : ∀ m, sampled = .int m → Fits m := by rintro m ⟨⟩
  exact (literal_denotes_iff hfinite parsed?_sampled).2 ⟨rfl, hwhole⟩

theorem parsed?_large : parsed? (Json.int 3000000000).text = some (.int 3000000000) := by
  decide +kernel

/-- By itself a large whole number is not accepted. -/
theorem large_not_denoted : ¬ ∀ (parse : String → Option Json) (v : Json),
    (∀ x, v = .number (.real x) → x.isFinite = true) → parse v.text = some v →
    Denotes parse (Expr.ofLiteral v).source v := by
  intro h
  have hfinite : ∀ x, Json.int 3000000000 = .number (.real x) → x.isFinite = true := by
    rintro x ⟨⟩
  have hdenotes := h parsed? (.int 3000000000) hfinite parsed?_large
  exact absurd ((denotes_whole_iff _).1 hdenotes).2 (by decide)

end

end Flowgraph.Code
