import Flowgraph.Proofs.Number.Digits

/-! Numerals as source code writes them. A numeral with a point or an exponent is a real one; the text of
a binary64 number is such a numeral, and its value rounds to that number. -/

namespace Flowgraph

/-- A number without a sign: digits, perhaps a point with more of them, perhaps an exponent. -/
structure Numeral where
  whole : List Char
  places : Option (List Char)
  exponent : Option Int

namespace Numeral

def areDigits (cs : List Char) : Bool := !cs.isEmpty && cs.all Char.isDigit

/-- What stands behind the digits in front: a point and places, or nothing. -/
def places? : List Char → Option (List Char) × List Char
  | '.' :: rest => (some (rest.takeWhile Char.isDigit), rest.dropWhile Char.isDigit)
  | rest => (none, rest)

def natural? (cs : List Char) : Option Int :=
  if areDigits cs then some (Nat.ofDigitChars 10 cs 0) else none

/-- The exponent that ends a numeral, if there is one. -/
def exponent? : List Char → Option (Option Int)
  | [] => some none
  | 'e' :: '+' :: rest => (natural? rest).map some
  | 'e' :: '-' :: rest => (natural? rest).map fun e => some (-e)
  | 'e' :: rest => (natural? rest).map some
  | _ => none

/-- Reads a whole text. There is a digit in front, and one behind a point. -/
def read (cs : List Char) : Option Numeral :=
  let whole := cs.takeWhile Char.isDigit
  let (places, rest) := places? (cs.dropWhile Char.isDigit)
  if whole.isEmpty || places = some [] then none
  else (exponent? rest).map fun exponent => ⟨whole, places, exponent⟩

variable (n : Numeral)

def isReal : Bool := n.places.isSome || n.exponent.isSome

/-- All digits as one number. -/
def digits : Nat := Nat.ofDigitChars 10 (n.whole ++ n.places.getD []) 0

def value : ℚ := n.digits * 10 ^ (n.exponent.getD 0 - (n.places.getD []).length)

/-- How a numeral is written: the exponent always with its sign. -/
def placesText : Option (List Char) → List Char
  | none => []
  | some places => '.' :: places

def exponentText : Option Int → List Char
  | none => []
  | some e => 'e' :: (if e < 0 then '-' else '+') :: Nat.toDigits 10 e.natAbs

def text : List Char := n.whole ++ (placesText n.places ++ exponentText n.exponent)

/-- Its parts are digits, at least one each. -/
structure Proper : Prop where
  whole : areDigits n.whole = true
  places : ∀ places ∈ n.places, areDigits places = true

variable {n} {cs rest : List Char}

theorem areDigits_iff : areDigits cs = true ↔ cs ≠ [] ∧ ∀ c ∈ cs, c.isDigit = true := by
  simp [areDigits]

theorem areDigits_toDigits (m : Nat) : areDigits (Nat.toDigits 10 m) = true :=
  areDigits_iff.2 ⟨Nat.toDigits_ne_nil, fun _ => Nat.isDigit_of_mem_toDigits (by decide) (by decide)⟩

/-- Digits are read up to what follows them. -/
theorem takeWhile_digits (hcs : ∀ c ∈ cs, c.isDigit = true)
    (hrest : ∀ c ∈ rest.head?, c.isDigit = false) : (cs ++ rest).takeWhile Char.isDigit = cs := by
  rw [List.takeWhile_append_of_pos hcs]
  cases rest with
  | nil => simp
  | cons c rest => simp [hrest c rfl]

theorem dropWhile_digits (hcs : ∀ c ∈ cs, c.isDigit = true)
    (hrest : ∀ c ∈ rest.head?, c.isDigit = false) : (cs ++ rest).dropWhile Char.isDigit = rest := by
  rw [List.dropWhile_append_of_pos hcs]
  cases rest with
  | nil => rfl
  | cons c rest => simp [hrest c rfl]

theorem natural?_toDigits (m : Nat) : natural? (Nat.toDigits 10 m) = some (m : Int) := by
  rw [natural?, if_pos (areDigits_toDigits m), Nat.ofDigitChars_ten_toDigits]

theorem exponent?_text (e : Option Int) : exponent? (exponentText e) = some e := by
  cases e with
  | none => rfl
  | some e =>
    by_cases hneg : e < 0
    · rw [exponentText, if_pos hneg, exponent?, natural?_toDigits]
      simp only [Option.map_some, Option.some.injEq]
      omega
    · rw [exponentText, if_neg hneg, exponent?, natural?_toDigits]
      simp only [Option.map_some, Option.some.injEq]
      omega

theorem head_exponentText (e : Option Int) : ∀ c ∈ (exponentText e).head?, c = 'e' := by
  cases e with
  | none => simp [exponentText]
  | some e => simp [exponentText]

theorem places?_text {places : Option (List Char)} (h : ∀ ds ∈ places, areDigits ds = true)
    (e : Option Int) : places? (placesText places ++ exponentText e) = (places, exponentText e) := by
  have hdigit : ∀ c ∈ (exponentText e).head?, c.isDigit = false := by
    intro c hc
    rw [head_exponentText e c hc]
    rfl
  cases places with
  | none =>
    cases e with
    | none => rfl
    | some e => rfl
  | some places =>
    have hplaces := (areDigits_iff.1 (h places rfl)).2
    rw [placesText, List.cons_append, places?, takeWhile_digits hplaces hdigit,
      dropWhile_digits hplaces hdigit]

/-- A numeral is read as it is written. -/
theorem read_text (h : n.Proper) : read n.text = some n := by
  obtain ⟨whole, places, exponent⟩ := n
  obtain ⟨hwhole, hplaces⟩ := h
  obtain ⟨hne, hdigits⟩ := areDigits_iff.1 hwhole
  have hhead : ∀ c ∈ (placesText places ++ exponentText exponent).head?, c.isDigit = false := by
    cases places with
    | some ds => simp [placesText]
    | none =>
      intro c hc
      rw [head_exponentText exponent c hc]
      rfl
  unfold read text
  dsimp only
  rw [takeWhile_digits hdigits hhead, dropWhile_digits hdigits hhead, places?_text hplaces]
  have hopen : (whole.isEmpty || places = some []) = false := by
    have hplace : places ≠ some [] := by
      rintro rfl
      exact absurd (hplaces [] rfl) (by decide)
    simp [hne, hplace]
  rw [hopen, if_neg (by decide), exponent?_text]
  rfl

/-- A whole number. -/
def ofNat (m : Nat) : Numeral := ⟨Nat.toDigits 10 m, none, none⟩

theorem read_toDigits (m : Nat) : read (Nat.toDigits 10 m) = some (ofNat m) := by
  have hproper : (ofNat m).Proper := ⟨areDigits_toDigits m, nofun⟩
  have htext : (ofNat m).text = Nat.toDigits 10 m := List.append_nil _
  rw [← htext, read_text hproper]

theorem digits_ofNat (m : Nat) : (ofNat m).digits = m := by
  have hdigits : (ofNat m).digits = Nat.ofDigitChars 10 (Nat.toDigits 10 m ++ []) 0 := rfl
  rw [hdigits, List.append_nil, Nat.ofDigitChars_ten_toDigits]

theorem read_minus (cs : List Char) : read ('-' :: cs) = none := by
  simp [read]

end Numeral

namespace Binary64

/-- The numeral that stands for digits with the last one at a power of ten. -/
def numeral (digits : List Char) (step : Int) : Numeral :=
  let exponent := step + digits.length - 1
  if plainFrom ≤ exponent ∧ exponent < plainBelow then
    if 0 ≤ step then ⟨digits ++ List.replicate step.toNat '0', some ['0'], none⟩
    else if 0 ≤ exponent then
      ⟨digits.take (exponent.toNat + 1), some (digits.drop (exponent.toNat + 1)), none⟩
    else ⟨['0'], some (List.replicate (-exponent - 1).toNat '0' ++ digits), none⟩
  else
    ⟨digits.take 1, if (digits.drop 1).isEmpty then none else some (digits.drop 1), some exponent⟩

variable {digits : List Char} {step : Int}

theorem magnitudeText_eq : (magnitudeText digits step).toList = (numeral digits step).text := by
  unfold magnitudeText numeral
  dsimp only
  split
  · split
    · simp [Numeral.text, Numeral.placesText, Numeral.exponentText]
    · split
      · simp [Numeral.text, Numeral.placesText, Numeral.exponentText]
      · simp [Numeral.text, Numeral.placesText, Numeral.exponentText]
  · split
    · split <;> simp [Numeral.text, Numeral.placesText, Numeral.exponentText, *]
    · split <;> simp [Numeral.text, Numeral.placesText, Numeral.exponentText, *]

theorem numeral_proper (h : Numeral.areDigits digits = true) : (numeral digits step).Proper := by
  obtain ⟨hne, hdigits⟩ := Numeral.areDigits_iff.1 h
  have hlength : 0 < digits.length := List.length_pos_iff.2 hne
  have hzeros : ∀ count, ∀ c ∈ List.replicate count '0', c.isDigit = true := by
    intro count c hc
    rw [List.eq_of_mem_replicate hc]
    rfl
  have hpart : ∀ {cs}, cs ≠ [] → (∀ c ∈ cs, c ∈ digits) → Numeral.areDigits cs = true :=
    fun hcs hsub => Numeral.areDigits_iff.2 ⟨hcs, fun c hc => hdigits c (hsub c hc)⟩
  have htake : ∀ count, Numeral.areDigits (digits.take (count + 1)) = true := fun count =>
    hpart (by simp [hne]) fun _ => List.mem_of_mem_take
  unfold numeral
  dsimp only
  split
  · split
    · refine ⟨Numeral.areDigits_iff.2 ⟨by simp [hne], fun c hc => ?_⟩, by rintro _ ⟨⟩; rfl⟩
      rcases List.mem_append.1 hc with hc | hc
      · exact hdigits c hc
      · exact hzeros _ c hc
    · split
      · refine ⟨htake _, ?_⟩
        rintro _ ⟨⟩
        refine hpart ?_ fun _ => List.mem_of_mem_drop
        rw [ne_eq, List.drop_eq_nil_iff]
        omega
      · refine ⟨rfl, ?_⟩
        rintro _ ⟨⟩
        refine Numeral.areDigits_iff.2 ⟨by simp [hne], fun c hc => ?_⟩
        rcases List.mem_append.1 hc with hc | hc
        · exact hzeros _ c hc
        · exact hdigits c hc
  · refine ⟨htake 0, ?_⟩
    split
    · rintro _ ⟨⟩
    · next htail =>
      rintro _ ⟨⟩
      exact hpart (by simpa using htail) fun _ => List.mem_of_mem_drop

theorem numeral_isReal : (numeral digits step).isReal = true := by
  unfold numeral Numeral.isReal
  dsimp only
  split
  · split
    · rfl
    · split <;> rfl
  · simp

theorem numeral_value (h : digits ≠ []) :
    (numeral digits step).value = (Nat.ofDigitChars 10 digits 0 : ℕ) * 10 ^ step := by
  have hlength : 0 < digits.length := List.length_pos_iff.2 h
  unfold numeral
  dsimp only
  split
  · split
    · next hstep =>
      have hall : Nat.ofDigitChars 10 (digits ++ List.replicate step.toNat '0' ++ ['0']) 0 =
          10 ^ step.toNat * Nat.ofDigitChars 10 digits 0 * 10 := by
        rw [Nat.ofDigitChars_append, Nat.ofDigitChars_append, Nat.ofDigitChars_replicate_zero,
          Nat.mul_comm _ 10]
        rfl
      have hpow : (10 : ℚ) ^ step = 10 ^ step.toNat := by
        rw [← zpow_natCast, Int.toNat_of_nonneg hstep]
      have hplace : (10 : ℚ) ^ (0 - 1 : Int) = 1 / 10 := by norm_num
      rw [Numeral.value, Numeral.digits, Option.getD_some, Option.getD_none, hall, hpow]
      simp only [List.length_singleton, Nat.cast_one, hplace]
      push_cast
      ring
    · split
      · rw [Numeral.value, Numeral.digits, Option.getD_some, Option.getD_none,
          List.take_append_drop, List.length_drop]
        congr 2
        omega
      · have hall : Nat.ofDigitChars 10
            (['0'] ++ (List.replicate (-(step + digits.length - 1) - 1).toNat '0' ++ digits)) 0 =
            Nat.ofDigitChars 10 digits 0 := by
          rw [Nat.ofDigitChars_append, Nat.ofDigitChars_append, Nat.ofDigitChars_replicate_zero]
          rfl
        rw [Numeral.value, Numeral.digits, Option.getD_some, Option.getD_none, hall,
          List.length_append, List.length_replicate]
        congr 2
        omega
  · have htail : (if (digits.drop 1).isEmpty then none else some (digits.drop 1)).getD [] =
        digits.drop 1 := by
      split
      · next hempty => simpa using (List.isEmpty_iff.1 hempty).symm
      · rfl
    rw [Numeral.value, Numeral.digits, htail, List.take_append_drop, Option.getD_some,
      List.length_drop]
    congr 2
    omega

/-- A number with the other sign: the highest bit is turned round. -/
def opposite (x : Binary64) : Binary64 := ⟨x.bits + 0x8000000000000000⟩

variable {x : Binary64}

theorem toNat_opposite (x : Binary64) : x.opposite.bits.toNat = (x.bits.toNat + 2 ^ 63) % 2 ^ 64 := by
  rw [opposite, UInt64.toNat_add]
  rfl

theorem fraction_opposite (x : Binary64) : x.opposite.fraction = x.fraction := by
  rw [fraction, fraction, toNat_opposite]
  simp only [hiddenBit]
  omega

theorem biased_opposite (x : Binary64) : x.opposite.biased = x.biased := by
  rw [biased, biased, toNat_opposite]
  simp only [hiddenBit]
  omega

theorem significand_opposite (x : Binary64) : x.opposite.significand = x.significand := by
  rw [significand, significand, biased_opposite, fraction_opposite]

theorem window_opposite (x : Binary64) : x.opposite.window = x.window := by
  unfold window power
  rw [significand_opposite, biased_opposite, fraction_opposite]

theorem opposite_opposite (x : Binary64) : x.opposite.opposite = x := by
  have hbits : x.opposite.opposite.bits.toNat = x.bits.toNat := by
    have hlt := x.bits.toNat_lt
    rw [toNat_opposite, toNat_opposite]
    omega
  exact congrArg mk (UInt64.toNat_inj.1 hbits)

theorem unsigned_opposite (hfinite : x.isFinite = true) (hneg : x.isNegative = true) :
    x.opposite.Unsigned := by
  constructor
  · rw [isFinite, biased_opposite]
    exact hfinite
  · have hsign : UInt64.size / 2 ≤ x.bits.toNat := of_decide_eq_true hneg
    have hlt := x.bits.toNat_lt
    refine decide_eq_false ?_
    rw [toNat_opposite]
    simp only [UInt64.size] at hsign ⊢
    omega

/-- The text of a finite number without its sign. -/
def unsignedText (x : Binary64) : String :=
  if x.isZero then "0.0" else magnitudeText (Nat.toDigits 10 x.shortest.1) x.shortest.2

theorem text_eq (hx : x.isFinite = true) :
    x.text = (if x.isNegative then "-" else "") ++ x.unsignedText := by
  unfold text unsignedText
  obtain ⟨digits, step⟩ := x.shortest
  rw [hx, Bool.not_true, if_neg Bool.false_ne_true]

theorem unsignedText_opposite (x : Binary64) : x.opposite.unsignedText = x.unsignedText := by
  unfold unsignedText isZero shortest
  rw [significand_opposite, window_opposite]

theorem window_contains_zero (hx : x.isZero = true) : x.window.Contains 0 := by
  have hsignificand : x.significand = 0 := of_decide_eq_true hx
  have hvalue : x.window.value = 0 := by
    have hproduct : x.window.value = 4 * x.significand * Nat.pow 2 x.power := rfl
    rw [hproduct, hsignificand, Nat.mul_zero, Nat.zero_mul]
  have hclosed : x.window.closed = true := decide_eq_true (by rw [hsignificand])
  refine ⟨?_, ?_, fun hopen => ?_⟩
  · rw [hvalue, zero_mul, zero_add]
    exact_mod_cast Nat.zero_le _
  · rw [hvalue, zero_mul]
    exact_mod_cast Nat.zero_le _
  · simp [hclosed] at hopen

/-- Without its sign the text of a finite number is a real numeral that rounds to it. -/
theorem exists_numeral (hx : x.Unsigned) : ∃ n : Numeral,
    Numeral.read x.unsignedText.toList = some n ∧ n.isReal = true ∧ Rounds n.value x := by
  unfold unsignedText
  split
  · next hzero =>
    refine ⟨⟨['0'], some ['0'], none⟩, rfl, rfl, ?_⟩
    have hvalue : Numeral.value ⟨['0'], some ['0'], none⟩ = 0 := by
      rw [Numeral.value, Numeral.digits]
      simp
      rfl
    rw [hvalue]
    exact rounds_of_contains hx (window_contains_zero hzero)
  · next hzero =>
    have hdigits := Numeral.areDigits_toDigits x.shortest.1
    refine ⟨numeral (Nat.toDigits 10 x.shortest.1) x.shortest.2, ?_, numeral_isReal, ?_⟩
    · rw [magnitudeText_eq]
      exact Numeral.read_text (numeral_proper hdigits)
    · rw [numeral_value Nat.toDigits_ne_nil, Nat.ofDigitChars_ten_toDigits]
      exact rounds_of_contains hx (shortest_contained (Bool.eq_false_iff.2 hzero))

end Binary64

end Flowgraph
