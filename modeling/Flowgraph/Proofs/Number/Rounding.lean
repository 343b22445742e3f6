import Flowgraph.Number.Shortest
import Mathlib.Algebra.Order.Field.Basic
import Mathlib.Algebra.Order.Ring.Abs
import Mathlib.Data.Rat.Cast.Order
import Mathlib.Order.Monotone.Basic
import Mathlib.Tactic.Linarith
import Mathlib.Tactic.NormNum
import Mathlib.Tactic.Ring

/-! Rounding to binary64. A number rounds to the finite one that is nearest to it, and halfway between
two of them to the even one. The window of a number is what rounds to it. -/

namespace Flowgraph.Binary64

/-- Finite numbers that are not negative stand in the order of their bits. This is the one with given
bits, in units of the least positive one. -/
def rung (n : Nat) : Nat :=
  if n / hiddenBit = 0 then n % hiddenBit else (n % hiddenBit + hiddenBit) * 2 ^ (n / hiddenBit - 1)

/-- The distance to the next one. -/
def gap (n : Nat) : Nat := 2 ^ (n / hiddenBit - 1)

theorem rung_of {b f : Nat} (hf : f < hiddenBit) :
    rung (hiddenBit * b + f) = if b = 0 then f else (f + hiddenBit) * 2 ^ (b - 1) := by
  have hdiv : (hiddenBit * b + f) / hiddenBit = b := by
    rw [Nat.mul_add_div (by decide), Nat.div_eq_of_lt hf, Nat.add_zero]
  rw [rung, hdiv, Nat.mul_add_mod, Nat.mod_eq_of_lt hf]

theorem gap_of {b f : Nat} (hf : f < hiddenBit) : gap (hiddenBit * b + f) = 2 ^ (b - 1) := by
  rw [gap, Nat.mul_add_div (by decide), Nat.div_eq_of_lt hf, Nat.add_zero]

theorem exists_split (n : Nat) : ∃ b f, f < hiddenBit ∧ n = hiddenBit * b + f :=
  ⟨n / hiddenBit, n % hiddenBit, Nat.mod_lt n (by decide), (Nat.div_add_mod n hiddenBit).symm⟩

theorem rung_succ (n : Nat) : rung (n + 1) = rung n + gap n := by
  obtain ⟨b, f, hf, rfl⟩ := exists_split n
  rw [rung_of hf, gap_of hf, Nat.add_assoc]
  by_cases hlast : f + 1 < hiddenBit
  · rw [rung_of hlast]
    cases b with
    | zero => rfl
    | succ b =>
      rw [if_neg b.succ_ne_zero, if_neg b.succ_ne_zero]
      ring
  · -- the exponent goes up by one, and the fraction starts again from zero
    obtain rfl : f = hiddenBit - 1 := by omega
    have hnext : hiddenBit * b + (hiddenBit - 1 + 1) = hiddenBit * (b + 1) + 0 := by
      rw [Nat.mul_add]
      rfl
    rw [hnext, rung_of (by decide), if_neg b.succ_ne_zero]
    cases b with
    | zero => rfl
    | succ b =>
      rw [if_neg b.succ_ne_zero, Nat.add_sub_cancel, Nat.add_sub_cancel, Nat.pow_succ,
        ← Nat.succ_mul]
      simp only [hiddenBit]
      ring

theorem gap_pos (n : Nat) : 0 < gap n := Nat.two_pow_pos _

theorem rung_strictMono : StrictMono rung := by
  refine strictMono_nat_of_lt_succ fun n => ?_
  rw [rung_succ]
  exact Nat.lt_add_of_pos_right (gap_pos n)

/-- Those that come after one are at least as far away as the next. -/
theorem rung_add_gap_le {n m : Nat} (h : n < m) : rung n + gap n ≤ rung m :=
  rung_succ n ▸ rung_strictMono.monotone h

theorem cast_rung_add_gap_le {n m : Nat} (h : n < m) : (rung n : ℚ) + gap n ≤ rung m := by
  exact_mod_cast rung_add_gap_le h

/-- Those that come before one are at most as high as the one right before it. -/
theorem exists_cast_rung_le {n m : Nat} (h : m < n) : ∃ k, n = k + 1 ∧ (rung m : ℚ) ≤ rung k := by
  obtain ⟨k, rfl⟩ := Nat.exists_eq_add_one_of_ne_zero (Nat.ne_zero_of_lt h)
  exact ⟨k, rfl, Nat.cast_le.2 (rung_strictMono.monotone (Nat.le_of_lt_succ h))⟩

variable {x y : Binary64} {q : ℚ}

/-- It is finite and has no sign. -/
def Unsigned (x : Binary64) : Prop := x.isFinite = true ∧ x.isNegative = false

theorem unsigned_iff : x.Unsigned ↔ x.bits.toNat < 2047 * hiddenBit := by
  have hbits := x.bits.toNat_lt
  have hfinite : x.isFinite = true ↔ x.biased < 2047 := decide_eq_true_iff
  have hsign : x.isNegative = false ↔ ¬ UInt64.size / 2 ≤ x.bits.toNat := decide_eq_false_iff_not
  rw [Unsigned, hfinite, hsign]
  simp only [biased, hiddenBit, UInt64.size]
  omega

/-- A number in units of the least positive one. -/
def height (q : ℚ) : ℚ := q * 2 ^ 1074

/-- The number that a finite one stands for, without its sign. -/
def magnitude (x : Binary64) : ℚ := (x.significand * 2 ^ x.power : ℕ) / 2 ^ 1074

/-- A number rounds to the nearest one. Beyond the last there is none from half the last gap on. -/
structure Rounds (q : ℚ) (x : Binary64) : Prop where
  unsigned : x.Unsigned
  bounded : q < (2 ^ 54 - 1) * 2 ^ 970
  nearest : ∀ y : Binary64, y.Unsigned → |x.magnitude - q| ≤ |y.magnitude - q|
  even : ∀ y : Binary64, y.Unsigned → |y.magnitude - q| = |x.magnitude - q| → y ≠ x →
    x.significand % 2 = 0

theorem biased_of_unsigned (hx : x.Unsigned) : x.biased = x.bits.toNat / hiddenBit := by
  have hlt := unsigned_iff.1 hx
  exact Nat.mod_eq_of_lt (by simp only [hiddenBit] at hlt ⊢; omega)

theorem significand_mul_power (hx : x.Unsigned) :
    x.significand * 2 ^ x.power = rung x.bits.toNat := by
  unfold significand power fraction rung
  rw [biased_of_unsigned hx]
  split
  · next h => rw [h, Nat.zero_sub, Nat.pow_zero, Nat.mul_one]
  · rfl

theorem gap_eq (hx : x.Unsigned) : gap x.bits.toNat = 2 ^ x.power := by
  rw [gap, power, biased_of_unsigned hx]

theorem significand_mod_two (x : Binary64) : x.significand % 2 = x.bits.toNat % 2 := by
  unfold significand fraction
  split <;> simp only [hiddenBit] <;> omega

theorem magnitude_eq (hx : x.Unsigned) : x.magnitude = rung x.bits.toNat / 2 ^ 1074 := by
  rw [magnitude, significand_mul_power hx]

/-- The distance of a number from one of them, in units of the least positive one. -/
theorem distance_eq (hx : x.Unsigned) (q : ℚ) :
    |x.magnitude - q| = |(rung x.bits.toNat : ℚ) - height q| / 2 ^ 1074 := by
  have hunit : (0 : ℚ) < 2 ^ 1074 := by positivity
  rw [magnitude_eq hx, height, ← abs_of_pos hunit, ← abs_div, abs_of_pos hunit, sub_div,
    mul_div_cancel_right₀ q hunit.ne']

theorem distance_le_iff (hx : x.Unsigned) (hy : y.Unsigned) :
    |x.magnitude - q| ≤ |y.magnitude - q| ↔
      |(rung x.bits.toNat : ℚ) - height q| ≤ |(rung y.bits.toNat : ℚ) - height q| := by
  rw [distance_eq hx, distance_eq hy, div_le_div_iff_of_pos_right (by positivity)]

section

variable {a b t : ℚ}

theorem nearer_below (hab : a ≤ b) (ht : 2 * t ≤ a + b) : |a - t| ≤ |b - t| := by
  have hb : t ≤ b := by linarith
  rw [abs_of_nonneg (sub_nonneg.2 hb), abs_le]
  constructor <;> linarith

theorem nearer_above (hab : b ≤ a) (ht : a + b ≤ 2 * t) : |a - t| ≤ |b - t| := by
  have hb : b ≤ t := by linarith
  rw [abs_of_nonpos (sub_nonpos.2 hb), abs_le]
  constructor <;> linarith

theorem halfway_of_eq (hne : a ≠ b) (h : |a - t| = |b - t|) : 2 * t = a + b := by
  rcases abs_eq_abs.1 h with heq | heq
  · exact absurd (sub_left_injective heq) hne
  · linarith

end

theorem ne_of_rung (h : x ≠ y) : (rung x.bits.toNat : ℚ) ≠ rung y.bits.toNat := by
  intro heq
  refine h ?_
  cases x
  cases y
  exact congrArg mk (UInt64.toNat_inj.1 (rung_strictMono.injective (Nat.cast_injective heq)))

/-- A number that is as far from one as from another lies halfway between them. -/
theorem halfway_of_distance_eq (hx : x.Unsigned) (hy : y.Unsigned) (hne : x ≠ y)
    (heq : |x.magnitude - q| = |y.magnitude - q|) :
    2 * height q = rung x.bits.toNat + rung y.bits.toNat := by
  refine halfway_of_eq (ne_of_rung hne) ?_
  exact le_antisymm ((distance_le_iff hx hy).1 heq.le) ((distance_le_iff hy hx).1 heq.ge)

/-- No two numbers are what a number rounds to. -/
theorem Rounds.unique (hx : Rounds q x) (hy : Rounds q y) : x = y := by
  by_contra hne
  wlog hlt : x.bits.toNat < y.bits.toNat generalizing x y
  · refine this hy hx (Ne.symm hne) (lt_of_le_of_ne (Nat.le_of_not_lt hlt) ?_)
    intro heq
    exact ne_of_rung (Ne.symm hne) (by rw [heq])
  have hsame : |x.magnitude - q| = |y.magnitude - q| :=
    le_antisymm (hx.nearest y hy.unsigned) (hy.nearest x hx.unsigned)
  have hhalfway := halfway_of_distance_eq hx.unsigned hy.unsigned hne hsame
  have hxeven := hx.even y hy.unsigned hsame.symm (Ne.symm hne)
  have hyeven := hy.even x hx.unsigned hsame hne
  rw [significand_mod_two] at hxeven hyeven
  -- both are even, so there is one between them, and that one is nearer
  have hbound := unsigned_iff.1 hy.unsigned
  let z : Binary64 := ⟨UInt64.ofNat (x.bits.toNat + 1)⟩
  have hz : z.bits.toNat = x.bits.toNat + 1 :=
    UInt64.toNat_ofNat_of_lt' (by simp only [hiddenBit, UInt64.size] at hbound ⊢; omega)
  have hzunsigned : z.Unsigned := unsigned_iff.2 (by omega)
  have hnear := (distance_le_iff hx.unsigned hzunsigned).1 (hx.nearest z hzunsigned)
  have hxz : (rung x.bits.toNat : ℚ) < rung z.bits.toNat :=
    Nat.cast_lt.2 (rung_strictMono (by omega))
  have hzy : (rung z.bits.toNat : ℚ) < rung y.bits.toNat :=
    Nat.cast_lt.2 (rung_strictMono (by omega))
  have hback : |(rung x.bits.toNat : ℚ) - height q| = rung y.bits.toNat - height q := by
    rw [abs_of_nonpos] <;> linarith
  rw [hback, le_abs] at hnear
  rcases hnear with h | h <;> linarith

/-- A number lies in a window, at an end only if that belongs to it. -/
structure Window.Contains (w : Window) (q : ℚ) : Prop where
  low : (w.value : ℚ) ≤ q * w.unit + w.below
  high : q * w.unit ≤ w.value + w.above
  inner : w.closed = false → w.value ≠ q * w.unit + w.below ∧ q * w.unit ≠ w.value + w.above

theorem window_value (hx : x.Unsigned) : x.window.value = 4 * rung x.bits.toNat := by
  rw [window, Nat.mul_assoc]
  exact congrArg (4 * ·) (significand_mul_power hx)

theorem window_above (hx : x.Unsigned) : x.window.above = 2 * gap x.bits.toNat :=
  congrArg (2 * ·) (gap_eq hx).symm

/-- Below a number lies half the gap that leads up to it. -/
theorem window_below (hx : x.Unsigned) {n : Nat} (hn : x.bits.toNat = n + 1) :
    x.window.below = 2 * gap n := by
  have hbelow : x.window.below =
      (if x.fraction = 0 ∧ 1 < x.biased then 1 else 2) * 2 ^ (x.biased - 1) := rfl
  rw [hbelow, fraction, biased_of_unsigned hx, hn]
  obtain ⟨b, f, hf, hsplit⟩ := exists_split (n + 1)
  rw [hsplit, Nat.mul_add_mod, Nat.mod_eq_of_lt hf, Nat.mul_add_div (by decide),
    Nat.div_eq_of_lt hf, Nat.add_zero]
  cases f with
  | succ f =>
    obtain rfl : n = hiddenBit * b + f := Nat.succ.inj hsplit
    rw [gap_of (Nat.lt_of_succ_lt hf), if_neg (by simp)]
  | zero =>
    -- the number is a power of two, and the exponent below it is one less
    cases b with
    | zero => simp at hsplit
    | succ b =>
      obtain rfl : n = hiddenBit * b + (hiddenBit - 1) := by
        rw [Nat.mul_add] at hsplit
        simp only [hiddenBit] at hsplit ⊢
        omega
      rw [gap_of (by decide)]
      cases b with
      | zero => rfl
      | succ b =>
        rw [if_pos ⟨rfl, by omega⟩, Nat.add_sub_cancel, Nat.add_sub_cancel, Nat.pow_succ]
        ring

theorem pow_of_eq_add {n a b : Nat} (h : n = a + b) : Nat.pow 2 n = 2 ^ a * 2 ^ b := by
  rw [h]
  exact Nat.pow_add 2 a b

theorem window_unit (x : Binary64) : x.window.unit = 2 ^ 1074 * 2 ^ 2 := by
  unfold window
  dsimp only
  rw [@pow_of_eq_add 1076 1074 2 rfl]

theorem mul_window_unit (x : Binary64) (q : ℚ) : q * x.window.unit = 4 * height q := by
  rw [window_unit, height, Nat.cast_mul, Nat.cast_pow, Nat.cast_ofNat]
  generalize (2 : ℚ) ^ 1074 = u
  norm_num
  ring

/-- What lies in the window of a number is no further from it than half the gaps around it. -/
theorem height_le (hx : x.Unsigned) (h : x.window.Contains q) :
    2 * height q ≤ 2 * rung x.bits.toNat + gap x.bits.toNat := by
  have hend := h.high
  rw [mul_window_unit, window_value hx, window_above hx] at hend
  push_cast at hend
  linarith

theorem le_height (hx : x.Unsigned) (h : x.window.Contains q) {n : Nat}
    (hn : x.bits.toNat = n + 1) : (rung n : ℚ) + rung x.bits.toNat ≤ 2 * height q := by
  have hend := h.low
  rw [mul_window_unit, window_value hx, window_below hx hn, hn, rung_succ] at hend
  rw [hn, rung_succ]
  push_cast at hend ⊢
  linarith

/-- An end belongs to the window of an even number only. -/
theorem even_of_end (hx : x.Unsigned) (h : x.window.Contains q)
    (hend : 2 * height q = 2 * rung x.bits.toNat + gap x.bits.toNat ∨
      ∃ n, x.bits.toNat = n + 1 ∧ 2 * height q = rung n + rung x.bits.toNat) :
    x.significand % 2 = 0 := by
  by_contra hodd
  obtain ⟨hlow, hhigh⟩ := h.inner (decide_eq_false hodd)
  rw [mul_window_unit, window_value hx] at hlow hhigh
  rcases hend with hend | ⟨n, hn, hend⟩
  · rw [window_above hx] at hhigh
    refine hhigh ?_
    push_cast
    linarith
  · rw [window_below hx hn, hn, rung_succ] at hlow
    rw [hn, rung_succ] at hend
    refine hlow ?_
    push_cast at hend ⊢
    linarith

theorem height_lt_iff {r : ℚ} : height q < height r ↔ q < r :=
  mul_lt_mul_iff_of_pos_right (by positivity)

/-- Half a gap past the last number. -/
theorem height_limit : height ((2 ^ 54 - 1) * 2 ^ 970) =
    rung (2047 * hiddenBit - 1) + gap (2047 * hiddenBit - 1) / 2 := by
  have hlast : 2047 * hiddenBit - 1 = hiddenBit * 2046 + (hiddenBit - 1) := rfl
  have hpow : (2 : ℚ) ^ (2046 - 1) = 2 * (2 ^ 970 * 2 ^ 1074) := by
    rw [← pow_add, ← pow_succ']
  rw [hlast, rung_of (by decide), gap_of (by decide), if_neg (by decide), height, mul_assoc,
    Nat.cast_mul, Nat.cast_pow, Nat.cast_ofNat, hpow]
  generalize (2 : ℚ) ^ 970 * 2 ^ 1074 = u
  simp only [hiddenBit]
  push_cast
  ring

theorem lt_limit_of_contains (hx : x.Unsigned) (h : x.window.Contains q) :
    q < (2 ^ 54 - 1) * 2 ^ 970 := by
  rw [← height_lt_iff, height_limit]
  have hhigh := height_le hx h
  rcases Nat.lt_or_eq_of_le (Nat.le_sub_one_of_lt (unsigned_iff.1 hx)) with hlt | heq
  · have hgap := cast_rung_add_gap_le hlt
    have hpos : (0 : ℚ) < gap x.bits.toNat := Nat.cast_pos.2 (gap_pos _)
    have hlast : (0 : ℚ) < gap (2047 * hiddenBit - 1) := Nat.cast_pos.2 (gap_pos _)
    linarith
  · -- the last number is odd, so that its window does not reach the end
    have hodd : x.significand % 2 ≠ 0 := by
      rw [significand_mod_two, heq]
      decide
    have hne : 2 * height q ≠ 2 * rung x.bits.toNat + gap x.bits.toNat :=
      fun hend => hodd (even_of_end hx h (Or.inl hend))
    have hlt := lt_of_le_of_ne hhigh hne
    rw [heq] at hlt
    linarith

theorem nearest_of_contains (hx : x.Unsigned) (h : x.window.Contains q) (hy : y.Unsigned) :
    |x.magnitude - q| ≤ |y.magnitude - q| := by
  rw [distance_le_iff hx hy]
  rcases Nat.lt_trichotomy x.bits.toNat y.bits.toNat with hlt | heq | hgt
  · have hgap := cast_rung_add_gap_le hlt
    have hpos : (0 : ℚ) ≤ gap x.bits.toNat := Nat.cast_nonneg _
    have hhigh := height_le hx h
    exact nearer_below (by linarith) (by linarith)
  · rw [heq]
  · obtain ⟨n, hn, hyn⟩ := exists_cast_rung_le hgt
    have hnx : (rung n : ℚ) ≤ rung x.bits.toNat :=
      Nat.cast_le.2 (rung_strictMono.monotone (hn ▸ n.le_succ))
    have hlow := le_height hx h hn
    exact nearer_above (by linarith) (by linarith)

/-- What lies in the window of a number and is as close to another one lies at an end. -/
theorem even_of_contains (hx : x.Unsigned) (h : x.window.Contains q) (hy : y.Unsigned)
    (heq : |y.magnitude - q| = |x.magnitude - q|) (hne : y ≠ x) : x.significand % 2 = 0 := by
  have hhalfway := halfway_of_distance_eq hx hy hne.symm heq.symm
  refine even_of_end hx h ?_
  rcases lt_or_gt_of_ne (ne_of_rung hne) with hlt | hgt
  · obtain ⟨n, hn, hyn⟩ := exists_cast_rung_le (rung_strictMono.lt_iff_lt.1 (Nat.cast_lt.1 hlt))
    have hlow := le_height hx h hn
    exact Or.inr ⟨n, hn, by linarith⟩
  · have hgap := cast_rung_add_gap_le (rung_strictMono.lt_iff_lt.1 (Nat.cast_lt.1 hgt))
    have hhigh := height_le hx h
    exact Or.inl (by linarith)

/-- A number rounds to the one in whose window it lies. -/
theorem rounds_of_contains (hx : x.Unsigned) (h : x.window.Contains q) : Rounds q x where
  unsigned := hx
  bounded := lt_limit_of_contains hx h
  nearest _ hy := nearest_of_contains hx h hy
  even _ hy heq hne := even_of_contains hx h hy heq hne

end Flowgraph.Binary64
