import Flowgraph.Proofs.Number.Rounding
import Mathlib.Algebra.Order.Field.Power

/-! The shortest digits of a number round to it. A grid finer than its window has a point in the window,
and sixteen places after the leading one the grid is that fine. -/

namespace Flowgraph.Binary64

namespace Window

variable {w : Window} {n : Nat} {step : Int}

theorem holds_of_nearest? (h : w.nearest? = some n) : w.holds n = true := by
  unfold nearest? at h
  dsimp only at h
  split at h
  · cases h
  · next hlow _ => exact Option.some.inj h ▸ hlow
  · next _ hhigh => exact Option.some.inj h ▸ hhigh
  · next hlow hhigh =>
    split at h
    · exact Option.some.inj h ▸ hlow
    · split at h
      · exact Option.some.inj h ▸ hhigh
      · split at h
        · exact Option.some.inj h ▸ hlow
        · exact Option.some.inj h ▸ hhigh

/-- A window that is wider than a step has a whole number of steps in it. -/
theorem exists_nearest? (hunit : 0 < w.unit) (habove : 0 < w.above)
    (hwide : w.unit < w.below + w.above) : ∃ n, w.nearest? = some n := by
  have hlow : w.value / w.unit * w.unit ≤ w.value := Nat.div_mul_le_self _ _
  have hhigh : w.value < w.value / w.unit * w.unit + w.unit := Nat.lt_div_mul_add hunit
  have hholds : w.holds (w.value / w.unit) = true ∨ w.holds (w.value / w.unit + 1) = true := by
    unfold holds
    rw [Nat.add_mul, Nat.one_mul]
    split <;> simp only [Bool.and_eq_true, decide_eq_true_eq] <;> omega
  unfold nearest?
  dsimp only
  split
  · next hlow hhigh => simp [hlow, hhigh] at hholds
  · exact ⟨_, rfl⟩
  · exact ⟨_, rfl⟩
  · split
    · exact ⟨_, rfl⟩
    · split
      · exact ⟨_, rfl⟩
      · split <;> exact ⟨_, rfl⟩

theorem contains_of_holds (h : w.holds n = true) : w.Contains n := by
  unfold holds at h
  split at h
  · next hclosed =>
    simp only [Bool.and_eq_true, decide_eq_true_eq] at h
    refine ⟨by exact_mod_cast h.1, by exact_mod_cast h.2, fun hopen => ?_⟩
    simp [hclosed] at hopen
  · simp only [Bool.and_eq_true, decide_eq_true_eq] at h
    refine ⟨by exact_mod_cast h.1.le, by exact_mod_cast h.2.le, fun _ => ⟨?_, ?_⟩⟩
    · exact_mod_cast h.1.ne
    · exact_mod_cast h.2.ne

theorem cast_pow_toNat (h : 0 ≤ step) : ((Nat.pow 10 step.toNat : ℕ) : ℚ) = 10 ^ step := by
  rw [Nat.pow_eq, Nat.cast_pow, Nat.cast_ofNat, ← zpow_natCast, Int.toNat_of_nonneg h]

theorem zpow_mul_cast_pow (h : step ≤ 0) :
    (10 : ℚ) ^ step * (Nat.pow 10 (-step).toNat : ℕ) = 1 := by
  rw [cast_pow_toNat (Int.neg_nonneg.2 h), ← zpow_add₀ (by norm_num), Int.add_right_neg, zpow_zero]

/-- In steps of a power of ten a number lies where it lies. -/
theorem contains_of_rescale {q : ℚ} (h : (w.rescale step).Contains q) :
    w.Contains (q * 10 ^ step) := by
  unfold rescale at h
  split at h
  · next hstep =>
    have hunit : q * (w.unit * Nat.pow 10 step.toNat : ℕ) = q * 10 ^ step * w.unit := by
      rw [Nat.cast_mul, cast_pow_toNat hstep]
      ring
    obtain ⟨hlow, hhigh, hinner⟩ := h
    dsimp only at hlow hhigh hinner
    rw [hunit] at hlow hhigh hinner
    exact ⟨hlow, hhigh, hinner⟩
  · next hstep =>
    have hpow := zpow_mul_cast_pow (Int.le_of_not_le hstep)
    have hpos : (0 : ℚ) < (Nat.pow 10 (-step).toNat : ℕ) := Nat.cast_pos.2 (Nat.pow_pos (by decide))
    generalize Nat.pow 10 (-step).toNat = c at h hpow hpos
    have hunit : q * w.unit = q * 10 ^ step * w.unit * c := by
      calc q * w.unit = q * w.unit * (10 ^ step * c) := by rw [hpow, mul_one]
        _ = q * 10 ^ step * w.unit * c := by ring
    obtain ⟨hlow, hhigh, hinner⟩ := h
    dsimp only at hlow hhigh hinner
    rw [hunit] at hlow hhigh hinner
    push_cast at hlow hhigh hinner
    rw [← add_mul] at hlow hhigh hinner
    refine ⟨le_of_mul_le_mul_right hlow hpos, le_of_mul_le_mul_right hhigh hpos, fun hopen => ?_⟩
    obtain ⟨hlow, hhigh⟩ := hinner hopen
    rw [← add_mul] at hhigh
    exact ⟨fun he => hlow (congrArg (· * (c : ℚ)) he), fun he => hhigh (congrArg (· * (c : ℚ)) he)⟩

/-- Where a step is less than the window is wide, a whole number of steps lies in the window. -/
theorem exists_nearest?_rescale (hunit : 0 < w.unit) (habove : 0 < w.above)
    (hwide : (w.unit : ℚ) * 10 ^ step < w.below + w.above) :
    ∃ n, (w.rescale step).nearest? = some n := by
  have hpos : ∀ m, 0 < Nat.pow 10 m := fun m => Nat.pow_pos (by decide)
  unfold rescale
  split
  · next hstep =>
    refine exists_nearest? (Nat.mul_pos hunit (hpos _)) habove ?_
    rw [← cast_pow_toNat hstep] at hwide
    exact_mod_cast hwide
  · next hstep =>
    refine exists_nearest? hunit (Nat.mul_pos habove (hpos _)) ?_
    have hpow := zpow_mul_cast_pow (Int.le_of_not_le hstep)
    have hmore := mul_lt_mul_of_pos_right hwide (Nat.cast_pos (α := ℚ).2 (hpos (-step).toNat))
    rw [mul_assoc, hpow, mul_one] at hmore
    dsimp only
    rw [← Nat.add_mul]
    exact_mod_cast hmore

theorem pow_length_le (h : 0 < n) : 10 ^ ((Nat.toDigits 10 n).length - 1) ≤ n := by
  rcases Nat.eq_zero_or_pos ((Nat.toDigits 10 n).length - 1) with hlength | hlength
  · rw [hlength]
    exact h
  · have hiff := Nat.length_toDigits_le_iff (n := n) (by decide : 1 < 10) hlength
    have hpos := Nat.length_toDigits_pos (b := 10) (n := n)
    exact Nat.le_of_not_lt fun hlt => by have := hiff.2 hlt; omega

/-- The first digit does not stand too far to the left. -/
theorem unit_mul_zpow_leading_le (hunit : 0 < w.unit) (hleast : w.unit ≤ w.value * Nat.pow 10 400) :
    (w.unit : ℚ) * 10 ^ w.leading ≤ w.value := by
  have hcount : 0 < w.value * Nat.pow 10 400 / w.unit := Nat.div_pos hleast hunit
  have hdigits := (Nat.mul_le_mul_right w.unit (pow_length_le hcount)).trans (Nat.div_mul_le_self _ _)
  have hpos := Nat.length_toDigits_pos (b := 10) (n := w.value * Nat.pow 10 400 / w.unit)
  have hshift : ((Nat.pow 10 400 : ℕ) : ℚ) = 10 ^ (400 : ℤ) :=
    @cast_pow_toNat 400 (by decide)
  have hshiftpos : (0 : ℚ) < 10 ^ (400 : ℤ) := by positivity
  unfold leading
  generalize (Nat.toDigits 10 (w.value * Nat.pow 10 400 / w.unit)).length = length at hdigits hpos
  have hpow : (10 : ℚ) ^ ((length : ℤ) - 401) * 10 ^ (400 : ℤ) = 10 ^ (length - 1) := by
    rw [← zpow_natCast, ← zpow_add₀ (by norm_num)]
    congr 1
    omega
  have hcast : (10 : ℚ) ^ (length - 1) * w.unit ≤ w.value * 10 ^ (400 : ℤ) := by
    rw [← hshift]
    exact_mod_cast hdigits
  refine le_of_mul_le_mul_right ?_ hshiftpos
  rw [mul_assoc, hpow, mul_comm]
  exact hcast

end Window

variable {x : Binary64}

theorem two_pow_le : 2 ^ 1074 * 2 ^ 2 ≤ 4 * Nat.pow 10 400 := by decide +kernel

theorem unit_le_of_pos (hx : x.isZero = false) :
    x.window.unit ≤ x.window.value * Nat.pow 10 400 := by
  have hsignificand : 0 < x.significand := Nat.pos_of_ne_zero (of_decide_eq_false hx)
  have hvalue : 4 ≤ x.window.value :=
    calc 4 ≤ 4 * x.significand := by omega
      _ ≤ 4 * x.significand * Nat.pow 2 x.power := Nat.le_mul_of_pos_right _ (Nat.two_pow_pos _)
  rw [window_unit]
  exact two_pow_le.trans (Nat.mul_le_mul_right _ hvalue)

/-- A number is less than `10 ^ 16` times as large as its window is wide. -/
theorem value_lt_width (x : Binary64) :
    x.window.value < (x.window.below + x.window.above) * 10 ^ 16 := by
  have hlt := x.significand_lt
  have hpos : 0 < Nat.pow 2 x.power := Nat.two_pow_pos _
  unfold window
  dsimp only
  generalize Nat.pow 2 x.power = u at hpos
  have hscale : ∀ {a b : Nat}, a < b → a * u < b * u := fun h => Nat.mul_lt_mul_of_pos_right h hpos
  split
  · next h =>
    -- a power of two has half as wide a window below it, and the least significand
    have hsignificand : x.significand = hiddenBit := by
      rw [significand, if_neg (by omega), h.1, Nat.zero_add]
    rw [hsignificand]
    have hsmall := hscale (a := 4 * hiddenBit) (b := 3 * 10 ^ 16) (by decide)
    omega
  · have hsmall := hscale (a := 4 * x.significand) (b := 4 * 10 ^ 16)
      (by simp only [hiddenBit] at hlt; omega)
    omega

theorem window_unit_pos (x : Binary64) : 0 < x.window.unit := by
  rw [window_unit]
  positivity

theorem last_mem_grids (w : Window) : w.leading - 16 ∈ w.grids :=
  List.mem_map.2 ⟨16, by simp, by norm_num⟩

/-- On the last grid at the latest there is a number in the window. -/
theorem exists_hit? (hx : x.isZero = false) : ∃ hit, x.window.hit? = some hit := by
  have habove : 0 < x.window.above := Nat.mul_pos (by decide) (Nat.two_pow_pos _)
  have hleading := Window.unit_mul_zpow_leading_le (window_unit_pos x) (unit_le_of_pos hx)
  have hwidth : (x.window.value : ℚ) < (x.window.below + x.window.above) * 10 ^ 16 := by
    exact_mod_cast value_lt_width x
  have hpow : (10 : ℚ) ^ (x.window.leading - 16) * 10 ^ 16 = 10 ^ x.window.leading := by
    rw [← zpow_natCast, ← zpow_add₀ (by norm_num)]
    congr 1
    omega
  have hwide : (x.window.unit : ℚ) * 10 ^ (x.window.leading - 16) <
      x.window.below + x.window.above := by
    refine lt_of_mul_lt_mul_right ?_ (by norm_num : (0 : ℚ) ≤ 10 ^ 16)
    rw [mul_assoc, hpow]
    exact hleading.trans_lt hwidth
  obtain ⟨n, hn⟩ := Window.exists_nearest?_rescale (window_unit_pos x) habove hwide
  refine Option.isSome_iff_exists.1 (List.findSome?_isSome_iff.2 ⟨_, last_mem_grids _, ?_⟩)
  rw [hn]
  rfl

theorem Window.contains_of_hit? {w : Window} {n : Nat} {step : Int}
    (h : w.hit? = some (n, step)) : w.Contains (n * 10 ^ step) := by
  obtain ⟨step', -, hstep⟩ := List.exists_of_findSome?_eq_some h
  obtain ⟨n', hnearest, hpair⟩ := Option.map_eq_some_iff.1 hstep
  obtain ⟨rfl, rfl⟩ := Prod.mk.inj hpair
  exact contains_of_rescale (contains_of_holds (holds_of_nearest? hnearest))

/-- The shortest digits of a number lie in its window. -/
theorem shortest_contained (hx : x.isZero = false) :
    x.window.Contains (x.shortest.1 * 10 ^ x.shortest.2) := by
  obtain ⟨⟨n, step⟩, hhit⟩ := exists_hit? hx
  have hcontains := Window.contains_of_hit? hhit
  unfold shortest
  rw [hhit, settle]
  split
  · next hten =>
    have hvalue : ((1 : ℕ) : ℚ) * 10 ^ (step + 1) = (n : ℚ) * 10 ^ step := by
      rw [hten, zpow_add_one₀ (by norm_num)]
      push_cast
      ring
    rw [hvalue]
    exact hcontains
  · exact hcontains

end Flowgraph.Binary64
