import Flowgraph.Tracker
import Mathlib.Algebra.Group.Nat.Defs

/-! The delay before a retry against its rule: the base doubled with every attempt, up to the greatest
delay. The doubling stops after sixteen times. That shows only for a base so short that sixteen doublings
leave it below the greatest delay, and from the eighteenth attempt on. -/

namespace Flowgraph

/-- The base, doubled with every attempt after the first, up to the greatest delay. -/
def doubledDelay (base : Duration) (attempt : Nat) : Nat :=
  min (base.nanos * 2 ^ (attempt - 1)) maxRetryDelay.nanos

section

variable (base : Duration) (attempt : Nat)

/-- A product out of range is longer than the greatest delay, which is what stands for it. -/
theorem nanos_backoffDelay : (backoffDelay base attempt).nanos =
    min (base.nanos * 2 ^ min (attempt - 1) 16) maxRetryDelay.nanos := by
  rw [backoffDelay, Duration.min_nanos]
  change min ((base.times? (2 ^ min (attempt - 1) 16)).getD maxRetryDelay).nanos _ = _
  unfold Duration.times?
  split
  · rfl
  · next hrange =>
    have hcap := maxRetryDelay.inRange
    rw [Option.getD_none, Nat.min_self, Nat.min_eq_right (by omega)]

/-- Once the exponent is held back, so is the delay, unless the greatest delay is reached without. -/
theorem nanos_backoffDelay_eq_iff : (backoffDelay base attempt).nanos = doubledDelay base attempt ↔
    attempt ≤ 17 ∨ base.nanos = 0 ∨ maxRetryDelay.nanos ≤ base.nanos * 2 ^ 16 := by
  rw [nanos_backoffDelay, doubledDelay]
  by_cases hfew : attempt ≤ 17
  · rw [Nat.min_eq_left (by omega : attempt - 1 ≤ 16)]
    simp [hfew]
  · have hmany : 2 ^ 17 ≤ 2 ^ (attempt - 1) := Nat.pow_le_pow_right (by decide) (by omega)
    have hmore : base.nanos * 2 ^ 17 ≤ base.nanos * 2 ^ (attempt - 1) := Nat.mul_le_mul_left _ hmany
    rw [Nat.min_eq_right (by omega : 16 ≤ attempt - 1)]
    by_cases hzero : base.nanos = 0
    · simp [hzero]
    · omega

theorem nanos_backoffDelay_le : (backoffDelay base attempt).nanos ≤ doubledDelay base attempt := by
  have hfewer : 2 ^ min (attempt - 1) 16 ≤ 2 ^ (attempt - 1) :=
    Nat.pow_le_pow_right (by decide) (Nat.min_le_left ..)
  have hless : base.nanos * 2 ^ min (attempt - 1) 16 ≤ base.nanos * 2 ^ (attempt - 1) :=
    Nat.mul_le_mul_left _ hfewer
  rw [nanos_backoffDelay, doubledDelay]
  omega

theorem nanos_backoffDelay_mono {later : Nat} (h : attempt ≤ later) :
    (backoffDelay base attempt).nanos ≤ (backoffDelay base later).nanos := by
  have hfewer : 2 ^ min (attempt - 1) 16 ≤ 2 ^ min (later - 1) 16 :=
    Nat.pow_le_pow_right (by decide) (by omega)
  have hless : base.nanos * 2 ^ min (attempt - 1) 16 ≤ base.nanos * 2 ^ min (later - 1) 16 :=
    Nat.mul_le_mul_left _ hfewer
  rw [nanos_backoffDelay, nanos_backoffDelay]
  omega

end

/-! The same in words of 32 bits, where differences and powers stop at the ends of the range. -/

namespace Word

def saturatingSub (a b : UInt32) : UInt32 := if b ≤ a then a - b else 0

def saturatingPow (a : UInt32) (exponent : UInt32) : UInt32 :=
  if a.toNat ^ exponent.toNat < UInt32.size then .ofNat (a.toNat ^ exponent.toNat)
  else .ofNat (UInt32.size - 1)

def backoffDelay (base : Duration) (attempt : UInt32) : Duration :=
  let factor := saturatingPow 2 (min (saturatingSub attempt 1) 16)
  ((base.times? factor.toNat).getD maxRetryDelay).min maxRetryDelay

theorem toNat_saturatingSub (a b : UInt32) : (saturatingSub a b).toNat = a.toNat - b.toNat := by
  rw [saturatingSub]
  split
  · next h => exact UInt32.toNat_sub_of_le a b h
  · next h =>
    have hlt : a.toNat < b.toNat := UInt32.lt_iff_toNat_lt.1 (UInt32.not_le.1 h)
    simp only [UInt32.toNat_zero]
    omega

theorem toNat_saturatingPow {a exponent : UInt32} (h : a.toNat ^ exponent.toNat < UInt32.size) :
    (saturatingPow a exponent).toNat = a.toNat ^ exponent.toNat := by
  rw [saturatingPow, if_pos h]
  exact UInt32.toNat_ofNat_of_lt h

theorem toNat_min (a b : UInt32) : (min a b).toNat = min a.toNat b.toNat := by
  change (if a ≤ b then a else b).toNat = _
  split
  · next h => exact (Nat.min_eq_left (UInt32.le_iff_toNat_le.1 h)).symm
  · next h => exact (Nat.min_eq_right (Nat.le_of_not_le (mt UInt32.le_iff_toNat_le.2 h))).symm

/-- No power in the computation stops at the end of the range. -/
theorem backoffDelay_eq (base : Duration) (attempt : UInt32) :
    backoffDelay base attempt = Flowgraph.backoffDelay base attempt.toNat := by
  have hexponent : (min (saturatingSub attempt 1) 16).toNat = min (attempt.toNat - 1) 16 := by
    rw [toNat_min, toNat_saturatingSub]
    rfl
  have hpower : 2 ^ min (attempt.toNat - 1) 16 < UInt32.size :=
    Nat.lt_of_le_of_lt (Nat.pow_le_pow_right (by decide) (Nat.min_le_right ..)) (by decide)
  rw [backoffDelay, toNat_saturatingPow (hexponent ▸ hpower), hexponent]
  rfl

end Word

/-- The delay in words is the base doubled sixteen times at most, up to the greatest delay. It never
shrinks as the attempts go on and is never longer than by the rule; and it is as long unless more than
sixteen doublings were due and sixteen do not reach the greatest delay. -/
theorem backoff_doubled_iff (base : Duration) (attempt : UInt32) :
    Word.backoffDelay base attempt = backoffDelay base attempt.toNat ∧
      (Word.backoffDelay base attempt).nanos =
        min (base.nanos * 2 ^ min (attempt.toNat - 1) 16) maxRetryDelay.nanos ∧
      (∀ later, attempt ≤ later →
        (Word.backoffDelay base attempt).nanos ≤ (Word.backoffDelay base later).nanos) ∧
      (Word.backoffDelay base attempt).nanos ≤ doubledDelay base attempt.toNat ∧
      ((Word.backoffDelay base attempt).nanos = doubledDelay base attempt.toNat ↔
        attempt ≤ 17 ∨ base.nanos = 0 ∨ maxRetryDelay.nanos ≤ base.nanos * 2 ^ 16) := by
  have hwords := Word.backoffDelay_eq base
  simp only [hwords]
  refine ⟨trivial, nanos_backoffDelay .., fun later h => ?_, nanos_backoffDelay_le .., ?_⟩
  · exact nanos_backoffDelay_mono base _ (UInt32.le_iff_toNat_le.1 h)
  · rw [nanos_backoffDelay_eq_iff, UInt32.le_iff_toNat_le]
    rfl

/-- A quarter of a millisecond. -/
def shortBase : Duration := ⟨250000, by decide⟩

theorem shortBase_grows : (17 : UInt32) ≤ 4000000000 ∧
    (Word.backoffDelay shortBase 17).nanos ≤ (Word.backoffDelay shortBase 4000000000).nanos :=
  ⟨by decide, (backoff_doubled_iff shortBase 17).2.2.1 _ (by decide)⟩

/-- The eighteenth delay of a short base is the seventeenth once more. -/
theorem shortBase_not_doubled : ¬ ∀ (base : Duration) (attempt : UInt32), 1 ≤ attempt →
    (Word.backoffDelay base attempt).nanos = doubledDelay base attempt.toNat := by
  intro doubled
  have heighteenth := doubled shortBase 18 (by decide)
  rw [Word.backoffDelay_eq, nanos_backoffDelay] at heighteenth
  exact absurd heighteenth (by decide)

/-- A base of whole milliseconds keeps to the rule: sixteen doublings of one millisecond are more than the
greatest delay. -/
theorem backoff_doubled_of_millis (ms : UInt64) (attempt : Nat) :
    (backoffDelay (.ofMillis ms) attempt).nanos = doubledDelay (.ofMillis ms) attempt := by
  refine (nanos_backoffDelay_eq_iff _ _).2 (.inr ?_)
  change ms.toNat * 1000000 = 0 ∨ 30 * 1000000000 ≤ ms.toNat * 1000000 * 2 ^ 16
  omega

end Flowgraph
