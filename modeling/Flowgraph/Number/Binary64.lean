/-! Binary64 numbers, known by their bits. The magnitude of a finite number is
`significand * 2 ^ (power - 1074)`. -/

namespace Flowgraph

structure Binary64 where
  bits : UInt64
  deriving DecidableEq, Inhabited

namespace Binary64

def ofFloat (x : Float) : Binary64 := ⟨x.toBits⟩

def toFloat (x : Binary64) : Float := Float.ofBits x.bits

/-- The bit in front of the fraction of a normal number: two to the 52nd power. -/
def hiddenBit : Nat := 4503599627370496

def isNegative (x : Binary64) : Bool := UInt64.size / 2 ≤ x.bits.toNat

def fraction (x : Binary64) : Nat := x.bits.toNat % hiddenBit

/-- The eleven exponent bits. -/
def biased (x : Binary64) : Nat := x.bits.toNat / hiddenBit % 2048

def isFinite (x : Binary64) : Bool := x.biased < 2047

def significand (x : Binary64) : Nat :=
  if x.biased = 0 then x.fraction else x.fraction + hiddenBit

def power (x : Binary64) : Nat := x.biased - 1

def isZero (x : Binary64) : Bool := x.significand = 0

theorem significand_lt (x : Binary64) : x.significand < 2 * hiddenBit := by
  have h : x.fraction < hiddenBit := Nat.mod_lt _ (by decide)
  unfold significand
  split <;> omega

end Binary64

end Flowgraph
