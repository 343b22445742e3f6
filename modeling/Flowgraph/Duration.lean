/-! Spans of time, to the nanosecond. The whole seconds fit 64 bits. -/

namespace Flowgraph

structure Duration where
  nanos : Nat
  inRange : nanos < UInt64.size * 1000000000
  deriving DecidableEq

namespace Duration

def ofMillis (ms : UInt64) : Duration :=
  ⟨ms.toNat * 1000000, by have := ms.toNat_lt_size; omega⟩

def seconds (s : UInt64) : Duration := ⟨s.toNat * 1000000000, by have := s.toNat_lt_size; omega⟩

/-- Multiplication, unless the result is out of range. -/
def times? (d : Duration) (n : Nat) : Option Duration :=
  if h : d.nanos * n < UInt64.size * 1000000000 then some ⟨d.nanos * n, h⟩ else none

def min (a b : Duration) : Duration := if a.nanos ≤ b.nanos then a else b

theorem min_nanos (a b : Duration) : (a.min b).nanos = Nat.min a.nanos b.nanos := by
  unfold Duration.min
  split
  · next h => exact (Nat.min_eq_left h).symm
  · next h => exact (Nat.min_eq_right (Nat.le_of_not_le h)).symm

end Duration

end Flowgraph
