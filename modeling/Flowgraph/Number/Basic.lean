import Flowgraph.Number.Shortest

/-! Numbers of a JSON text. A whole number that fits 64 bits, signed or unsigned, stays whole;
every other number is a binary64. -/

namespace Flowgraph

inductive Number
  | whole (n : Int)
  | real (x : Binary64)
  deriving DecidableEq, Inhabited

namespace Number

def text : Number → String
  | whole n => toString n
  | real x => x.text

/-- A number as written: the digits of its whole part, those after the point, and the
exponent. -/
structure Lexeme where
  negative : Bool
  digits : List Nat
  places : Option (List Nat)
  exponent : Option (Bool × List Nat)

/-- The digits kept so far, as one 64-bit number, and the power of ten of the last one.
A digit that would not fit is `dropped`. -/
structure Scaled where
  significand : Nat
  power : Int
  dropped : Bool

namespace Scaled

def zero : Scaled := ⟨0, 0, false⟩

def fits (s : Scaled) (digit : Nat) : Bool := s.significand * 10 + digit < UInt64.size

/-- A dropped digit of the whole part still counts as a place. -/
def pushDigit (s : Scaled) (digit : Nat) : Scaled :=
  if !s.dropped && s.fits digit then { s with significand := s.significand * 10 + digit }
  else { s with power := s.power + 1, dropped := true }

def pushPlace (s : Scaled) (digit : Nat) : Scaled :=
  if !s.dropped && s.fits digit then
    { s with significand := s.significand * 10 + digit, power := s.power - 1 }
  else { s with dropped := true }

def ofDigits (digits : List Nat) : Scaled := digits.foldl pushDigit zero

/-- Reading goes on afresh after the point: only then may a digit fit again. -/
def withPlaces (s : Scaled) (places : List Nat) : Scaled :=
  places.foldl pushPlace { s with dropped := false }

end Scaled

/-- Powers of ten up to this one are scaled by in one step. -/
def greatestPower : Nat := 308

def tenTo (n : Nat) : Float := Float.ofScientific 1 false n

/-- Scales by `10 ^ power`, one rounding for each step; `none` if too large. -/
def scale (x : Float) (power : Int) : Option Float :=
  if power.natAbs ≤ greatestPower then
    if 0 ≤ power then
      let y := x * tenTo power.natAbs
      if y.isInf then none else some y
    else some (x / tenTo power.natAbs)
  else if x == 0 then some x
  else if 0 ≤ power then none
  else scale (x / tenTo greatestPower) (power + greatestPower)
termination_by (-power).toNat
decreasing_by simp only [greatestPower] at *; omega

def signed (negative : Bool) (x : Float) : Number :=
  real (Binary64.ofFloat (if negative then -x else x))

/-- Exponents from here on are not computed with: the number is zero or too large. -/
def exponentLimit : Nat := UInt32.size / 2

namespace Lexeme

def scaled (l : Lexeme) : Scaled :=
  match l.places with
  | none => Scaled.ofDigits l.digits
  | some places => (Scaled.ofDigits l.digits).withPlaces places

def toReal (l : Lexeme) (s : Scaled) : Option Number :=
  let significand := s.significand.toUInt64.toFloat
  match l.exponent with
  | none => (scale significand s.power).map (signed l.negative)
  | some (down, digits) =>
    let e := digits.foldl (fun acc d => acc * 10 + d) 0
    if exponentLimit ≤ e then
      if down || s.significand == 0 then some (signed l.negative 0) else none
    else
      (scale significand (if down then s.power - e else s.power + e)).map (signed l.negative)

/-- The number that a lexeme denotes; `none` if it is too large. A negative zero is not whole. -/
def toNumber (l : Lexeme) : Option Number :=
  let s := l.scaled
  if l.places.isNone && l.exponent.isNone && !s.dropped then
    if !l.negative then some (whole s.significand)
    else if s.significand == 0 || UInt64.size / 2 < s.significand then
      some (signed true s.significand.toUInt64.toFloat)
    else some (whole (-s.significand))
  else l.toReal s

end Lexeme

end Number

end Flowgraph
