import Flowgraph.Number.Binary64

/-! The fewest decimal digits that read back as a given binary64 number, and of those the
nearest. All arithmetic is on natural numbers. -/

namespace Flowgraph.Binary64

/-- A magnitude and the distances to the ends of the interval that rounds to it, all over
one denominator. The ends belong to the interval when `closed`. -/
structure Window where
  value : Nat
  below : Nat
  above : Nat
  unit : Nat
  closed : Bool

/-- The window of a finite number, in units of `2 ^ -1076`. -/
def window (x : Binary64) : Window where
  value := 4 * x.significand * Nat.pow 2 x.power
  below := (if x.fraction = 0 ∧ 1 < x.biased then 1 else 2) * Nat.pow 2 x.power
  above := 2 * Nat.pow 2 x.power
  unit := Nat.pow 2 1076
  closed := x.significand % 2 = 0

namespace Window

/-- The same window measured in steps of `10 ^ step`. -/
def rescale (w : Window) (step : Int) : Window :=
  if 0 ≤ step then { w with unit := w.unit * Nat.pow 10 step.toNat }
  else
    { w with
      value := w.value * Nat.pow 10 (-step).toNat
      below := w.below * Nat.pow 10 (-step).toNat
      above := w.above * Nat.pow 10 (-step).toNat }

def holds (w : Window) (n : Nat) : Bool :=
  if w.closed then w.value ≤ n * w.unit + w.below && n * w.unit ≤ w.value + w.above
  else w.value < n * w.unit + w.below && n * w.unit < w.value + w.above

/-- The whole number of steps inside the window that is nearest to the value; a tie goes to
the even one. -/
def nearest? (w : Window) : Option Nat :=
  let low := w.value / w.unit
  let high := low + 1
  match w.holds low, w.holds high with
  | false, false => none
  | true, false => some low
  | false, true => some high
  | true, true =>
    let down := w.value - low * w.unit
    let up := high * w.unit - w.value
    if down < up then some low
    else if up < down then some high
    else if low % 2 = 0 then some low else some high

/-- Where the first digit stands: `10 ^ leading ≤ value / unit < 10 ^ (leading + 1)`. -/
def leading (w : Window) : Int :=
  (Nat.toDigits 10 (w.value * Nat.pow 10 400 / w.unit)).length - 401

/-- The grids that are tried, from the coarsest one. -/
def grids (w : Window) : List Int := (List.range 17).map fun n : Nat => w.leading - (n : Int)

/-- The first grid that hits the window, and how many of its steps do. -/
def hit? (w : Window) : Option (Nat × Int) :=
  w.grids.findSome? fun step => ((w.rescale step).nearest?).map (·, step)

end Window

/-- Only on the first grid can the hit be the next power of ten. -/
def settle : Option (Nat × Int) → Nat × Int
  | some (digits, step) => if digits = 10 then (1, step + 1) else (digits, step)
  | none => (0, 0)

/-- Digits and the power of ten of the last one, from the coarsest grid that hits the window. -/
def shortest (x : Binary64) : Nat × Int := settle x.window.hit?

/-- Numbers from 1e-5 up to 1e16 are written out with a point, all others with an exponent. -/
def plainFrom : Int := -5

def plainBelow : Int := 16

def magnitudeText (digits : List Char) (step : Int) : String :=
  let exponent := step + digits.length - 1
  if plainFrom ≤ exponent ∧ exponent < plainBelow then
    if 0 ≤ step then String.ofList (digits ++ List.replicate step.toNat '0') ++ ".0"
    else if 0 ≤ exponent then
      String.ofList (digits.take (exponent.toNat + 1)) ++ "." ++
        String.ofList (digits.drop (exponent.toNat + 1))
    else "0." ++ String.ofList (List.replicate (-exponent - 1).toNat '0' ++ digits)
  else
    let tail := digits.drop 1
    String.ofList (digits.take 1) ++ (if tail.isEmpty then "" else "." ++ String.ofList tail) ++
      "e" ++ (if exponent < 0 then "-" else "+") ++ toString exponent.natAbs

def text (x : Binary64) : String :=
  if !x.isFinite then "null"
  else
    (if x.isNegative then "-" else "") ++
      if x.isZero then "0.0"
      else let (digits, step) := x.shortest; magnitudeText (Nat.toDigits 10 digits) step

end Flowgraph.Binary64
