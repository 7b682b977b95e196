import MiniC.Double.Decimal

/-!
# The fewest digits that read back

Around a finite double lies the interval of reals that round to it: half a unit on each side, a
quarter below a power of two, the ends included exactly when the significand is even. `shortest`
looks for the coarsest decimal grid with a point in that interval. On a given grid only the two
neighbours of the value need a look; of two hits the nearer wins, and an exact tie goes **up**.

Seventeen digits always suffice.
-/

namespace MiniC.Double

/-- A positive decimal `0.d₁d₂… · 10 ^ point`, by its digits without leading or trailing zeros. -/
structure Digits where
  digits : List Char
  point : Int
deriving Repr, DecidableEq

/-- The rounding interval of a positive finite double. The value and both ends are fractions over
the common denominator `den`; `closed` says whether the ends belong to the interval. -/
structure Interval where
  low : Nat
  value : Nat
  high : Nat
  den : Nat
  closed : Bool
deriving Repr, DecidableEq

/-- The reals that round to the magnitude of `d`, in quarters of its last binary place. -/
def interval (d : Double) : Interval :=
  let m := d.significand
  let unit := power 2 (d.scale - 2)
  let below := if d.fractionField = 0 && 1 < d.exponentField then 1 else 2
  { low := (4 * m - below) * unit
    value := 4 * m * unit
    high := (4 * m + 2) * unit
    den := power 2 (2 - d.scale)
    closed := m % 2 == 0 }

/-- The power of ten right above `num / den`: the least `t` with `num / den < 10 ^ t`. -/
def decimalTop (num den : Nat) : Int :=
  if den ≤ num then decimalLength (num / den) else 1 - decimalLength ((den - 1) / num)

namespace Interval

/-- Does `x / den` lie in the interval? -/
def contains (i : Interval) (x : Nat) : Bool :=
  if i.closed then i.low ≤ x && x ≤ i.high else i.low < x && x < i.high

/-- The interval measured in steps of `10 ^ g`. -/
def onGrid (i : Interval) (g : Int) : Interval :=
  let up := power 10 (-g)
  { i with
    low := i.low * up
    value := i.value * up
    high := i.high * up
    den := i.den * power 10 g }

/-- The point of the integer grid inside the interval that is nearest to the value. -/
def nearest? (i : Interval) : Option Nat :=
  let c := i.value / i.den
  match i.contains (c * i.den), i.contains ((c + 1) * i.den) with
  | true, true => some (if 2 * (i.value % i.den) < i.den then c else c + 1)
  | true, false => some c
  | false, true => some (c + 1)
  | false, false => none

end Interval

/-- The digits of `n · 10 ^ g`. -/
def digitsOf (n : Nat) (g : Int) : Digits :=
  let cs := Nat.toDigits 10 n
  { digits := (cs.reverse.dropWhile (· = '0')).reverse, point := g + cs.length }

/-- The shortest decimal that reads back as the magnitude of the finite, nonzero `d`. -/
def shortest (d : Double) : Digits :=
  let i := d.interval
  let top := decimalTop i.value i.den
  let grids : List Int := (List.range 17).map fun n => top - (n + 1 : Nat)
  (grids.findSome? fun g => ((i.onGrid g).nearest?).map fun n => digitsOf n g).getD ⟨[], 0⟩

end MiniC.Double
