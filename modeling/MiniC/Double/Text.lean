import MiniC.Double.Shortest

/-!
# Doubles as text

A double is written with the fewest digits that read back. Magnitudes from `10⁻⁴` up to `10¹⁶`
(and zero) are positional with at least one digit on each side of the point, all others have an
exponent. In exponent form the point is left out when a single digit stands before the exponent,
unless the reader of the text insists on one.
-/

namespace MiniC.Double

/-- Whether exponent form keeps a point behind a lone digit. -/
inductive PointRule where
  | whenNeeded
  | always
deriving Repr, DecidableEq

/-- Is a number whose first digit has the weight `10 ^ (point - 1)` written positionally? -/
def isPositional (point : Int) : Bool := -3 ≤ point && point ≤ 16

/-- Positional notation. -/
def positional (n : Digits) : List Char :=
  if n.point ≤ 0 then
    ['0', '.'] ++ List.replicate (-n.point).toNat '0' ++ n.digits
  else
    let whole := n.digits.take n.point.toNat
    let fraction := n.digits.drop n.point.toNat
    whole ++ List.replicate (n.point.toNat - n.digits.length) '0' ++ ['.'] ++
      (if fraction.isEmpty then ['0'] else fraction)

/-- Exponent notation, with one digit before the point. -/
def exponential (rule : PointRule) (n : Digits) : List Char :=
  let fraction :=
    match n.digits.tail, rule with
    | [], .whenNeeded => []
    | [], .always => ['.', '0']
    | ds, _ => '.' :: ds
  n.digits.take 1 ++ fraction ++ ['e'] ++ (toString (n.point - 1)).toList

/-- The magnitude of a finite double. -/
def magnitudeText (rule : PointRule) (d : Double) : List Char :=
  if d.significand = 0 then ['0', '.', '0']
  else
    let n := d.shortest
    if isPositional n.point then positional n else exponential rule n

/-- A double as text. -/
def render (rule : PointRule) (d : Double) : String :=
  if d.isNaN then "NaN"
  else
    let sign := if d.isNegative then ['-'] else []
    String.ofList (sign ++ if d.isFinite then magnitudeText rule d else ['i', 'n', 'f'])

/-- A double as messages show it: `3.0`, `0.0001`, `1e16`. -/
def text (d : Double) : String := d.render .whenNeeded

end MiniC.Double
