import MiniC.Constant
import MiniC.Token.Byte

/-!
# Numerals

A numeral is a digit string, then optionally a point with at least one digit behind it, then
optionally an exponent. With a point or an exponent it denotes a double, without both an integer.
-/

namespace MiniC

/-- The exponent of a numeral: `e` or `E`, a sign or none, and digits. -/
structure Exponent where
  mark : UInt8
  sign : Option UInt8
  digits : List UInt8
deriving Repr, DecidableEq

namespace Exponent

open Byte

def bytes (x : Exponent) : List UInt8 := x.mark :: (x.sign.toList ++ x.digits)

def value (x : Exponent) : Int :=
  let e : Int := Double.exponentOfDigits (x.digits.map digitValue)
  if x.sign = some (ascii '-') then -e else e

/-- The sign at the start of `bs`, if there is one. -/
def sign? (bs : List UInt8) : Option UInt8 :=
  bs.head?.filter fun b => b = ascii '+' || b = ascii '-'

/-- The exponent at the start of `bs`. It needs a digit. -/
def scan? (bs : List UInt8) : Option Exponent :=
  match bs with
  | [] => none
  | mark :: rest =>
    let sign := sign? rest
    let digits := (rest.drop sign.toList.length).takeWhile isDigit
    if (mark = ascii 'e' || mark = ascii 'E') && !digits.isEmpty then some ⟨mark, sign, digits⟩
    else none

end Exponent

/-- A numeral by its parts. The first digit stands apart, since there always is one; `fraction` is
empty when there is no point. -/
structure Numeral where
  first : UInt8
  whole : List UInt8
  fraction : List UInt8
  exponent : Option Exponent
deriving Repr, DecidableEq

namespace Numeral

open Byte

/-- The point and the digits behind it. -/
def fractionBytes (fraction : List UInt8) : List UInt8 :=
  if fraction.isEmpty then [] else ascii '.' :: fraction

/-- The spelling of the numeral behind its first digit. -/
def tail (n : Numeral) : List UInt8 :=
  n.whole ++ fractionBytes n.fraction ++ (n.exponent.map Exponent.bytes).getD []

/-- The digits behind a point at the start of `bs`; none without a point. -/
def scanFraction (bs : List UInt8) : List UInt8 :=
  if bs.head? = some (ascii '.') then bs.tail.takeWhile isDigit else []

/-- The longest numeral that starts with the digit `first` and goes on in `rest`. -/
def scan (first : UInt8) (rest : List UInt8) : Numeral :=
  let whole := rest.takeWhile isDigit
  let afterWhole := rest.drop whole.length
  let fraction := scanFraction afterWhole
  let exponent := Exponent.scan? (afterWhole.drop (fractionBytes fraction).length)
  { first, whole, fraction, exponent }

/-- Does the numeral denote an integer? -/
def isInteger (n : Numeral) : Bool := n.fraction.isEmpty && n.exponent.isNone

/-- The double that the numeral denotes; infinity when it is out of range. -/
def toDouble (n : Numeral) : Double :=
  Double.ofDecimal (natOfDigits (n.first :: n.whole ++ n.fraction))
    ((n.exponent.map Exponent.value).getD 0 - n.fraction.length)

/-- The largest integer constant. -/
def maxInteger : Nat := 2147483647

end Numeral

end MiniC
