/-!
# Double-precision numbers

The compiler never calculates with doubles: it reads them, recognises a few of them and writes
them. A `Double` is therefore its IEEE 754 binary64 **bit pattern**, and what a pattern means is
read off its three fields with exact natural-number arithmetic.

A finite pattern denotes `± significand · 2 ^ scale`.
-/

namespace MiniC

/-- A binary64 number, given by its bit pattern. -/
structure Double where
  bits : UInt64
deriving Repr, DecidableEq

namespace Double

/-! ## The fields of a pattern -/

/-- The weight of the sign bit, the highest of all. -/
def signWeight : Nat := 0x8000000000000000

/-- The weight of the lowest exponent bit. The fraction bits stand below it. -/
def exponentWeight : Nat := 0x10000000000000

def isNegative (d : Double) : Bool := signWeight ≤ d.bits.toNat

/-- The biased exponent, eleven bits. -/
def exponentField (d : Double) : Nat := d.bits.toNat / exponentWeight % 2048

/-- The stored part of the significand, fifty-two bits. -/
def fractionField (d : Double) : Nat := d.bits.toNat % exponentWeight

/-- The all-ones exponent is kept for infinities and NaNs. -/
def isFinite (d : Double) : Bool := d.exponentField ≠ 2047

def isNaN (d : Double) : Bool := !d.isFinite && d.fractionField ≠ 0

/-- The integer significand of a finite pattern; the leading bit is implicit unless the exponent
field is zero. -/
def significand (d : Double) : Nat :=
  if d.exponentField = 0 then d.fractionField else exponentWeight + d.fractionField

/-- The power of two that scales the significand of a finite pattern. -/
def scale (d : Double) : Int :=
  if d.exponentField = 0 then -1074 else d.exponentField - 1075

/-- `base ^ e`, or one if `e` is negative. A factor `base ^ e` of a fraction is an integer in the
numerator, `power base e`, over one in the denominator, `power base (-e)`. -/
def power (base : Nat) (e : Int) : Nat := Nat.pow base e.toNat

/-! ## Some doubles -/

def zero : Double := ⟨0⟩

def one : Double := ⟨0x3FF0000000000000⟩

def infinity : Double := ⟨0x7FF0000000000000⟩

def nan : Double := ⟨0x7FF8000000000000⟩

/-- The same magnitude with the other sign. -/
def neg (d : Double) : Double := ⟨d.bits ^^^ 0x8000000000000000⟩

end Double

end MiniC
