import MiniC.Double.Basic

/-!
# Reading decimals

`ofDecimal m e` is the double nearest to `m · 10 ^ e`; a tie goes to the even significand, and
what lies beyond the largest finite double by half a unit or more becomes infinity. The rounding
is exact: it compares integers, never approximations.
-/

namespace MiniC.Double

/-- `num / den` rounded to the nearest integer, a tie to the even one. -/
def roundEven (num den : Nat) : Nat :=
  let q := num / den
  let r := num % den
  if den < 2 * r || (2 * r == den && q % 2 == 1) then q + 1 else q

/-- The least power of two by which the significand of `num / den` may be scaled: its quotient
then has at most fifty-three bits, and no scale lies below that of the subnormal numbers. -/
def scaleOf (num den : Nat) : Int :=
  let q := max ((num.log2 : Int) - den.log2 - 53) (-1074)
  if den * power 2 (q + 53) ≤ num * power 2 (-(q + 53)) then q + 1 else q

/-- The double nearest to `num / den`.

A carry out of the significand runs into the exponent field, where it belongs. -/
def ofRatio (num den : Nat) : Double :=
  let q := scaleOf num den
  let r := roundEven (num * power 2 (-q)) (den * power 2 q)
  let bits := (q + 1074).toNat * exponentWeight + r
  if bits < infinity.bits.toNat then ⟨UInt64.ofNat bits⟩ else infinity

/-- The number of decimal digits of `n`; zero has one. -/
def decimalLength (n : Nat) : Nat := (Nat.toDigits 10 n).length

/-- The double nearest to `m · 10 ^ e`.

Since `m · 10 ^ e` lies between `10 ^ (top - 1)` and `10 ^ top`, an exponent far out of range is
settled without building the power. -/
def ofDecimal (m : Nat) (e : Int) : Double :=
  let top := (decimalLength m : Int) + e
  if m = 0 || top < -330 then zero
  else if 310 < top then infinity
  else ofRatio (m * power 10 e) (power 10 (-e))

/-! ## Exponents

An exponent that has reached `exponentBound` is out of range for every text of ordinary length, so
it is not read any further: the digits behind that point are passed over. -/

def exponentBound : Nat := 65536

/-- The exponent `n` with one more digit `d`. -/
def extendExponent (n d : Nat) : Nat := if n < exponentBound then 10 * n + d else n

/-- The magnitude of an exponent with the given digits. -/
def exponentOfDigits (ds : List Nat) : Nat := ds.foldl extendExponent 0

/-! ## Reading a text -/

/-- The value of a digit. -/
def digitValue (c : Char) : Nat := c.toNat - '0'.toNat

/-- The value of a digit string. -/
def natOfDigits (cs : List Char) : Nat :=
  cs.foldl (fun n c => 10 * n + digitValue c) 0

/-- Splits off a leading sign; `true` stands for minus. -/
def splitSign : List Char → Bool × List Char
  | '-' :: cs => (true, cs)
  | '+' :: cs => (false, cs)
  | cs => (false, cs)

/-- The exponent part of a decimal text, which may be absent. -/
def exponentOfChars? : List Char → Option Int
  | [] => some 0
  | c :: cs =>
    let (minus, digits) := splitSign cs
    if (c = 'e' || c = 'E') && !digits.isEmpty && digits.all Char.isDigit then
      let e : Int := exponentOfDigits (digits.map digitValue)
      some (if minus then -e else e)
    else none

/-- The magnitude of a decimal text without sign: digits, a point, digits and an exponent, where
one of the two digit strings may be empty and the point and the exponent may be absent. -/
def magnitudeOfChars? (cs : List Char) : Option Double :=
  let whole := cs.takeWhile Char.isDigit
  let afterWhole := cs.dropWhile Char.isDigit
  let afterPoint := if afterWhole.head? = some '.' then afterWhole.tail else []
  let fraction := afterPoint.takeWhile Char.isDigit
  let afterFraction :=
    if afterWhole.head? = some '.' then afterPoint.dropWhile Char.isDigit else afterWhole
  if whole.isEmpty && fraction.isEmpty then none
  else (exponentOfChars? afterFraction).map fun e =>
    ofDecimal (natOfDigits (whole ++ fraction)) (e - fraction.length)

/-- Reads a decimal text, an infinity or a NaN, with an optional sign. -/
def ofString? (s : String) : Option Double :=
  let (minus, cs) := splitSign s.toList
  let word := String.ofList (cs.map Char.toLower)
  let magnitude :=
    if word = "inf" || word = "infinity" then some infinity
    else if word = "nan" then some nan
    else magnitudeOfChars? cs
  magnitude.map fun d => if minus then d.neg else d

end MiniC.Double
