import MiniC.Source.Pos

/-!
# Byte classes

Outside of string literals and comments a source text is ASCII, so the classes that tell the parts
of a token apart are sets of single bytes.
-/

namespace MiniC.Byte

/-- The byte of an ASCII character. -/
abbrev ascii (c : Char) : UInt8 := c.toUInt8

/-- Space, tab, newline, form feed and carriage return. -/
def isBlank (b : UInt8) : Bool :=
  b = 0x20 || b = 0x09 || b = Pos.newline || b = 0x0C || b = 0x0D

def isDigit (b : UInt8) : Bool := ascii '0' ≤ b && b ≤ ascii '9'

def isLetter (b : UInt8) : Bool :=
  (ascii 'a' ≤ b && b ≤ ascii 'z') || (ascii 'A' ≤ b && b ≤ ascii 'Z')

/-- The bytes that may start a word. -/
def isWordStart (b : UInt8) : Bool := isLetter b || b = ascii '_'

/-- The bytes that may continue a word. -/
def isWordPart (b : UInt8) : Bool := isWordStart b || isDigit b

/-- The text of ASCII bytes. -/
def toText (bs : List UInt8) : String := String.ofList (bs.map Char.ofUInt8)

/-- The number that a digit denotes. -/
def digitValue (b : UInt8) : Nat := b.toNat - (ascii '0').toNat

/-- The number that a digit string denotes. -/
def natOfDigits (bs : List UInt8) : Nat := bs.foldl (fun n b => 10 * n + digitValue b) 0

end MiniC.Byte
