import MiniC.Text.Glyph

/-!
# Quoted text in diagnostics

A text is shown between two quotes, a character between two others. The quote itself and the
backslash are escaped by a backslash, NUL, tab, carriage return and newline by a letter, and every
other character without a glyph of its own by its code point in hexadecimal.
-/

namespace MiniC.Text

/-- The quote around a text. -/
def doubleQuote : Char := '"'

/-- The quote around a single character. -/
def singleQuote : Char := '\x27'

/-- `c` by its code point: lower-case hexadecimal digits, as few as needed, between braces. -/
def codePointEscape (c : Char) : List Char :=
  ['\\', 'u', '\x7b'] ++ Nat.toDigits 16 c.toNat ++ ['\x7d']

/-- `c` as it stands inside quotes of the kind `quote`. -/
def escapeChar (quote c : Char) : List Char :=
  if c = '\x00' then ['\\', '0']
  else if c = '\t' then ['\\', 't']
  else if c = '\r' then ['\\', 'r']
  else if c = '\n' then ['\\', 'n']
  else if c = '\\' || c = quote then ['\\', c]
  else if hasGlyph c then [c]
  else codePointEscape c

/-- `cs` between two quotes. -/
def quoteWith (quote : Char) (cs : List Char) : String :=
  String.ofList (quote :: cs.flatMap (escapeChar quote) ++ [quote])

/-- A text as diagnostics show it. -/
def quoted (s : String) : String := quoteWith doubleQuote s.toList

/-- A character as diagnostics show it. -/
def quotedChar (c : Char) : String := quoteWith singleQuote [c]

end MiniC.Text
