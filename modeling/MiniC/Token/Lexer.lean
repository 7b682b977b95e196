import MiniC.Source.Cursor
import MiniC.Token.Basic
import MiniC.Token.Layout
import MiniC.Token.Numeral
import MiniC.Token.StringLiteral

/-!
# From source text to tokens

Layout is skipped, then the longest lexeme at the cursor becomes a token, and so on to the end of
the text. `lexeme` looks at bytes only and measures in bytes; positions enter once, in
`tokensFrom`, which moves the cursor by what `lexeme` and `Layout.skip` measured.

## Termination

`tokensFrom` skips at least the first byte of each lexeme, so fewer bytes are left.
-/

namespace MiniC

/-- What can be wrong with a source text as a sequence of tokens. -/
inductive LexProblem where
  | invalidCharacter (c : Char)
  | invalidNumber
  | integerOutOfRange
  | unterminatedString
  | invalidEscape
  | unterminatedComment
deriving Repr, DecidableEq

def LexProblem.text : LexProblem → String
  | invalidCharacter c => "invalid character " ++ Text.quotedChar c
  | invalidNumber => "invalid numeric constant"
  | integerOutOfRange => "integer constant out of range"
  | unterminatedString => "unterminated string literal"
  | invalidEscape => "invalid escape sequence"
  | unterminatedComment => "unterminated comment"

abbrev LexError := Located LexProblem

def LexError.message (e : LexError) : String := e.pos.text ++ ": " ++ e.value.text

namespace Token

open Byte

/-- A token and the number of bytes of its spelling behind the first. -/
structure Lexeme where
  token : Token
  behind : Nat
deriving Repr, DecidableEq

/-- A problem and how many bytes behind the start of the lexeme it is reported. -/
structure Misfit where
  problem : LexProblem
  offset : Nat
deriving Repr, DecidableEq

/-! ## Spellings -/

/-- The tokens spelled by two bytes. -/
def pair? (a b : UInt8) : Option Token :=
  match Char.ofUInt8 a, Char.ofUInt8 b with
  | '+', '+' => some increment
  | '-', '-' => some decrement
  | '&', '&' => some andAnd
  | '|', '|' => some orOr
  | '=', '=' => some equalEqual
  | '!', '=' => some notEqual
  | '<', '=' => some lessEqual
  | '>', '=' => some greaterEqual
  | _, _ => none

/-- The tokens spelled by one byte. -/
def single? (a : UInt8) : Option Token :=
  match Char.ofUInt8 a with
  | '(' => some openParen
  | ')' => some closeParen
  | '\x7b' => some openBrace
  | '\x7d' => some closeBrace
  | ';' => some semicolon
  | ',' => some comma
  | '+' => some plus
  | '-' => some minus
  | '*' => some star
  | '/' => some slash
  | '%' => some percent
  | '<' => some less
  | '>' => some greater
  | '=' => some equal
  | _ => none

/-- The token that a word spells: a keyword, a truth value or else an identifier. -/
def ofWord (w : String) : Token :=
  if w = "bool" then type .bool
  else if w = "int" then type .int
  else if w = "double" then type .double
  else if w = "string" then type .string
  else if w = "void" then type .void
  else if w = "if" then kwIf
  else if w = "else" then kwElse
  else if w = "while" then kwWhile
  else if w = "for" then kwFor
  else if w = "return" then kwReturn
  else if w = "true" then const (.bool true)
  else if w = "false" then const (.bool false)
  else ident w

/-! ## One lexeme -/

/-- The lexeme that starts with the digit `b`. No word may follow it directly. -/
def number (b : UInt8) (rest : List UInt8) : Except Misfit Lexeme :=
  let n := Numeral.scan b rest
  let behind := n.tail.length
  if (rest.drop behind).head?.any isWordPart then .error ⟨.invalidNumber, 0⟩
  else if n.isInteger then
    let value := natOfDigits (n.first :: n.whole)
    if value ≤ Numeral.maxInteger then .ok ⟨const (.int (Int32.ofNat value)), behind⟩
    else .error ⟨.integerOutOfRange, 0⟩
  else if n.toDouble.isFinite then .ok ⟨const (.double n.toDouble), behind⟩
  else .error ⟨.invalidNumber, 0⟩

/-- The lexeme that starts with a quote. -/
def stringLiteral (rest : List UInt8) : Except Misfit Lexeme :=
  match StringLiteral.scan rest with
  | .closed content length =>
    match String.fromUTF8? ⟨content.toArray⟩ with
    | some s => .ok ⟨const (.string s), length⟩
    | none => .error ⟨.unterminatedString, 0⟩
  | .badEscape length => .error ⟨.invalidEscape, length + 1⟩
  | .unclosed => .error ⟨.unterminatedString, 0⟩

/-- The lexeme that starts with the byte `b` of a word. -/
def word (b : UInt8) (rest : List UInt8) : Lexeme :=
  let more := rest.takeWhile isWordPart
  ⟨ofWord (toText (b :: more)), more.length⟩

/-- The character that starts at the byte `b`. -/
def charAt (b : UInt8) (rest : List UInt8) : Char :=
  (ByteArray.utf8DecodeChar? ⟨(b :: rest).toArray⟩ 0).getD '\uFFFD'

/-- The longest lexeme that starts with the byte `b` and goes on in `rest`. -/
def lexeme (b : UInt8) (rest : List UInt8) : Except Misfit Lexeme :=
  match rest.head?.bind (pair? b) with
  | some t => .ok ⟨t, 1⟩
  | none =>
    if isDigit b then number b rest
    else if b = ascii '"' then stringLiteral rest
    else if isWordStart b then .ok (word b rest)
    else
      match single? b with
      | some t => .ok ⟨t, 0⟩
      | none => .error ⟨.invalidCharacter (charAt b rest), 0⟩

/-! ## The whole text -/

/-- The tokens of the text at the cursor. -/
def tokensFrom (c : Cursor) : Except LexError (List (Located Token)) :=
  match Layout.skip c.rest with
  | .error n => .error ⟨.unterminatedComment, (c.advance n).pos⟩
  | .ok n =>
    let start := c.advance n
    match _h : start.rest with
    | [] => .ok []
    | b :: rest =>
      match lexeme b rest with
      | .error e => .error ⟨e.problem, (start.advance e.offset).pos⟩
      | .ok l => do
        let tokens ← tokensFrom (start.advance (l.behind + 1))
        return ⟨l.token, start.pos⟩ :: tokens
termination_by c.rest.length
decreasing_by
  have hlt : 0 < (c.advance n).rest.length := by
    change (c.advance n).rest = b :: rest at _h
    simp [_h]
  simp only [Cursor.advance_length] at hlt ⊢
  omega

end Token

/-- The tokens of a source text. -/
def tokenize (source : String) : Except LexError (List (Located Token)) :=
  Token.tokensFrom (Cursor.ofString source)

end MiniC
