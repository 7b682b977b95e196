import Mathlib.Data.Nat.Digits.Defs
import MiniC.Token.Basic
import MiniC.Token.Byte

/-!
# What a source text spells

A source text is a sequence of lexemes with layout in front of them, between them and behind them.
`Denotes` says which bytes are a lexeme of which token, `Gap` which bytes are layout, and `Splits`
puts a text together from both. A lexeme goes as far as it can: nothing longer at its place is a
lexeme of any token.
-/

namespace MiniC

/-! ## Positions -/

namespace Pos

/-- The position behind the first bytes `before` of a text: the lines that they end and the bytes
of the line that they have begun. -/
def behind (before : List UInt8) : Pos :=
  ⟨1 + before.count newline, 1 + (before.reverse.takeWhile (· ≠ newline)).length⟩

theorem behind_append (before : List UInt8) (b : UInt8) :
    behind (before ++ [b]) = (behind before).after b := by
  by_cases hb : b = newline
  · subst hb
    simp [behind, after, Nat.add_assoc]
  · simp [behind, after, hb, Nat.add_assoc]

theorem behind_afterAll (bs : List UInt8) :
    ∀ before, (behind before).afterAll bs = behind (before ++ bs) := by
  induction bs with
  | nil =>
    intro before
    rw [afterAll_nil, List.append_nil]
  | cons b bs ih =>
    intro before
    rw [afterAll_cons, ← behind_append, ih, List.append_assoc, List.singleton_append]

end Pos

open Byte

/-- The UTF-8 bytes of a text. -/
def Byte.ofText (s : String) : List UInt8 := s.toByteArray.data.toList

/-! ## Layout -/

namespace Layout

/-- What opens a comment that ends with its line. -/
def lineOpeners : List (List UInt8) := [[ascii '/', ascii '/'], [ascii '#']]

def blockOpener : List UInt8 := [ascii '/', ascii '*']

def blockCloser : List UInt8 := [ascii '*', ascii '/']

/-- The bytes are layout, in front of `rest`. A comment to the end of its line goes up to a newline
or to the end of the text; any other is closed, where it first can be. -/
inductive Gap : List UInt8 → List UInt8 → Prop where
  | nil {rest : List UInt8} : Gap [] rest
  | blank {b : UInt8} {gap rest : List UInt8} : isBlank b = true → Gap gap rest →
      Gap (b :: gap) rest
  | line {opener body gap rest : List UInt8} : opener ∈ lineOpeners → Pos.newline ∉ body →
      (∀ b ∈ (gap ++ rest).head?, b = Pos.newline) → Gap gap rest →
      Gap (opener ++ body ++ gap) rest
  | block {body gap rest : List UInt8} : ¬blockCloser <:+: body → Gap gap rest →
      Gap (blockOpener ++ body ++ blockCloser ++ gap) rest

/-- Layout starts with these bytes. -/
def Starts (bs : List UInt8) : Prop :=
  (∃ b ∈ bs.head?, isBlank b = true) ∨ ∃ opener ∈ blockOpener :: lineOpeners, opener <+: bs

end Layout

/-! ## Lexemes -/

/-- A letter or underscore, and letters, underscores and digits. -/
def IsWord (w : List UInt8) : Prop :=
  ∃ b more, w = b :: more ∧ isWordStart b = true ∧ ∀ c ∈ more, isWordPart c = true

/-- One digit or more. -/
def IsDigits (ds : List UInt8) : Prop := ds ≠ [] ∧ ∀ b ∈ ds, isDigit b = true

/-- The number that digits denote, the last one counting the units. -/
def decimalValue (ds : List UInt8) : Nat := Nat.ofDigits 10 (ds.reverse.map digitValue)

/-- A point and digits, or nothing. -/
inductive PointPart : List UInt8 → Prop where
  | absent : PointPart []
  | digits {ds : List UInt8} : IsDigits ds → PointPart (ascii '.' :: ds)

/-- The mark of an exponent, a sign or none, and digits; or nothing. -/
inductive ExponentPart : List UInt8 → Prop where
  | absent : ExponentPart []
  | digits {mark : UInt8} {sign ds : List UInt8} : mark ∈ [ascii 'e', ascii 'E'] →
      sign ∈ [[], [ascii '+'], [ascii '-']] → IsDigits ds → ExponentPart (mark :: (sign ++ ds))

/-- What stands behind the backslash of an escape, and the byte that the escape denotes. -/
def escapes : List (UInt8 × UInt8) :=
  [(ascii 'n', ascii '\n'), (ascii 't', ascii '\t'), (ascii 'r', ascii '\r'),
    (ascii '"', ascii '"'), (ascii '\\', ascii '\\')]

/-- The bytes between the quotes of a string literal, and the bytes that they denote. -/
inductive Decodes : List UInt8 → List UInt8 → Prop where
  | nil : Decodes [] []
  | plain {b : UInt8} {body content : List UInt8} : b ≠ ascii '"' → b ≠ ascii '\\' →
      b ≠ Pos.newline → Decodes body content → Decodes (b :: body) (b :: content)
  | escape {e b : UInt8} {body content : List UInt8} : (e, b) ∈ escapes → Decodes body content →
      Decodes (ascii '\\' :: e :: body) (b :: content)

namespace Token

/-- The words that are no identifiers. -/
def reserved : List String :=
  ["bool", "int", "double", "string", "void", "true", "false", "if", "else", "while", "for",
    "return"]

/-- A token with one spelling: a keyword or punctuation. -/
def IsSymbol : Token → Prop
  | .const _ | .ident _ => False
  | _ => True

/-- The bytes are a lexeme of the token. -/
inductive Denotes : List UInt8 → Token → Prop where
  | symbol {t : Token} : t.IsSymbol → Denotes (ofText t.text) t
  | truth {b : Bool} : Denotes (ofText (if b then "true" else "false")) (.const (.bool b))
  | ident {x : String} : IsWord (ofText x) → x ∉ reserved → Denotes (ofText x) (.ident x)
  | int {ds : List UInt8} {i : Int32} : IsDigits ds → decimalValue ds ≤ 2147483647 →
      i.toInt = decimalValue ds → Denotes ds (.const (.int i))
  | double {whole point exponent : List UInt8} {d : Double} : IsDigits whole → PointPart point →
      ExponentPart exponent → point ≠ [] ∨ exponent ≠ [] →
      Double.ofString? (toText (whole ++ point ++ exponent)) = some d → d.isFinite = true →
      Denotes (whole ++ point ++ exponent) (.const (.double d))
  | string {body : List UInt8} {s : String} : Decodes body (ofText s) →
      Denotes (ascii '"' :: (body ++ [ascii '"'])) (.const (.string s))

/-- The lexeme ends where it has to, in front of `rest`. -/
structure Maximal (lexeme rest : List UInt8) : Prop where
  /-- No token has a longer lexeme at this place. -/
  longest : ∀ l t, Denotes l t → l <+: lexeme ++ rest → l.length ≤ lexeme.length
  /-- A word or a number is not followed by a byte of a word. -/
  apart : ∀ b ∈ lexeme.getLast?, ∀ c ∈ rest.head?, ¬(isWordPart b = true ∧ isWordPart c = true)
  /-- No comment starts at this place. -/
  noLayout : ¬Layout.Starts (lexeme ++ rest)

/-- The text that goes on behind `before` consists of lexemes of the tokens, which start where the
tokens say, and of layout. -/
inductive Splits : List UInt8 → List UInt8 → List (Located Token) → Prop where
  | done {before gap : List UInt8} : Layout.Gap gap [] → Splits before gap []
  | token {before gap lexeme rest : List UInt8} {t : Token} {ts : List (Located Token)} :
      Layout.Gap gap (lexeme ++ rest) → Denotes lexeme t → Maximal lexeme rest →
      Splits (before ++ gap ++ lexeme) rest ts →
      Splits before (gap ++ (lexeme ++ rest)) (⟨t, Pos.behind (before ++ gap)⟩ :: ts)

end Token

end MiniC
