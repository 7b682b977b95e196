import MiniC.Token.Byte

/-!
# String literals

A string literal ends at the next quote that is not escaped, and may not contain a newline. A
backslash stands before `n`, `t`, `r`, a quote or another backslash. All other bytes, ASCII or not,
stand for themselves.
-/

namespace MiniC.StringLiteral

open Byte

/-- The byte that a backslash before `b` stands for. -/
def escape? (b : UInt8) : Option UInt8 :=
  if b = ascii 'n' then some (ascii '\n')
  else if b = ascii 't' then some (ascii '\t')
  else if b = ascii 'r' then some (ascii '\r')
  else if b = ascii '"' then some (ascii '"')
  else if b = ascii '\\' then some (ascii '\\')
  else none

/-- How a literal ends. -/
inductive Scan where
  /-- Closed by a quote, after `length` bytes that denote `content`. -/
  | closed (content : List UInt8) (length : Nat)
  /-- Broken by an unknown escape whose second byte is the last of `length` bytes. -/
  | badEscape (length : Nat)
  /-- Cut off by a newline or by the end of the text. -/
  | unclosed
deriving Repr, DecidableEq

/-- Puts `k` bytes that denote `b` before a scan. -/
def Scan.push (b : UInt8) (k : Nat) : Scan → Scan
  | .closed content n => .closed (b :: content) (n + k)
  | .badEscape n => .badEscape (n + k)
  | .unclosed => .unclosed

/-- Reads a literal behind its opening quote. -/
def scan : List UInt8 → Scan
  | [] => .unclosed
  | b :: rest =>
    if b = ascii '"' then .closed [] 1
    else if b = Pos.newline then .unclosed
    else if b = ascii '\\' then
      match rest with
      | [] => .unclosed
      | e :: rest =>
        match escape? e with
        | some b => (scan rest).push b 2
        | none => .badEscape 2
    else (scan rest).push b 1

end MiniC.StringLiteral
