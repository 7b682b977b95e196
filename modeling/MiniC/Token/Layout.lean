import MiniC.Token.Byte

/-!
# Layout

Blanks and comments separate tokens and mean nothing. A comment runs from `//` or `#` to the end of
its line, or from `/*` to the next `*/`. `skip` measures the layout at the start of some bytes; it
walks the bytes once, remembering only what kind of layout it is in.
-/

namespace MiniC.Layout

open Byte

/-- What the bytes before this point have opened. -/
inductive Mode where
  | blank
  | lineComment
  | blockComment (start : Nat)
deriving Repr, DecidableEq

/-- Continues to measure layout of which `n` bytes have been passed. The result is the length of the
whole, or the offset of a block comment that is never closed. -/
def skipFrom (n : Nat) : Mode → List UInt8 → Except Nat Nat
  | .blank, [] => .ok n
  | .blank, b :: rest =>
    if isBlank b then skipFrom (n + 1) .blank rest
    else if b = ascii '#' then skipFrom (n + 1) .lineComment rest
    else if b = ascii '/' then
      match rest with
      | [] => .ok n
      | c :: rest =>
        if c = ascii '/' then skipFrom (n + 2) .lineComment rest
        else if c = ascii '*' then skipFrom (n + 2) (.blockComment n) rest
        else .ok n
    else .ok n
  | .lineComment, [] => .ok n
  | .lineComment, b :: rest =>
    skipFrom (n + 1) (if b = Pos.newline then .blank else .lineComment) rest
  | .blockComment start, [] => .error start
  | .blockComment start, b :: rest =>
    if b = ascii '*' then
      match rest with
      | [] => .error start
      | c :: rest' =>
        if c = ascii '/' then skipFrom (n + 2) .blank rest'
        else skipFrom (n + 1) (.blockComment start) (c :: rest')
    else skipFrom (n + 1) (.blockComment start) rest

/-- The length of the layout at the start of `bs`, or the offset of an unclosed comment. -/
def skip (bs : List UInt8) : Except Nat Nat := skipFrom 0 .blank bs

end MiniC.Layout
