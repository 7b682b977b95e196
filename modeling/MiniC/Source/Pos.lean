/-!
# Positions in a source text

A position is a line and a column, both counted from one. A column counts **bytes** of the UTF-8
text, so a position moves by one byte at a time and a newline byte starts the next line.
-/

namespace MiniC

/-- A place in a source text. -/
structure Pos where
  line : Nat
  column : Nat
deriving Repr, DecidableEq

namespace Pos

/-- Where every text begins. -/
def start : Pos := ⟨1, 1⟩

/-- The place named when there is no text to point into. -/
def nowhere : Pos := ⟨0, 0⟩

instance : Inhabited Pos := ⟨nowhere⟩

/-- The byte that ends a line. -/
@[match_pattern] abbrev newline : UInt8 := 0x0A

/-- The position right behind the byte `b` that stands at `p`. -/
def after (p : Pos) (b : UInt8) : Pos :=
  if b = newline then ⟨p.line + 1, 1⟩ else ⟨p.line, p.column + 1⟩

/-- The position right behind the bytes `bs` that start at `p`. -/
def afterAll (p : Pos) (bs : List UInt8) : Pos := bs.foldl after p

@[simp] theorem afterAll_nil (p : Pos) : p.afterAll [] = p := rfl

@[simp] theorem afterAll_cons (p : Pos) (b : UInt8) (bs : List UInt8) :
    p.afterAll (b :: bs) = (p.after b).afterAll bs := rfl

theorem afterAll_append (p : Pos) (as bs : List UInt8) :
    p.afterAll (as ++ bs) = (p.afterAll as).afterAll bs := by
  simp [afterAll]

/-- `line:column`, as diagnostics write it. -/
def text (p : Pos) : String := toString p.line ++ ":" ++ toString p.column

end Pos

end MiniC
