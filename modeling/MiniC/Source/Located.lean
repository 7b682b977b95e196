import MiniC.Source.Pos

/-!
# Things with a position
-/

namespace MiniC

/-- A value together with the position in the source text where it was written. -/
structure Located (α : Type) where
  value : α
  pos : Pos
deriving Repr, DecidableEq

/-- An identifier and where it was written. -/
abbrev Name := Located String

end MiniC
