import MiniC.Type

/-!
# Built-in functions

Every program can read and print numbers and strings without defining how.
-/

namespace MiniC.Builtin

/-- The built-in functions and their types. -/
def signatures : List (String × Signature) := [
  ("printInt", ⟨.void, [.int]⟩),
  ("readInt", ⟨.int, []⟩),
  ("printDouble", ⟨.void, [.double]⟩),
  ("readDouble", ⟨.double, []⟩),
  ("printString", ⟨.void, [.string]⟩),
  ("readString", ⟨.string, []⟩)]

end MiniC.Builtin
