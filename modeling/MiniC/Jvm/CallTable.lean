import MiniC.Builtin
import MiniC.Jvm.Method

/-!
# How functions are called

A call names the method with its class and descriptor, takes the words of the arguments from the
operand stack and leaves those of the result.
-/

namespace MiniC

/-- The words of the arguments, which must fit the machine's local variables. -/
def Signature.argWords (s : Signature) : Except Fault Nat :=
  if s.paramWords ≤ Jvm.maxLocals then .ok s.paramWords else .error .tooManyLocals

namespace Jvm

/-- What a call of a function needs to know. -/
structure Callee where
  method : String
  args : Nat
  ret : Ty
deriving Repr, DecidableEq

/-- Functions by name, those found first taking precedence. -/
abbrev CallTable := List (String × Callee)

/-- The method `f` with the signature `s` in the class `className`. -/
def callee (className f : String) (s : Signature) : Except Fault Callee := do
  return ⟨className ++ "/" ++ f ++ s.descriptor, ← s.argWords, s.ret⟩

/-- Adds functions to a table, each taking precedence over those before it. -/
def addCallees (className : String) (table : CallTable) :
    List (String × Signature) → Except Fault CallTable
  | [] => return table
  | (f, s) :: fs => do
    let c ← callee className f s
    addCallees className ((f, c) :: table) fs

/-- The built-in functions and those of the program. -/
def callTable (className : String) (p : Core.Program) : Except Fault CallTable :=
  addCallees className [] (Builtin.signatures ++ p.map fun f => (f.name, f.signature))

end Jvm

end MiniC
