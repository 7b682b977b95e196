import MiniC.Core.Basic

/-!
# Broken assumptions

A program that the compiler does not accept is an *error*. A tree that no earlier stage builds, or
a method that outgrows the machine, is a *fault*: it ends the compilation, and its text speaks to
whoever maintains the compiler.
-/

namespace MiniC

inductive Fault where
  /-- An assignment among the binary operators of a surface tree. -/
  | assignmentOperator
  /-- A declaration where no scope is open. -/
  | declarationOutsideFunction
  /-- An operator that has no instruction in a core tree. -/
  | notBinary (op : BinaryOp)
  | noConversion (source target : Ty)
  | unreservedSlot (v : VarId)
  | unknownCallee (f : String)
  /-- More words of local variables than the machine can address. -/
  | tooManyLocals
  /-- A depth of the operand stack that cannot be counted. -/
  | tooDeep
  /-- More labels than can be counted. -/
  | tooManyLabels
  /-- An instruction that takes more from the operand stack than is there. -/
  | negativeDepth (instruction method : String)
deriving Repr, DecidableEq

namespace Fault

/-- Marks the places that no well-formed tree reaches. -/
def unreachable (why : String) : String := "internal error: entered unreachable code: " ++ why

def text : Fault → String
  | assignmentOperator => unreachable "assignments are parsed as Expr::Assignment"
  | declarationOutsideFunction => unreachable "variables are only declared inside functions"
  | notBinary op => unreachable (op.text ++ " is not a binary operation")
  | noConversion source target =>
    unreachable ("no conversion from " ++ source.text ++ " to " ++ target.text)
  | unreservedSlot v => v.text ++ " used before its slot was reserved"
  | unknownCallee f => "no call descriptor for " ++ f
  | tooManyLocals | tooDeep | tooManyLabels => "attempt to add with overflow"
  | negativeDepth instruction method =>
    "negative stack depth after " ++ instruction ++ " in " ++ method

end Fault

/-- Why a stage gave no result: an error in its input, or a fault. -/
inductive Failure (ε : Type) where
  | error (e : ε)
  | fault (f : Fault)
deriving Repr, DecidableEq

end MiniC
