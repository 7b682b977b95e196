/-!
# Types and signatures

The language has five types. `int` widens to `double`, and that is its only conversion. On the
machine a `double` takes two words of stack or local storage, `void` none and every other type one.
-/

namespace MiniC

/-- The types of the language. -/
inductive Ty where
  | bool
  | string
  | void
  | int
  | double
deriving Repr, DecidableEq

namespace Ty

/-- The keyword that names the type. -/
def text : Ty → String
  | bool => "bool"
  | string => "string"
  | void => "void"
  | int => "int"
  | double => "double"

/-- Arithmetic is defined on these types. -/
def isNumerical : Ty → Bool
  | int | double => true
  | bool | string | void => false

/-- May a value of type `a` be used where `b` is expected? -/
def convertsTo (a b : Ty) : Bool := a = b || (a = int && b = double)

/-- The type at which two numbers of type `a` and `b` meet. -/
def common (a b : Ty) : Ty := if a = double || b = double then double else a

/-- The words that a value takes on the machine. -/
def words : Ty → Nat
  | double => 2
  | void => 0
  | bool | string | int => 1

/-- The machine's spelling of the type. -/
def descriptor : Ty → String
  | bool => "Z"
  | string => "Ljava/lang/String;"
  | void => "V"
  | int => "I"
  | double => "D"

end Ty

/-- The type of a function. -/
structure Signature where
  ret : Ty
  params : List Ty
deriving Repr, DecidableEq

namespace Signature

def arity (s : Signature) : Nat := s.params.length

/-- The machine's spelling of the signature: parameters in parentheses, then the result. -/
def descriptor (s : Signature) : String :=
  "(" ++ String.join (s.params.map Ty.descriptor) ++ ")" ++ s.ret.descriptor

/-- The words that the arguments take together. -/
def paramWords (s : Signature) : Nat := s.params.foldr (fun ty n => ty.words + n) 0

end Signature

end MiniC
