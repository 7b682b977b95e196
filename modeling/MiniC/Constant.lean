import MiniC.Type
import MiniC.Double.Text
import MiniC.Text.Quoted

/-!
# Constants
-/

namespace MiniC

/-- A value that a literal denotes. -/
inductive Constant where
  | bool (b : Bool)
  | int (i : Int32)
  | double (d : Double)
  | string (s : String)
deriving Repr, DecidableEq

namespace Constant

def ty : Constant → Ty
  | bool _ => .bool
  | int _ => .int
  | double _ => .double
  | string _ => .string

/-- The constant as diagnostics show it. -/
def text : Constant → String
  | bool b => if b then "true" else "false"
  | int i => toString i.toInt
  | double d => d.text
  | string s => Text.quoted s

end Constant

end MiniC
