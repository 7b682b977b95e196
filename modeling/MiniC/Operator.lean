/-!
# Operators

The binary operators with their precedences, and the four ways to step a variable by one.
Assignment is listed among the binary operators because it competes with them for operands; it
binds weakest of all.
-/

namespace MiniC

/-- The binary operators. -/
inductive BinaryOp where
  | add
  | sub
  | mul
  | div
  | rem
  | lt
  | gt
  | le
  | ge
  | eq
  | ne
  | and
  | or
  | assign
deriving Repr, DecidableEq

namespace BinaryOp

/-- A higher number binds tighter. -/
def precedence : BinaryOp → Nat
  | mul | div | rem => 50
  | add | sub => 45
  | lt | gt | le | ge => 35
  | eq | ne => 30
  | and => 10
  | or => 5
  | assign => 1

def isArithmetic : BinaryOp → Bool
  | add | sub | mul | div | rem => true
  | _ => false

def isRelational : BinaryOp → Bool
  | lt | gt | le | ge | eq | ne => true
  | _ => false

def isLogical : BinaryOp → Bool
  | and | or => true
  | _ => false

/-- The operator's spelling. -/
def text : BinaryOp → String
  | add => "+"
  | sub => "-"
  | mul => "*"
  | div => "/"
  | rem => "%"
  | lt => "<"
  | gt => ">"
  | le => "<="
  | ge => ">="
  | eq => "=="
  | ne => "!="
  | and => "&&"
  | or => "||"
  | assign => "="

end BinaryOp

/-- Stepping a variable by one, before or after its value is taken. -/
inductive Step where
  | preIncrement
  | preDecrement
  | postIncrement
  | postDecrement
deriving Repr, DecidableEq

namespace Step

/-- Is the value taken before the variable changes? -/
def isPost : Step → Bool
  | postIncrement | postDecrement => true
  | preIncrement | preDecrement => false

def isIncrement : Step → Bool
  | preIncrement | postIncrement => true
  | preDecrement | postDecrement => false

/-- The operator's spelling. -/
def text (s : Step) : String := if s.isIncrement then "++" else "--"

end Step

end MiniC
