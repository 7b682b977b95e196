import MiniC.Constant

/-!
# Machine instructions

The instructions that a method may contain, how they are written for the assembler, and by how many
words each of them changes the depth of the operand stack.
-/

namespace MiniC.Jvm

/-- A branch target. -/
structure Label where
  index : Nat
deriving Repr, DecidableEq

def Label.text (l : Label) : String := "L" ++ toString l.index

/-- Operations on two operands of one type. -/
inductive Arith where
  | add
  | sub
  | mul
  | div
  | rem
  | and
  | or
deriving Repr, DecidableEq

def Arith.text : Arith → String
  | add => "add"
  | sub => "sub"
  | mul => "mul"
  | div => "div"
  | rem => "rem"
  | and => "and"
  | or => "or"

/-- The conditions of a branch. -/
inductive Cond where
  | eq
  | ne
  | lt
  | gt
  | le
  | ge
deriving Repr, DecidableEq

def Cond.text : Cond → String
  | eq => "eq"
  | ne => "ne"
  | lt => "lt"
  | gt => "gt"
  | le => "le"
  | ge => "ge"

inductive Instruction where
  | iconst (i : Int32)
  | dconst (d : Double)
  | sconst (s : String)
  | load (ty : Ty) (slot : Nat)
  | store (ty : Ty) (slot : Nat)
  | arith (op : Arith) (ty : Ty)
  | neg (ty : Ty)
  | i2d
  /-- Compares doubles; an unordered pair counts as greater. -/
  | dcmpg
  /-- Compares doubles; an unordered pair counts as less. -/
  | dcmpl
  /-- Branches on the comparison of two ints. -/
  | ifCompare (cond : Cond) (target : Label)
  /-- Branches on the comparison of an int with zero. -/
  | ifZero (cond : Cond) (target : Label)
  | goto (target : Label)
  | dup (ty : Ty)
  | pop (ty : Ty)
  /-- Calls `method`, which takes `args` words and leaves `result`. -/
  | invoke (method : String) (args result : Nat)
  | ret (ty : Ty)
  | label (l : Label)
deriving Repr, DecidableEq

namespace Instruction

/-! ## Written form -/

/-- The letter that names a type in a mnemonic; `bool` is an `int` to the machine. -/
def typeLetter : Ty → String
  | .string => "a"
  | .double => "d"
  | .int | .bool => "i"
  | .void => ""

/-- An int constant in the shortest form that holds it. -/
def iconstText (i : Int) : String :=
  if i = -1 then "iconst_m1"
  else if 0 ≤ i ∧ i ≤ 5 then "iconst_" ++ toString i
  else if -128 ≤ i ∧ i ≤ 127 then "bipush " ++ toString i
  else if -32768 ≤ i ∧ i ≤ 32767 then "sipush " ++ toString i
  else "ldc " ++ toString i

/-- A double constant; the assembler wants a point before an exponent. -/
def dconstText (d : Double) : String :=
  if d = .zero then "dconst_0"
  else if d = .one then "dconst_1"
  else "ldc2_w " ++ d.render .always

/-- A character inside a string constant. -/
def escapeChar (c : Char) : List Char :=
  if c = '"' then ['\\', '"']
  else if c = '\\' then ['\\', '\\']
  else if c = '\n' then ['\\', 'n']
  else if c = '\t' then ['\\', 't']
  else if c = '\r' then ['\\', 'r']
  else [c]

/-- A string constant. -/
def stringLiteral (s : String) : String :=
  String.ofList ('"' :: s.toList.flatMap escapeChar ++ ['"'])

/-- `one` or `two`, as a value of type `ty` takes one word or two. -/
def byWidth (ty : Ty) (one two : String) : String := if ty.words = 2 then two else one

def text : Instruction → String
  | iconst i => iconstText i.toInt
  | dconst d => dconstText d
  | sconst s => "ldc " ++ stringLiteral s
  | load ty slot => typeLetter ty ++ "load " ++ toString slot
  | store ty slot => typeLetter ty ++ "store " ++ toString slot
  | arith op ty => typeLetter ty ++ op.text
  | neg ty => typeLetter ty ++ "neg"
  | i2d => "i2d"
  | dcmpg => "dcmpg"
  | dcmpl => "dcmpl"
  | ifCompare cond target => "if_icmp" ++ cond.text ++ " " ++ target.text
  | ifZero cond target => "if" ++ cond.text ++ " " ++ target.text
  | goto target => "goto " ++ target.text
  | dup ty => byWidth ty "dup" "dup2"
  | pop ty => byWidth ty "pop" "pop2"
  | invoke method _ _ => "invokestatic " ++ method
  | ret ty => typeLetter ty ++ "return"
  | label l => l.text ++ ":"

/-! ## Effect on the operand stack -/

/-- The net change of the stack's depth, in words. -/
def effect : Instruction → Int
  | iconst _ | sconst _ | i2d => 1
  | dconst _ => 2
  | load ty _ | dup ty => ty.words
  | store ty _ | pop ty | ret ty | arith _ ty => -ty.words
  | neg _ | goto _ | label _ => 0
  | dcmpg | dcmpl => -3
  | ifCompare _ _ => -2
  | ifZero _ _ => -1
  | invoke _ args result => (result : Int) - args

def isLabel : Instruction → Bool
  | label _ => true
  | _ => false

def isReturn : Instruction → Bool
  | ret _ => true
  | _ => false

end Instruction

end MiniC.Jvm
