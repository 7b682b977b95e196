import MiniC.Fault
import MiniC.Jvm.Instruction

/-!
# Methods under construction

A `Method` collects instructions and keeps the accounts that the assembler wants to see: the depth
of the operand stack after the last instruction, the greatest depth so far, and the words of local
variables. Words of locals are handed out in order and never reused.

Whoever builds a method call by call counts the depth and the labels in words of 32 bits, with
`emitCounted` and `newLabel`. The functions of a program are turned into methods by `emit` and
`freshLabel`, which count without end.
-/

namespace MiniC.Jvm

/-- The words of local variables that the machine can address in one method. -/
def maxLocals : Nat := 65535

/-- The greatest depth of the operand stack that a signed word of 32 bits can count. -/
def maxCountedDepth : Nat := 2147483647

/-- The labels that an unsigned word of 32 bits can count. -/
def maxLabels : Nat := 4294967295

structure Method where
  /-- Name and descriptor. -/
  spec : String
  body : Array Instruction
  depth : Nat
  maxDepth : Nat
  nextLabel : Nat
  /-- The words of locals reserved so far, and the next free slot. -/
  locals : Nat
  /-- The slots of the variables, the latest reservation first. -/
  slots : List (VarId × Nat)
deriving Repr, DecidableEq

namespace Method

def empty (spec : String) : Method := ⟨spec, #[], 0, 0, 0, 0, []⟩

/-- Appends an instruction. -/
def emit (m : Method) (i : Instruction) : Except Fault Method :=
  let depth := (m.depth : Int) + i.effect
  if depth < 0 then .error (.negativeDepth i.text m.spec)
  else .ok { m with
    body := m.body.push i
    depth := depth.toNat
    maxDepth := max m.maxDepth depth.toNat }

/-- Appends an instruction, if the depth behind it can be counted. -/
def emitCounted (m : Method) (i : Instruction) : Except Fault Method :=
  match m.emit i with
  | .error f => .error f
  | .ok m' => if m'.depth ≤ maxCountedDepth then .ok m' else .error .tooDeep

/-- A label that no earlier call has given. -/
def freshLabel (m : Method) : Label × Method :=
  (⟨m.nextLabel⟩, { m with nextLabel := m.nextLabel + 1 })

/-- A label that no earlier call has given, if it can be counted. -/
def newLabel (m : Method) : Except Fault (Label × Method) :=
  if m.nextLabel + 1 ≤ maxLabels then .ok m.freshLabel else .error .tooManyLabels

/-- Reserves a slot for the variable `v`. An earlier slot of the same variable is forgotten. -/
def reserve (m : Method) (v : VarId) (ty : Ty) : Except Fault (Nat × Method) :=
  if m.locals + ty.words ≤ maxLocals then
    .ok (m.locals, { m with locals := m.locals + ty.words, slots := (v, m.locals) :: m.slots })
  else .error .tooManyLocals

/-- The slot of the variable `v`. -/
def slot? (m : Method) (v : VarId) : Option Nat := m.slots.lookup v

def endsInReturn (m : Method) : Bool := m.body.back?.any Instruction.isReturn

/-- A line of the body. Labels stand at the margin. -/
def lineText (i : Instruction) : String :=
  (if i.isLabel then "" else "    ") ++ i.text ++ "\n"

/-- The method as the assembler reads it. -/
def text (m : Method) : String :=
  ".method public static " ++ m.spec ++ "\n" ++
  "    .limit locals " ++ toString m.locals ++ "\n" ++
  "    .limit stack " ++ toString m.maxDepth ++ "\n" ++
  String.join (m.body.toList.map lineText) ++
  ".end method\n"

end Method

end MiniC.Jvm
