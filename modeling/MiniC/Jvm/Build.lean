import MiniC.Jvm.Method

/-!
# Steps in building a method

A function is turned into a method step by step. Each step adds to the method, or finds out
something about it, or ends in a fault.
-/

namespace MiniC.Jvm

/-- A step in building a method. -/
abbrev Build := StateT Method (Except Fault)

namespace Build

/-- Appends an instruction. -/
def emit (i : Instruction) : Build Unit := fun m => (m.emit i).map ((), ·)

/-- A label that no earlier step was given. -/
def newLabel : Build Label := fun m => .ok m.freshLabel

/-- Places a label. -/
def label (l : Label) : Build Unit := emit (.label l)

/-- Reserves a slot for the variable `v`. -/
def reserve (v : VarId) (ty : Ty) : Build Nat := fun m => m.reserve v ty

/-- The slot of the variable `v`. -/
def slot (v : VarId) : Build Nat := fun m =>
  match m.slot? v with
  | some n => .ok (n, m)
  | none => .error (.unreservedSlot v)

/-- Appends an instruction, unless a return is the last one so far. -/
def emitUnlessReturned (i : Instruction) : Build Unit := fun m =>
  if m.endsInReturn then .ok ((), m) else emit i m

/-- The tree has no meaning at this point. -/
def fault {α : Type} (f : Fault) : Build α := fun _ => .error f

end Build

end MiniC.Jvm
