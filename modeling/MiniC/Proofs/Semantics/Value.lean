import MiniC.Builtin
import MiniC.Constant
import MiniC.Operator

/-!
# Values and the world around a run

A run of a program calculates with values, prints some of them and reads others. Ints are 32-bit
words and wrap around. What a double is and how it is calculated with, and how numbers and strings
are read from the input, is left to a `Platform`.

An operation may fail to give a value: an int division by zero *traps*, and an operation on values
of the wrong types has no meaning.
-/

namespace MiniC

/-- How two values compare; doubles need not be ordered at all. -/
inductive Comparison where
  | less
  | equal
  | greater
  | unordered
deriving Repr, DecidableEq

namespace Comparison

/-- The comparison of two values of an ordered type. -/
def ofOrder {α : Type} [LT α] [DecidableLT α] [DecidableEq α] (a b : α) : Comparison :=
  if a < b then less else if a = b then equal else greater

/-- Does the relational operator hold between two values that compare so? -/
def satisfies (c : Comparison) : BinaryOp → Bool
  | .lt => c = less
  | .gt => c = greater
  | .le => c = less || c = equal
  | .ge => c = greater || c = equal
  | .eq => c = equal
  | .ne => c ≠ equal
  | _ => false

end Comparison

/-- The doubles of a machine, and what it reads from its input. -/
structure Platform where
  Real : Type
  /-- The value of a literal. -/
  ofDouble : Double → Real
  ofInt : Int32 → Real
  add : Real → Real → Real
  sub : Real → Real → Real
  mul : Real → Real → Real
  div : Real → Real → Real
  rem : Real → Real → Real
  neg : Real → Real
  compare : Real → Real → Comparison
  Input : Type
  readInt : Input → Option (Int32 × Input)
  readDouble : Input → Option (Real × Input)
  readString : Input → Option (String × Input)

def Platform.one (P : Platform) : P.Real := P.ofDouble .one

variable {P : Platform}

inductive Value (P : Platform) where
  /-- What a function without a result gives. -/
  | void
  | bool (b : Bool)
  | int (i : Int32)
  | double (d : P.Real)
  | string (s : String)

/-- Why a run ends without a result. -/
inductive Stop where
  /-- An int was divided by zero. -/
  | trap
  /-- The run reached a point that has no meaning. -/
  | meaningless
  /-- The run was cut off. -/
  | exhausted
deriving Repr, DecidableEq

namespace Value

def ty : Value P → Ty
  | void => .void
  | bool _ => .bool
  | int _ => .int
  | double _ => .double
  | string _ => .string

def ofConstant : Constant → Value P
  | .bool b => bool b
  | .int i => int i
  | .double d => double (P.ofDouble d)
  | .string s => string s

/-! ## Operators -/

/-- An arithmetic operator on ints. -/
def intArithmetic (op : BinaryOp) (a b : Int32) : Except Stop Int32 :=
  match op with
  | .add => .ok (a + b)
  | .sub => .ok (a - b)
  | .mul => .ok (a * b)
  | .div => if b = 0 then .error .trap else .ok (a / b)
  | .rem => if b = 0 then .error .trap else .ok (a % b)
  | _ => .error .meaningless

/-- An arithmetic operator on doubles. -/
def doubleArithmetic (op : BinaryOp) (a b : P.Real) : Except Stop P.Real :=
  match op with
  | .add => .ok (P.add a b)
  | .sub => .ok (P.sub a b)
  | .mul => .ok (P.mul a b)
  | .div => .ok (P.div a b)
  | .rem => .ok (P.rem a b)
  | _ => .error .meaningless

def logical (op : BinaryOp) (a b : Bool) : Except Stop Bool :=
  match op with
  | .and => .ok (a && b)
  | .or => .ok (a || b)
  | _ => .error .meaningless

/-- A binary operator on two values of one type. -/
def binary (op : BinaryOp) (a b : Value P) : Except Stop (Value P) :=
  match a, b with
  | int a, int b =>
    if op.isRelational then .ok (bool ((Comparison.ofOrder a b).satisfies op))
    else (intArithmetic op a b).map int
  | double a, double b =>
    if op.isRelational then .ok (bool ((P.compare a b).satisfies op))
    else (doubleArithmetic op a b).map double
  | bool a, bool b =>
    if op.isRelational then .ok (bool ((Comparison.ofOrder a b).satisfies op))
    else (logical op a b).map bool
  | _, _ => .error .meaningless

/-- A number and one, added or subtracted. -/
def stepped (s : Step) : Value P → Except Stop (Value P)
  | int i => .ok (int (if s.isIncrement then i + 1 else i - 1))
  | double d => .ok (double (if s.isIncrement then P.add d P.one else P.sub d P.one))
  | _ => .error .meaningless

def negated : Value P → Except Stop (Value P)
  | int i => .ok (int (-i))
  | double d => .ok (double (P.neg d))
  | _ => .error .meaningless

/-- The only conversion there is. -/
def widened : Value P → Except Stop (Value P)
  | int i => .ok (double (P.ofInt i))
  | _ => .error .meaningless

end Value

/-! ## Input and output -/

/-- What a run shows to the world. -/
inductive Event (P : Platform) where
  | printed (x : Value P)
  | read (x : Value P)

/-- The input that is still to be read, and what happened so far. -/
structure World (P : Platform) where
  input : P.Input
  trace : List (Event P)

namespace World

def print (w : World P) (x : Value P) : World P := { w with trace := w.trace ++ [.printed x] }

/-- The world after `x` was read, with the input `rest` behind it. -/
def consume (w : World P) (x : Value P) (rest : P.Input) : World P :=
  ⟨rest, w.trace ++ [.read x]⟩

/-- A call of a built-in function: its result and the world after it. -/
def builtin (w : World P) (f : String) (args : List (Value P)) : Option (Value P × World P) :=
  match f, args with
  | "printInt", [.int i] => some (.void, w.print (.int i))
  | "printDouble", [.double d] => some (.void, w.print (.double d))
  | "printString", [.string s] => some (.void, w.print (.string s))
  | "readInt", [] => (P.readInt w.input).map fun r => (.int r.1, w.consume (.int r.1) r.2)
  | "readDouble", [] =>
    (P.readDouble w.input).map fun r => (.double r.1, w.consume (.double r.1) r.2)
  | "readString", [] =>
    (P.readString w.input).map fun r => (.string r.1, w.consume (.string r.1) r.2)
  | _, _ => none

end World

/-! ## Types of results -/

@[simp] theorem Value.ty_ofConstant (c : Constant) : (ofConstant c : Value P).ty = c.ty := by
  cases c <;> rfl

/-- A built-in function keeps to its signature. -/
theorem World.ty_builtin {w w' : World P} {f : String} {s : Signature} {args : List (Value P)}
    {x : Value P} (hf : (f, s) ∈ Builtin.signatures) (h : w.builtin f args = some (x, w')) :
    x.ty = s.ret := by
  unfold World.builtin at h
  split at h
  case h_7 => cases h
  all_goals
    simp [Builtin.signatures] at hf
    subst hf
    simp only [Option.some.injEq, Prod.mk.injEq, Option.map_eq_some_iff] at h
  · rw [← h.1]; rfl
  · rw [← h.1]; rfl
  · rw [← h.1]; rfl
  all_goals
    obtain ⟨r, -, rfl, -⟩ := h
    rfl

end MiniC
