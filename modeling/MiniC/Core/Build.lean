import MiniC.Jvm.Build
import MiniC.Jvm.CallTable

/-!
# From functions to methods

The tree of a function is walked through once, and instructions are emitted on the way. Every label
is asked for right before the code that jumps to it is built.
-/

namespace MiniC

namespace Jvm

/-- The instruction that pushes a constant. -/
def constant : Constant → Instruction
  | .bool b => .iconst (if b then 1 else 0)
  | .int i => .iconst i
  | .double d => .dconst d
  | .string s => .sconst s

/-- The operation that an operator performs on its operands. -/
def arith? : BinaryOp → Option Arith
  | .add => some .add
  | .sub => some .sub
  | .mul => some .mul
  | .div => some .div
  | .rem => some .rem
  | .and => some .and
  | .or => some .or
  | _ => none

/-- The condition that a comparison tests. -/
def cond? : BinaryOp → Option Cond
  | .lt => some .lt
  | .gt => some .gt
  | .le => some .le
  | .ge => some .ge
  | .eq => some .eq
  | .ne => some .ne
  | _ => none

/-- Pushes `true` and builds `test`, which jumps to the label that it is given to keep it; if the
test falls through, `true` is replaced by `false`. -/
def boolean (test : Label → Build Unit) : Build Unit := do
  let done ← Build.newLabel
  Build.emit (.iconst 1)
  test done
  Build.emit (.pop .bool)
  Build.emit (.iconst 0)
  Build.label done

/-- Jumps to `target` if the two operands on the stack compare as `cond` says. An unordered pair of
doubles satisfies `ne` only. -/
def buildCompare (cond : Cond) (operandTy : Ty) (target : Label) : Build Unit := do
  if operandTy = .double then
    Build.emit (if cond = .lt ∨ cond = .le then .dcmpg else .dcmpl)
    Build.emit (.ifZero cond target)
  else Build.emit (.ifCompare cond target)

/-- Steps a variable, and leaves its value before or after the step. -/
def buildStep (s : Step) (v : VarId) (ty : Ty) : Build Unit := do
  let slot ← Build.slot v
  Build.emit (.load ty slot)
  if s.isPost then Build.emit (.dup ty)
  Build.emit (if ty = .double then .dconst .one else .iconst 1)
  Build.emit (.arith (if s.isIncrement then .add else .sub) ty)
  if !s.isPost then Build.emit (.dup ty)
  Build.emit (.store ty slot)

/-- Calls `f` with the arguments on the stack. -/
def buildCall (calls : CallTable) (f : String) : Build Unit :=
  match calls.lookup f with
  | some c => Build.emit (.invoke c.method c.args c.ret.words)
  | none => Build.fault (.unknownCallee f)

/-- Converts the value on the stack. -/
def buildConvert (source target : Ty) : Build Unit :=
  if source = .int ∧ target = .double then Build.emit .i2d
  else Build.fault (.noConversion source target)

end Jvm

namespace Core

open Jvm

/-! ## Expressions -/

mutual

/-- Builds the code of an expression, which leaves its value on the stack. -/
def Expr.build (calls : CallTable) : Expr → Build Unit
  | .const c => Build.emit (constant c)
  | .var v ty => do Build.emit (.load ty (← Build.slot v))
  | .assign v e ty => do
    e.build calls
    let slot ← Build.slot v
    Build.emit (.dup ty)
    Build.emit (.store ty slot)
  | .call f args _ => do
    buildArgs calls args
    buildCall calls f
  | .binary op left right operandTy _ =>
    match cond? op, arith? op with
    | some cond, _ =>
      boolean fun target => do
        left.build calls
        right.build calls
        buildCompare cond operandTy target
    | none, some a =>
      if op.isLogical then
        -- both sides are evaluated
        boolean fun target => do
          left.build calls
          right.build calls
          Build.emit (.arith a .int)
          Build.emit (.ifZero .ne target)
      else do
        left.build calls
        right.build calls
        Build.emit (.arith a operandTy)
    | none, none => Build.fault (.notBinary op)
  | .step s v ty => buildStep s v ty
  | .negate e ty => do
    e.build calls
    Build.emit (.neg ty)
  | .cast target e => do
    e.build calls
    buildConvert e.ty target

/-- Builds the code of arguments, from left to right. -/
def buildArgs (calls : CallTable) : List Expr → Build Unit
  | [] => return
  | e :: es => do
    e.build calls
    buildArgs calls es

end

/-! ## Statements -/

/-- Evaluates an expression and drops its value. -/
def Expr.buildDiscarded (calls : CallTable) (e : Expr) : Build Unit := do
  e.build calls
  if e.ty ≠ .void then Build.emit (.pop e.ty)

/-- Evaluates a condition and jumps to `target` if it is false. -/
def Expr.buildBranch (calls : CallTable) (target : Label) (e : Expr) : Build Unit := do
  e.build calls
  Build.emit (.ifZero .eq target)

/-- Builds the code of an expression that may be left out. -/
def buildOptional (build : Expr → Build Unit) : Option Expr → Build Unit
  | none => return
  | some e => build e

/-- Reserves slots for variables, in their order. -/
def buildReserves : List VarDecl → Build Unit
  | [] => return
  | v :: vs => do
    let _ ← Build.reserve v.id v.ty
    buildReserves vs

mutual

def Stmt.build (calls : CallTable) : Stmt → Build Unit
  | .declare vars => buildReserves vars
  | .init v e => do
    e.build calls
    let slot ← Build.reserve v.id v.ty
    Build.emit (.store v.ty slot)
  | .expr e => e.buildDiscarded calls
  | .ret none => Build.emit (.ret .void)
  | .ret (some e) => do
    e.build calls
    Build.emit (.ret e.ty)
  | .block body => buildBlock calls body
  | .whileLoop c body => do
    let test ← Build.newLabel
    let done ← Build.newLabel
    Build.label test
    c.buildBranch calls done
    body.build calls
    Build.emit (.goto test)
    Build.label done
  | .forLoop init c step body => do
    buildOptional (Expr.buildDiscarded calls) init
    let test ← Build.newLabel
    let done ← Build.newLabel
    Build.label test
    buildOptional (Expr.buildBranch calls done) c
    body.build calls
    buildOptional (Expr.buildDiscarded calls) step
    Build.emit (.goto test)
    Build.label done
  | .ifThen c thenBranch => do
    let done ← Build.newLabel
    c.buildBranch calls done
    thenBranch.build calls
    Build.label done
  | .ifElse c thenBranch elseBranch => do
    let otherwise ← Build.newLabel
    let done ← Build.newLabel
    c.buildBranch calls otherwise
    thenBranch.build calls
    Build.emitUnlessReturned (.goto done)
    Build.label otherwise
    elseBranch.build calls
    Build.label done

/-- Builds the code of statements, one after the other. -/
def buildBlock (calls : CallTable) : List Stmt → Build Unit
  | [] => return
  | s :: ss => do
    s.build calls
    buildBlock calls ss

end

/-! ## Functions -/

namespace Function

/-- The name of the function's method, with its descriptor. -/
def spec (f : Function) : String := f.name ++ f.signature.descriptor

/-- Builds the code of a whole function. Parameters come first among the local variables, and a
function without a result may end without a `return`. -/
def build (calls : CallTable) (f : Function) : Build Unit := do
  buildReserves f.params
  buildBlock calls f.body
  if f.signature.ret = .void then Build.emitUnlessReturned (.ret .void)

/-- The method of a function. -/
def method (calls : CallTable) (f : Function) : Except Fault Method :=
  (f.build calls (Method.empty f.spec)).map Prod.snd

end Function

end Core

end MiniC
