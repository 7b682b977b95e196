import MiniC.Core.Build
import MiniC.Proofs.Jvm.Op

/-!
# The code of core programs

What is built from a piece of a program is a list of operations that is put together by `++` along
the tree. Labels are numbered in the order in which the statements and operators that need them are
met. The number of labels that a piece of code needs is read off its tree (`labels`), so the code of
a part depends on what stands before it only through the number of its first label.
-/

namespace MiniC

namespace Jvm

/-! ## Expressions -/

/-- Pushes `true` and runs `test`, which jumps to `done` to keep it; if the test falls through,
`true` is replaced by `false`. -/
def truth (done : Label) (test : List Op) : List Op :=
  [.emit (.iconst 1)] ++ test ++
    [.emit (.pop .bool), .emit (.iconst 0), .emit (.label done)]

/-- Jumps to `target` if the two operands on the stack compare as `cond` says. An unordered pair of
doubles satisfies `ne` only. -/
def compare (cond : Cond) (operandTy : Ty) (target : Label) : List Op :=
  if operandTy = .double then
    [.emit (if cond = .lt ∨ cond = .le then .dcmpg else .dcmpl), .emit (.ifZero cond target)]
  else [.emit (.ifCompare cond target)]

/-- Steps a variable, and leaves its value before or after the step. -/
def stepCode (s : Step) (v : VarId) (ty : Ty) : List Op :=
  let dup := Op.emit (.dup ty)
  [.load ty v] ++
    (if s.isPost then [dup] else []) ++
    [.emit (if ty = .double then .dconst .one else .iconst 1),
      .emit (.arith (if s.isIncrement then .add else .sub) ty)] ++
    (if s.isPost then [] else [dup]) ++
    [.store ty v]

/-- Calls `f` with the arguments on the stack. -/
def invoke (calls : CallTable) (f : String) : Op :=
  match calls.lookup f with
  | some c => .emit (.invoke c.method c.args c.ret.words)
  | none => .fault (.unknownCallee f)

/-- Converts the value on the stack. -/
def convert (source target : Ty) : Op :=
  if source = .int ∧ target = .double then .emit .i2d else .fault (.noConversion source target)

end Jvm

namespace Core

open Jvm

mutual

/-- The number of labels in the code of an expression. -/
def Expr.labels : Expr → Nat
  | .const _ | .var _ _ | .step _ _ _ => 0
  | .assign _ e _ | .negate e _ | .cast _ e => e.labels
  | .call _ args _ => labelsOfArgs args
  | .binary op left right _ _ =>
    (if op.isRelational || op.isLogical then 1 else 0) + left.labels + right.labels

def labelsOfArgs : List Expr → Nat
  | [] => 0
  | e :: es => e.labels + labelsOfArgs es

end

mutual

/-- The code of an expression, whose labels are numbered from `n`. It leaves the value of the
expression on the stack. -/
def Expr.code (calls : CallTable) (n : Nat) : Expr → List Op
  | .const c => [.emit (constant c)]
  | .var v ty => [.load ty v]
  | .assign v e ty => e.code calls n ++ [.emit (.dup ty), .store ty v]
  | .call f args _ => codeOfArgs calls n args ++ [invoke calls f]
  | .binary op left right operandTy _ =>
    match cond? op, arith? op with
    | some cond, _ =>
      truth ⟨n⟩ (left.code calls (n + 1) ++ right.code calls (n + 1 + left.labels) ++
        compare cond operandTy ⟨n⟩)
    | none, some a =>
      if op.isLogical then
        truth ⟨n⟩ (left.code calls (n + 1) ++ right.code calls (n + 1 + left.labels) ++
          [.emit (.arith a .int), .emit (.ifZero .ne ⟨n⟩)])
      else
        left.code calls n ++ right.code calls (n + left.labels) ++ [.emit (.arith a operandTy)]
    | none, none => [.fault (.notBinary op)]
  | .step s v ty => stepCode s v ty
  | .negate e ty => e.code calls n ++ [.emit (.neg ty)]
  | .cast target e => e.code calls n ++ [convert e.ty target]

/-- The code of arguments, from left to right. -/
def codeOfArgs (calls : CallTable) (n : Nat) : List Expr → List Op
  | [] => []
  | e :: es => e.code calls n ++ codeOfArgs calls (n + e.labels) es

end

/-! ## Statements -/

/-- Evaluates an expression and drops its value. -/
def Expr.discarded (calls : CallTable) (n : Nat) (e : Expr) : List Op :=
  e.code calls n ++ if e.ty = .void then [] else [.emit (.pop e.ty)]

/-- Evaluates a condition and jumps to `target` if it is false. -/
def Expr.branchIfFalse (calls : CallTable) (n : Nat) (target : Label) (e : Expr) : List Op :=
  e.code calls n ++ [.emit (.ifZero .eq target)]

/-- The code of an expression that may be left out. -/
def optionalCode (code : Expr → List Op) : Option Expr → List Op
  | none => []
  | some e => code e

/-- The number of labels in the code of an expression that may be left out. -/
def optionalLabels : Option Expr → Nat
  | none => 0
  | some e => e.labels

mutual

/-- The number of labels in the code of a statement. -/
def Stmt.labels : Stmt → Nat
  | .declare _ => 0
  | .init _ e | .expr e => e.labels
  | .ret value => optionalLabels value
  | .block body => labelsOfBlock body
  | .whileLoop c body => 2 + c.labels + body.labels
  | .forLoop init c step body =>
    optionalLabels init + 2 + optionalLabels c + body.labels + optionalLabels step
  | .ifThen c thenBranch => 1 + c.labels + thenBranch.labels
  | .ifElse c thenBranch elseBranch => 2 + c.labels + thenBranch.labels + elseBranch.labels

def labelsOfBlock : List Stmt → Nat
  | [] => 0
  | s :: ss => s.labels + labelsOfBlock ss

end

mutual

/-- The code of a statement, whose labels are numbered from `n`. -/
def Stmt.code (calls : CallTable) (n : Nat) : Stmt → List Op
  | .declare vars => vars.map fun v => .reserve v.id v.ty
  | .init v e => e.code calls n ++ [.reserve v.id v.ty, .store v.ty v.id]
  | .expr e => e.discarded calls n
  | .ret none => [.emit (.ret .void)]
  | .ret (some e) => e.code calls n ++ [.emit (.ret e.ty)]
  | .block body => codeOfBlock calls n body
  | .whileLoop c body =>
    let test : Label := ⟨n⟩
    let done : Label := ⟨n + 1⟩
    [.emit (.label test)] ++ c.branchIfFalse calls (n + 2) done ++
      body.code calls (n + 2 + c.labels) ++
      [.emit (.goto test), .emit (.label done)]
  | .forLoop init c step body =>
    let k := n + optionalLabels init
    let test : Label := ⟨k⟩
    let done : Label := ⟨k + 1⟩
    let inBody := k + 2 + optionalLabels c
    optionalCode (Expr.discarded calls n) init ++
      [.emit (.label test)] ++ optionalCode (Expr.branchIfFalse calls (k + 2) done) c ++
      body.code calls inBody ++
      optionalCode (Expr.discarded calls (inBody + body.labels)) step ++
      [.emit (.goto test), .emit (.label done)]
  | .ifThen c thenBranch =>
    let done : Label := ⟨n⟩
    c.branchIfFalse calls (n + 1) done ++ thenBranch.code calls (n + 1 + c.labels) ++
      [.emit (.label done)]
  | .ifElse c thenBranch elseBranch =>
    let otherwise : Label := ⟨n⟩
    let done : Label := ⟨n + 1⟩
    let inThen := n + 2 + c.labels
    let thenCode := thenBranch.code calls inThen
    c.branchIfFalse calls (n + 2) otherwise ++ thenCode ++
      (if endsInReturn thenCode then [] else [.emit (.goto done)]) ++
      [.emit (.label otherwise)] ++ elseBranch.code calls (inThen + thenBranch.labels) ++
      [.emit (.label done)]

/-- The code of statements, one after the other. -/
def codeOfBlock (calls : CallTable) (n : Nat) : List Stmt → List Op
  | [] => []
  | s :: ss => s.code calls n ++ codeOfBlock calls (n + s.labels) ss

end

/-! ## Functions -/

namespace Function

/-- The code of a whole function. Parameters come first among the local variables, and a function
without a result may end without a `return`. -/
def code (calls : CallTable) (f : Function) : List Op :=
  let body := codeOfBlock calls 0 f.body
  (f.params.map fun v => .reserve v.id v.ty) ++ body ++
    if f.signature.ret = .void && !endsInReturn body then [.emit (.ret .void)] else []

end Function

end Core

end MiniC
