import MiniC.Core.Basic
import MiniC.Surface.Basic

/-!
# Outlines

The surface tree and the core tree of a program say the same in different ways. Its *outline* is
what they have in common: no positions and no parentheses as in the one, no types on expressions, no
casts and no numbers of variables as in the other. A declaration is the list of the variables that
it declares, each with its type.
-/

namespace MiniC

namespace Outline

inductive Expr where
  | const (c : Constant)
  | var (x : String)
  | assign (x : String) (e : Expr)
  | call (f : String) (args : List Expr)
  | binary (op : BinaryOp) (left right : Expr)
  | step (s : Step) (x : String)
  | negate (e : Expr)
deriving Repr

inductive Stmt where
  | declare (vars : List (Ty × String))
  | init (ty : Ty) (x : String) (e : Expr)
  | expr (e : Expr)
  | ret (value : Option Expr)
  | block (body : List Stmt)
  | whileLoop (condition : Expr) (body : Stmt)
  | forLoop (init condition step : Option Expr) (body : Stmt)
  | ifThen (condition : Expr) (thenBranch : Stmt)
  | ifElse (condition : Expr) (thenBranch elseBranch : Stmt)
deriving Repr

structure Function where
  ret : Ty
  name : String
  params : List (Ty × String)
  body : List Stmt
deriving Repr

abbrev Program := List Function

end Outline

/-! ## Of surface programs -/

namespace Surface

mutual

def Expr.outline : Expr → Outline.Expr
  | .const c => .const c.value
  | .var x => .var x.value
  | .assign x e => .assign x.value e.outline
  | .call f args => .call f.value (outlineArgs args)
  | .binary op left right => .binary op.value left.outline right.outline
  | .step s x => .step s x.value
  | .negate _ e => .negate e.outline
  | .paren e => e.outline

def outlineArgs : List Expr → List Outline.Expr
  | [] => []
  | e :: es => e.outline :: outlineArgs es

end

mutual

def Stmt.outline : Stmt → Outline.Stmt
  | .declare ty xs => .declare (xs.map fun x => (ty, x.value))
  | .init ty x e => .init ty x.value e.outline
  | .expr e => .expr e.outline
  | .ret _ value => .ret (value.map Expr.outline)
  | .block body => .block (outlineBlock body)
  | .whileLoop c body => .whileLoop c.outline body.outline
  | .forLoop init c step body =>
    .forLoop (init.map Expr.outline) (c.map Expr.outline) (step.map Expr.outline) body.outline
  | .ifThen c thenBranch => .ifThen c.outline thenBranch.outline
  | .ifElse c thenBranch elseBranch => .ifElse c.outline thenBranch.outline elseBranch.outline

def outlineBlock : List Stmt → List Outline.Stmt
  | [] => []
  | s :: ss => s.outline :: outlineBlock ss

end

def Function.outline (f : Function) : Outline.Function where
  ret := f.ret
  name := f.name.value
  params := f.params.map fun p => (p.ty, p.name.value)
  body := outlineBlock f.body

end Surface

/-! ## Of core programs -/

namespace Core

mutual

/-- Casts are dropped, and variables go by their names. -/
def Expr.outline (name : VarId → String) : Expr → Outline.Expr
  | .const c => .const c
  | .var v _ => .var (name v)
  | .assign v e _ => .assign (name v) (e.outline name)
  | .call f args _ => .call f (outlineArgs name args)
  | .binary op left right _ _ => .binary op (left.outline name) (right.outline name)
  | .step s v _ => .step s (name v)
  | .negate e _ => .negate (e.outline name)
  | .cast _ e => e.outline name

def outlineArgs (name : VarId → String) : List Expr → List Outline.Expr
  | [] => []
  | e :: es => e.outline name :: outlineArgs name es

end

mutual

def Stmt.outline (name : VarId → String) : Stmt → Outline.Stmt
  | .declare vs => .declare (vs.map fun v => (v.ty, v.name))
  | .init v e => .init v.ty v.name (e.outline name)
  | .expr e => .expr (e.outline name)
  | .ret value => .ret (value.map (Expr.outline name))
  | .block body => .block (outlineBlock name body)
  | .whileLoop c body => .whileLoop (c.outline name) (body.outline name)
  | .forLoop init c step body =>
    .forLoop (init.map (Expr.outline name)) (c.map (Expr.outline name))
      (step.map (Expr.outline name)) (body.outline name)
  | .ifThen c thenBranch => .ifThen (c.outline name) (thenBranch.outline name)
  | .ifElse c thenBranch elseBranch =>
    .ifElse (c.outline name) (thenBranch.outline name) (elseBranch.outline name)

def outlineBlock (name : VarId → String) : List Stmt → List Outline.Stmt
  | [] => []
  | s :: ss => s.outline name :: outlineBlock name ss

end

end Core

end MiniC
