import MiniC.Constant
import MiniC.Operator

/-!
# Programs after checking

In the core tree every expression carries its type, every use of a variable carries the identity of
the declaration it refers to, and every widening is written out as a `cast`.
-/

namespace MiniC

/-- The identity of a variable within its function. -/
structure VarId where
  index : Nat
deriving Repr, DecidableEq

def VarId.text (v : VarId) : String := "var." ++ toString v.index

namespace Core

inductive Expr where
  | const (c : Constant)
  | var (v : VarId) (ty : Ty)
  | assign (v : VarId) (e : Expr) (ty : Ty)
  | call (f : String) (args : List Expr) (ty : Ty)
  /-- Both operands have the type `operandTy`. -/
  | binary (op : BinaryOp) (left right : Expr) (operandTy ty : Ty)
  | step (s : Step) (v : VarId) (ty : Ty)
  | negate (e : Expr) (ty : Ty)
  | cast (target : Ty) (e : Expr)
deriving Repr

/-- The type that an expression carries. -/
def Expr.ty : Expr → Ty
  | const c => c.ty
  | var _ ty | assign _ _ ty | call _ _ ty | binary _ _ _ _ ty | step _ _ ty | negate _ ty => ty
  | cast target _ => target

/-- A declared variable. -/
structure VarDecl where
  id : VarId
  name : String
  ty : Ty
deriving Repr, DecidableEq

inductive Stmt where
  | declare (vars : List VarDecl)
  | init (var : VarDecl) (e : Expr)
  | expr (e : Expr)
  | ret (value : Option Expr)
  | block (body : List Stmt)
  | whileLoop (condition : Expr) (body : Stmt)
  | forLoop (init condition step : Option Expr) (body : Stmt)
  | ifThen (condition : Expr) (thenBranch : Stmt)
  | ifElse (condition : Expr) (thenBranch elseBranch : Stmt)
deriving Repr

structure Function where
  name : String
  signature : Signature
  params : List VarDecl
  body : List Stmt
deriving Repr

abbrev Program := List Function

end Core

end MiniC
