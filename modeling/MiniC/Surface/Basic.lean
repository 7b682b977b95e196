import MiniC.Constant
import MiniC.Operator
import MiniC.Source.Located

/-!
# Programs as they are written

The surface tree keeps what the programmer wrote: names instead of variables, parentheses, and the
positions that diagnostics point to.
-/

namespace MiniC.Surface

inductive Expr where
  | const (c : Located Constant)
  | var (x : Name)
  | assign (x : Name) (e : Expr)
  | call (f : Name) (args : List Expr)
  | binary (op : Located BinaryOp) (left right : Expr)
  | step (s : Step) (x : Name)
  | negate (pos : Pos) (e : Expr)
  | paren (e : Expr)
deriving Repr

inductive Stmt where
  | declare (ty : Ty) (names : List Name)
  | init (ty : Ty) (x : Name) (e : Expr)
  | expr (e : Expr)
  | ret (pos : Pos) (value : Option Expr)
  | block (body : List Stmt)
  | whileLoop (condition : Expr) (body : Stmt)
  | forLoop (init condition step : Option Expr) (body : Stmt)
  | ifThen (condition : Expr) (thenBranch : Stmt)
  | ifElse (condition : Expr) (thenBranch elseBranch : Stmt)
deriving Repr

structure Param where
  ty : Ty
  name : Name
deriving Repr, DecidableEq

structure Function where
  ret : Ty
  name : Name
  params : List Param
  body : List Stmt
deriving Repr

abbrev Program := List Function

/-- The type of a function, as its head declares it. -/
def Function.signature (f : Function) : Signature := ⟨f.ret, f.params.map Param.ty⟩

namespace Expr

/-- The position that a diagnostic about the whole expression names. Parentheses are passed over,
and a stepped variable is named by itself. -/
def pos : Expr → Pos
  | const c => c.pos
  | var x | assign x _ | call x _ | step _ x => x.pos
  | binary _ left _ => left.pos
  | negate p _ => p
  | paren e => e.pos

/-- The variable that the expression is, if it can be assigned to. -/
def target? : Expr → Option Name
  | var x => some x
  | _ => none

end Expr

end MiniC.Surface
