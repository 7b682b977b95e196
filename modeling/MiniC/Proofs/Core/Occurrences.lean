import MiniC.Proofs.Core.Typing
import MiniC.Proofs.ScopeStack
import MiniC.Proofs.Surface.Outline

/-!
# Where expressions stand

Every expression of a function stands in some place, where some declarations are visible. Some
places ask for a type, some let an expression be widened, and few have use for an expression without
a value. A checked function is *faithful* if all its expressions respect their places, and if
whatever refers to a variable refers to the innermost visible declaration of its name.
-/

namespace MiniC.Core

/-! ## Visible declarations -/

/-- The declarations that can be seen. -/
abbrev Visible := ScopeStack VarDecl

/-- What a statement declares in the scope where it stands. Blocks, loop bodies and branches take
what they declare with them. -/
def Stmt.declarations : Stmt → List VarDecl
  | .declare vs => vs
  | .init v _ => [v]
  | _ => []

namespace Visible

/-- `d` is the innermost visible declaration of its name, and the only one in its scope. -/
def Innermost (Γ : Visible) (d : VarDecl) : Prop :=
  ∃ inner scope outer, Γ = inner ++ scope :: outer ∧ (∀ s ∈ inner, ∀ e ∈ s, e.name ≠ d.name) ∧
    d ∈ scope ∧ ∀ e ∈ scope, e.name = d.name → e = d

/-- What is visible behind a statement. -/
def after (Γ : Visible) (s : Stmt) : Visible := Γ.declareAll s.declarations

end Visible

/-! ## Places -/

/-- The part that an expression plays in what surrounds it. -/
inductive Place where
  /-- A whole expression statement. -/
  | statement
  /-- What a `for` does first, or behind every round. -/
  | forHead
  | condition
  | initialiser (v : VarDecl)
  | returned
  /-- What is assigned, by an assignment of the given type. -/
  | source (ty : Ty)
  /-- An argument by its number. -/
  | argument (f : String) (i : Nat)
  /-- One operand, with the type that both shall have and the other operand. -/
  | operand (op : BinaryOp) (operandTy : Ty) (other : Expr)
  | negated
  /-- What is cast. -/
  | widened

structure Occurrence where
  place : Place
  visible : Visible
  expr : Expr

mutual

/-- The proper parts of an expression, where they stand. -/
def Expr.parts (Γ : Visible) : Expr → List Occurrence
  | .const _ | .var _ _ | .step _ _ _ => []
  | .assign _ e ty => ⟨.source ty, Γ, e⟩ :: e.parts Γ
  | .call f args _ => argOccurrences Γ f 0 args
  | .binary op left right operandTy _ =>
    ⟨.operand op operandTy right, Γ, left⟩ :: left.parts Γ ++
      ⟨.operand op operandTy left, Γ, right⟩ :: right.parts Γ
  | .negate e _ => ⟨.negated, Γ, e⟩ :: e.parts Γ
  | .cast _ e => ⟨.widened, Γ, e⟩ :: e.parts Γ

/-- The arguments from the `i`-th on, with their parts. -/
def argOccurrences (Γ : Visible) (f : String) : Nat → List Expr → List Occurrence
  | _, [] => []
  | i, e :: es => ⟨.argument f i, Γ, e⟩ :: e.parts Γ ++ argOccurrences Γ f (i + 1) es

end

/-- An expression with all its parts. -/
def Expr.occurrences (Γ : Visible) (place : Place) (e : Expr) : List Occurrence :=
  ⟨place, Γ, e⟩ :: e.parts Γ

/-- An expression that may be left out. -/
def optionalOccurrences (Γ : Visible) (place : Place) : Option Expr → List Occurrence
  | none => []
  | some e => e.occurrences Γ place

mutual

def Stmt.occurrences (Γ : Visible) : Stmt → List Occurrence
  | .declare _ => []
  | .init v e => e.occurrences Γ (.initialiser v)
  | .expr e => e.occurrences Γ .statement
  | .ret value => optionalOccurrences Γ .returned value
  | .block body => blockOccurrences ([] :: Γ) body
  | .whileLoop c body => c.occurrences Γ .condition ++ body.occurrences ([] :: Γ)
  | .forLoop init c step body =>
    optionalOccurrences Γ .forHead init ++ optionalOccurrences Γ .condition c ++
      optionalOccurrences Γ .forHead step ++ body.occurrences ([] :: Γ)
  | .ifThen c thenBranch => c.occurrences Γ .condition ++ thenBranch.occurrences ([] :: Γ)
  | .ifElse c thenBranch elseBranch =>
    c.occurrences Γ .condition ++ thenBranch.occurrences ([] :: Γ) ++
      elseBranch.occurrences ([] :: Γ)

def blockOccurrences (Γ : Visible) : List Stmt → List Occurrence
  | [] => []
  | s :: ss => s.occurrences Γ ++ blockOccurrences (Γ.after s) ss

end

/-- All expressions of a function. The parameters and the body share one scope. -/
def Function.occurrences (f : Function) : List Occurrence :=
  blockOccurrences (ScopeStack.declareAll [[]] f.params) f.body

/-! ## Faithful functions -/

namespace Expr

/-- The variable that the expression itself refers to, and its type. -/
def reference? : Expr → Option (VarId × Ty)
  | .var v ty | .assign v _ ty | .step _ v ty => some (v, ty)
  | _ => none

def isCast : Expr → Bool
  | .cast _ _ => true
  | _ => false

end Expr

namespace Place

/-- The places where an `int` may be cast. Of two operands at most one is. -/
def AdmitsCast : Place → Prop
  | .initialiser _ | .source _ | .argument _ _ | .returned => True
  | .operand op _ other => (op.isArithmetic = true ∨ op.isRelational = true) ∧ other.isCast = false
  | _ => False

/-- The type that the place asks for, in a function that gives a `result`. -/
def Takes (funs : FunctionTypes) (result : Ty) (ty : Ty) : Place → Prop
  | .condition => ty = .bool
  | .initialiser v => ty = v.ty
  | .returned => ty = result
  | .source sourceTy => ty = sourceTy
  | .argument f i => ∃ s, funs f = some s ∧ s.params[i]? = some ty
  | .operand _ operandTy _ => ty = operandTy
  | .statement | .forHead | .negated | .widened => True

end Place

/-- The expression is what it should be where it stands, for functions `funs` and variables that go
by their `name`. -/
structure Occurrence.Faithful (funs : FunctionTypes) (name : VarId → String) (result : Ty)
    (o : Occurrence) : Prop where
  reference : ∀ v ty, o.expr.reference? = some (v, ty) → o.visible.Innermost ⟨v, name v, ty⟩
  call : ∀ f args ty, o.expr = .call f args ty →
    ∃ s, funs f = some s ∧ args.length = s.arity ∧ ty = s.ret
  cast : ∀ target e, o.expr = .cast target e →
    target = .double ∧ e.ty = .int ∧ e.isCast = false ∧ o.place.AdmitsCast
  takes : o.place.Takes funs result o.expr.ty
  noVoid : o.expr.ty = .void → o.place = .statement ∨ o.place = .forHead

namespace Function

/-- The name of the declaration of a variable. -/
def nameOf (f : Function) (v : VarId) : String :=
  ((f.vars.find? fun d => d.id = v).map VarDecl.name).getD ""

def outline (f : Function) : Outline.Function where
  ret := f.signature.ret
  name := f.name
  params := f.params.map fun v => (v.ty, v.name)
  body := outlineBlock f.nameOf f.body

structure Faithful (funs : FunctionTypes) (f : Function) : Prop where
  /-- Variables are numbered in the order of their declarations, each once. -/
  numbers : f.vars.map (fun v => v.id.index) = List.range f.vars.length
  signature : f.signature.params = f.params.map VarDecl.ty
  expressions : ∀ o ∈ f.occurrences, o.Faithful funs f.nameOf f.signature.ret

end Function

end MiniC.Core
