import MiniC.Proofs.Core.Typing
import MiniC.Proofs.ScopeStack
import MiniC.Surface.Basic

/-!
# The type system

When a program is well typed, said by rules and not by a procedure. An expression may have several
types: an `int` expression is a `double` expression as well, wherever it stands, and no rule says
where that is made use of. Variables are typed by the open scopes; a statement sees the
declarations in front of it, and what is declared inside a block, a loop body or an arm of an `if`
ends with it.
-/

namespace MiniC.Surface

open MiniC.Core (FunctionTypes)

/-! ## Scopes -/

/-- The types of the declared variables. -/
abbrev Scopes := ScopeStack (String × Ty)

/-- A declaration as a scope holds it. -/
def entry (x : Ty × Name) : String × Ty := (x.2.value, x.1)

/-- What a statement declares in the scope where it stands. -/
def Stmt.declarations : Stmt → List (Ty × Name)
  | .declare ty xs => xs.map (ty, ·)
  | .init ty x _ => [(ty, x)]
  | _ => []

namespace Scopes

/-- There is an open scope, and the innermost one does not declare `x`. -/
def Fresh (x : String) : Scopes → Prop
  | [] => False
  | scope :: _ => x ∉ scope.map Prod.fst

/-- These variables may be declared together: none is `void`, and no name is declared twice in the
scope. -/
structure Admits (Γ : Scopes) (xs : List (Ty × Name)) : Prop where
  noVoid : ∀ x ∈ xs, x.1 ≠ .void
  fresh : ∀ x ∈ xs, Γ.Fresh x.2.value
  distinct : (xs.map fun x => x.2.value).Nodup

/-- The scopes behind a statement. -/
def after (Γ : Scopes) (s : Stmt) : Scopes := Γ.declareAll (s.declarations.map entry)

end Scopes

/-! ## Rules -/

/-- In the scopes `Γ` the expression has the type, among others perhaps. -/
inductive HasType (funs : FunctionTypes) (Γ : Scopes) : Expr → Ty → Prop where
  | const {c : Located Constant} : HasType funs Γ (.const c) c.value.ty
  | var {x : Name} {ty : Ty} : Γ.find? x.value = some ty → HasType funs Γ (.var x) ty
  | assign {x : Name} {e : Expr} {ty : Ty} : Γ.find? x.value = some ty → HasType funs Γ e ty →
      HasType funs Γ (.assign x e) ty
  | call {f : Name} {args : List Expr} {s : Signature} : funs f.value = some s →
      args.length = s.arity → (∀ arg ∈ args.zip s.params, HasType funs Γ arg.1 arg.2) →
      HasType funs Γ (.call f args) s.ret
  | binary {op : Located BinaryOp} {left right : Expr} {operandTy ty : Ty} :
      op.value.Typed operandTy ty → HasType funs Γ left operandTy →
      HasType funs Γ right operandTy → HasType funs Γ (.binary op left right) ty
  | step {s : Step} {x : Name} {ty : Ty} : Γ.find? x.value = some ty → ty.isNumerical = true →
      HasType funs Γ (.step s x) ty
  | negate {pos : Pos} {e : Expr} {ty : Ty} : HasType funs Γ e ty → ty.isNumerical = true →
      HasType funs Γ (.negate pos e) ty
  | paren {e : Expr} {ty : Ty} : HasType funs Γ e ty → HasType funs Γ (.paren e) ty
  -- for any expression, wherever it stands
  | widen {e : Expr} : HasType funs Γ e .int → HasType funs Γ e .double

mutual

/-- In the scopes `Γ`, the statement may stand in a function that gives a `result`. -/
inductive StmtTyped (funs : FunctionTypes) (result : Ty) : Scopes → Stmt → Prop where
  | declare {Γ : Scopes} {ty : Ty} {xs : List Name} : Γ.Admits (xs.map (ty, ·)) →
      StmtTyped funs result Γ (.declare ty xs)
  -- the value is typed in front of the declaration
  | init {Γ : Scopes} {ty : Ty} {x : Name} {e : Expr} : HasType funs Γ e ty →
      Γ.Admits [(ty, x)] → StmtTyped funs result Γ (.init ty x e)
  | expr {Γ : Scopes} {e : Expr} {ty : Ty} : HasType funs Γ e ty →
      StmtTyped funs result Γ (.expr e)
  | leave {Γ : Scopes} {pos : Pos} : result = .void → StmtTyped funs result Γ (.ret pos none)
  | give {Γ : Scopes} {pos : Pos} {e : Expr} : result ≠ .void → HasType funs Γ e result →
      StmtTyped funs result Γ (.ret pos (some e))
  | block {Γ : Scopes} {body : List Stmt} : BlockTyped funs result ([] :: Γ) body →
      StmtTyped funs result Γ (.block body)
  | whileLoop {Γ : Scopes} {c : Expr} {body : Stmt} : HasType funs Γ c .bool →
      StmtTyped funs result ([] :: Γ) body → StmtTyped funs result Γ (.whileLoop c body)
  | forLoop {Γ : Scopes} {init c step : Option Expr} {body : Stmt} :
      (∀ e ∈ init, ∃ ty, HasType funs Γ e ty) → (∀ e ∈ c, HasType funs Γ e .bool) →
      (∀ e ∈ step, ∃ ty, HasType funs Γ e ty) → StmtTyped funs result ([] :: Γ) body →
      StmtTyped funs result Γ (.forLoop init c step body)
  | ifThen {Γ : Scopes} {c : Expr} {thenBranch : Stmt} : HasType funs Γ c .bool →
      StmtTyped funs result ([] :: Γ) thenBranch → StmtTyped funs result Γ (.ifThen c thenBranch)
  | ifElse {Γ : Scopes} {c : Expr} {thenBranch elseBranch : Stmt} : HasType funs Γ c .bool →
      StmtTyped funs result ([] :: Γ) thenBranch → StmtTyped funs result ([] :: Γ) elseBranch →
      StmtTyped funs result Γ (.ifElse c thenBranch elseBranch)

inductive BlockTyped (funs : FunctionTypes) (result : Ty) : Scopes → List Stmt → Prop where
  | nil {Γ : Scopes} : BlockTyped funs result Γ []
  | cons {Γ : Scopes} {s : Stmt} {ss : List Stmt} : StmtTyped funs result Γ s →
      BlockTyped funs result (Γ.after s) ss → BlockTyped funs result Γ (s :: ss)

end

namespace Function

/-- The parameters as declarations. -/
def declarations (f : Function) : List (Ty × Name) := f.params.map fun p => (p.ty, p.name)

/-- The scope that the parameters share with the body. -/
def scopes (f : Function) : Scopes := ScopeStack.declareAll [[]] (f.declarations.map entry)

structure Typed (funs : FunctionTypes) (f : Function) : Prop where
  params : Scopes.Admits [[]] f.declarations
  body : BlockTyped funs f.ret f.scopes f.body

end Function

/-- The functions that a program can call: the built-in ones and its own. -/
def functionsOf (p : Program) : List (String × Signature) :=
  Builtin.signatures ++ p.map fun f => (f.name.value, f.signature)

def functionTypes (p : Program) : FunctionTypes := fun f => (functionsOf p).lookup f

structure ProgramTyped (p : Program) : Prop where
  names : ((functionsOf p).map Prod.fst).Nodup
  main : functionTypes p "main" = some ⟨.void, []⟩
  functions : ∀ f ∈ p, f.Typed (functionTypes p)

/-- The type from which every other type of the expression is reached by widening. -/
def IsLeastType (funs : FunctionTypes) (Γ : Scopes) (e : Expr) (ty : Ty) : Prop :=
  HasType funs Γ e ty ∧ ∀ ty', HasType funs Γ e ty' → ty.convertsTo ty' = true

/-! ## Consequences of the rules -/

variable {funs : FunctionTypes} {Γ : Scopes}

theorem HasType.convert {e : Expr} {ty ty' : Ty} (h : HasType funs Γ e ty)
    (hc : ty.convertsTo ty' = true) : HasType funs Γ e ty' := by
  simp only [Ty.convertsTo, Bool.or_eq_true, Bool.and_eq_true, decide_eq_true_eq] at hc
  rcases hc with rfl | ⟨rfl, rfl⟩
  · exact h
  · exact h.widen

namespace Scopes

theorem fresh_declare {ty : Ty} {x y : String} :
    Scopes.Fresh y (Γ.declare (x, ty)) ↔ y ≠ x ∧ Γ.Fresh y := by
  cases Γ with
  | nil => simp [ScopeStack.declare, Fresh]
  | cons scope outer => simp [ScopeStack.declare, Fresh]

theorem admits_nil : Γ.Admits [] := ⟨by simp, by simp, by simp⟩

/-- The variables may be declared one after the other. -/
theorem admits_cons {ty : Ty} {x : Name} {xs : List (Ty × Name)} :
    Γ.Admits ((ty, x) :: xs) ↔
      ty ≠ .void ∧ Γ.Fresh x.value ∧ Scopes.Admits (Γ.declare (x.value, ty)) xs := by
  constructor
  · rintro ⟨hvoid, hfresh, hdistinct⟩
    simp only [List.mem_cons, forall_eq_or_imp] at hvoid hfresh
    simp only [List.map_cons, List.nodup_cons] at hdistinct
    refine ⟨hvoid.1, hfresh.1, hvoid.2, fun y hy => ?_, hdistinct.2⟩
    refine fresh_declare.mpr ⟨fun heq => hdistinct.1 ?_, hfresh.2 y hy⟩
    exact List.mem_map.mpr ⟨y, hy, heq⟩
  · rintro ⟨hvoid, hfresh, hvoids, hfreshes, hdistinct⟩
    refine ⟨by simpa using ⟨hvoid, fun _ _ => hvoids _⟩, ?_, ?_⟩
    · simp only [List.mem_cons, forall_eq_or_imp]
      exact ⟨hfresh, fun y hy => (fresh_declare.mp (hfreshes y hy)).2⟩
    · simp only [List.map_cons, List.nodup_cons, List.mem_map]
      refine ⟨?_, hdistinct⟩
      rintro ⟨y, hy, heq⟩
      exact (fresh_declare.mp (hfreshes y hy)).1 heq

end Scopes

end MiniC.Surface
