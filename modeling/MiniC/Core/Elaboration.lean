import MiniC.Builtin
import MiniC.Environment
import MiniC.Fault
import MiniC.Surface.Basic

/-!
# Checking a program

`checkProgram` turns a surface program into a core program, or reports the first thing that is
wrong with it. All signatures are collected before any body is looked at, so functions may call
functions that are defined further down. The bodies are then checked one after the other, and one
environment goes through all of them.

The type of an expression is **inferred** bottom-up. Where a context expects a type, the inferred
type must convert to it, and a cast is put around the expression if the two differ.
-/

namespace MiniC.Core

/-- What can be wrong at some point of a program. -/
inductive CheckProblem where
  | undefinedFunction (f : String)
  | undefinedVariable (x : String)
  | duplicateFunction (f : String)
  | duplicateVariable (x : String)
  | voidVariable (x : String)
  | arityMismatch (f : String) (expected actual : Nat)
  | typeMismatch (expected actual : Ty)
  | illTypedComparison (op : BinaryOp) (left right : Ty)
  | illTypedLogical (op : BinaryOp) (left right : Ty)
  | nonNumericalArithmetic (ty : Ty)
  | nonNumericalStep (ty : Ty)
deriving Repr, DecidableEq

def CheckProblem.text : CheckProblem → String
  | undefinedFunction f => "undefined function " ++ f
  | undefinedVariable x => "undefined variable " ++ x
  | duplicateFunction f => "function " ++ f ++ " is already defined"
  | duplicateVariable x => "variable " ++ x ++ " is already declared in this scope"
  | voidVariable x => "variable " ++ x ++ " cannot have type void"
  | arityMismatch f expected actual =>
    f ++ " expects " ++ toString expected ++ " arguments, got " ++ toString actual
  | typeMismatch expected actual => "expected " ++ expected.text ++ ", got " ++ actual.text
  | illTypedComparison op left right =>
    "cannot compare " ++ left.text ++ " " ++ op.text ++ " " ++ right.text
  | illTypedLogical op left right =>
    op.text ++ " needs bool operands, got " ++ left.text ++ " and " ++ right.text
  | nonNumericalArithmetic ty => "arithmetic on non-numerical type " ++ ty.text
  | nonNumericalStep ty => "cannot increment or decrement a variable of type " ++ ty.text

/-- Why a program is not accepted. -/
inductive CheckError where
  /-- There is no `void main()`. -/
  | noMain
  | problem (e : Located CheckProblem)
deriving Repr, DecidableEq

namespace CheckError

def message : CheckError → String
  | noMain => "program must define void main()"
  | problem e => e.pos.text ++ ": " ++ e.value.text

def pos? : CheckError → Option Pos
  | noMain => none
  | problem e => some e.pos

end CheckError

/-- The result of checking a part of a program. -/
abbrev Checked (α : Type) := Except (Failure CheckError) α

/-- Rejects the program for a problem at `pos`. -/
def reject {α : Type} (problem : CheckProblem) (pos : Pos) : Checked α :=
  .error (.error (.problem ⟨problem, pos⟩))

/-- What a problem with a name that stands at `pos` means for the program. -/
def nameFailure (pos : Pos) : NameProblem → Failure CheckError
  | .duplicateFunction f => .error (.problem ⟨.duplicateFunction f, pos⟩)
  | .undefinedFunction f => .error (.problem ⟨.undefinedFunction f, pos⟩)
  | .duplicateVariable x => .error (.problem ⟨.duplicateVariable x, pos⟩)
  | .undefinedVariable x => .error (.problem ⟨.undefinedVariable x, pos⟩)
  | .voidVariable x => .error (.problem ⟨.voidVariable x, pos⟩)
  | .noScope => .fault .declarationOutsideFunction

/-- A look-up of the name that stands at `pos`. -/
def named {α : Type} (pos : Pos) (r : Except NameProblem α) : Checked α :=
  r.mapError (nameFailure pos)

/-! ## Expressions -/

/-- Puts a cast around `e` unless it has the type `target`. -/
def Expr.widen (target : Ty) (e : Expr) : Expr := if e.ty = target then e else .cast target e

/-- `e`, written at `pos`, where the type `expected` is expected. -/
def coerce (pos : Pos) (expected : Ty) (e : Expr) : Checked Expr :=
  if e.ty.convertsTo expected then .ok (e.widen expected)
  else reject (.typeMismatch expected e.ty) pos

/-- The common type of the operands and the type of the result, for operands of the types `left` and
`right` that are written at `leftPos` and `rightPos`. -/
def operatorTypes (op : Located BinaryOp) (leftPos rightPos : Pos) (left right : Ty) :
    Checked (Ty × Ty) :=
  if op.value.isArithmetic then
    if !left.isNumerical then reject (.nonNumericalArithmetic left) leftPos
    else if !right.isNumerical then reject (.nonNumericalArithmetic right) rightPos
    else .ok (left.common right, left.common right)
  else if op.value.isRelational then
    if left.isNumerical && right.isNumerical then .ok (left.common right, .bool)
    else if left = .bool && right = .bool then .ok (.bool, .bool)
    else reject (.illTypedComparison op.value left right) op.pos
  else if op.value.isLogical then
    if left = .bool && right = .bool then .ok (.bool, .bool)
    else reject (.illTypedLogical op.value left right) op.pos
  else .error (.fault .assignmentOperator)

mutual

/-- The core expression of `e`, with its inferred type. -/
def infer (env : Environment) : Surface.Expr → Checked Expr
  | .const c => return .const c.value
  | .var x => do
    let v ← named x.pos (env.resolve x.value)
    return .var v.id v.ty
  | .assign x e => do
    let v ← named x.pos (env.resolve x.value)
    let e' ← infer env e
    return .assign v.id (← coerce e.pos v.ty e') v.ty
  | .call f args => do
    let s ← named f.pos (env.lookupFunction f.value)
    if s.arity ≠ args.length then
      reject (.arityMismatch f.value s.arity args.length) f.pos
    else return .call f.value (← inferArgs env args s.params) s.ret
  | .binary op left right => do
    let left' ← infer env left
    let right' ← infer env right
    let (operandTy, ty) ← operatorTypes op left.pos right.pos left'.ty right'.ty
    return .binary op.value (left'.widen operandTy) (right'.widen operandTy) operandTy ty
  | .step s x => do
    let v ← named x.pos (env.resolve x.value)
    if v.ty.isNumerical then return .step s v.id v.ty
    else reject (.nonNumericalStep v.ty) x.pos
  | .negate pos e => do
    let e' ← infer env e
    if e'.ty.isNumerical then return .negate e' e'.ty
    else reject (.nonNumericalArithmetic e'.ty) pos
  | .paren e => infer env e

/-- Arguments for parameters of the given types. -/
def inferArgs (env : Environment) : List Surface.Expr → List Ty → Checked (List Expr)
  | e :: es, ty :: tys => do
    let e' ← infer env e
    let arg ← coerce e.pos ty e'
    return arg :: (← inferArgs env es tys)
  | _, _ => return []

end

/-- `e` where the type `expected` is expected. -/
def checkExpr (env : Environment) (expected : Ty) (e : Surface.Expr) : Checked Expr := do
  coerce e.pos expected (← infer env e)

/-! ## Statements -/

/-- Declares `x` in the innermost scope. -/
def declareVar (env : Environment) (ty : Ty) (x : Name) : Checked (VarDecl × Environment) := do
  let (answer, env) := env.declare ty x.value
  let id ← named x.pos answer
  return (⟨id, x.value, ty⟩, env)

/-- Declares several variables in their order. -/
def declareAll (env : Environment) : List (Ty × Name) → Checked (List VarDecl × Environment)
  | [] => return ([], env)
  | (ty, x) :: xs => do
    let (v, env) ← declareVar env ty x
    let (vs, env) ← declareAll env xs
    return (v :: vs, env)

/-- Checks an expression that may be left out. -/
def optionally (check : Surface.Expr → Checked Expr) :
    Option Surface.Expr → Checked (Option Expr)
  | none => return none
  | some e => return some (← check e)

/-- A `return` at `pos` in a function that gives a `result`. -/
def checkReturn (env : Environment) (result : Ty) (pos : Pos) :
    Option Surface.Expr → Checked Stmt
  | none =>
    if result = .void then return .ret none
    else reject (.typeMismatch result .void) pos
  | some e =>
    if result = .void then do
      let e' ← infer env e
      reject (.typeMismatch .void e'.ty) e.pos
    else return .ret (some (← checkExpr env result e))

mutual

/-- Checks a statement of a function that gives a `result`. The scopes of the new environment are
those of the old one, the innermost extended by what the statement declares. -/
def checkStmt (result : Ty) (env : Environment) : Surface.Stmt → Checked (Stmt × Environment)
  | .declare ty xs => do
    let (vs, env) ← declareAll env (xs.map (ty, ·))
    return (.declare vs, env)
  | .init ty x e => do
    let e' ← checkExpr env ty e
    let (v, env) ← declareVar env ty x
    return (.init v e', env)
  | .expr e => return (.expr (← infer env e), env)
  | .ret pos value => return (← checkReturn env result pos value, env)
  | .block body => do
    let (body', env) ← checkStmts result env.pushScope body
    return (.block body', env.popScope)
  | .whileLoop c body => do
    let c' ← checkExpr env .bool c
    let (body', env) ← checkStmt result env.pushScope body
    return (.whileLoop c' body', env.popScope)
  | .forLoop init c step body => do
    let init' ← optionally (infer env) init
    let c' ← optionally (checkExpr env .bool) c
    let step' ← optionally (infer env) step
    let (body', env) ← checkStmt result env.pushScope body
    return (.forLoop init' c' step' body', env.popScope)
  | .ifThen c thenBranch => do
    let c' ← checkExpr env .bool c
    let (thenBranch', env) ← checkStmt result env.pushScope thenBranch
    return (.ifThen c' thenBranch', env.popScope)
  | .ifElse c thenBranch elseBranch => do
    let c' ← checkExpr env .bool c
    let (thenBranch', env) ← checkStmt result env.pushScope thenBranch
    let (elseBranch', env) ← checkStmt result env.popScope.pushScope elseBranch
    return (.ifElse c' thenBranch' elseBranch', env.popScope)

/-- Checks statements one after the other. -/
def checkStmts (result : Ty) (env : Environment) :
    List Surface.Stmt → Checked (List Stmt × Environment)
  | [] => return ([], env)
  | s :: ss => do
    let (s', env) ← checkStmt result env s
    let (ss', env) ← checkStmts result env ss
    return (s' :: ss', env)

end

/-! ## Functions and programs -/

/-- Checks a function in the environment that the functions before it have left behind, and hands on
the environment with the scopes of its own still open. Its parameters and its body share one
scope. -/
def checkNext (env : Environment) (f : Surface.Function) : Checked (Function × Environment) := do
  let (params, env) ← declareAll env.enterFunction (f.params.map fun p => (p.ty, p.name))
  let (body, env) ← checkStmts f.ret env f.body
  let signature ← named f.name.pos (env.lookupFunction f.name.value)
  return ({ name := f.name.value, signature, params, body }, env)

/-- Checks functions in turn, all in one environment. -/
def checkInTurn (env : Environment) : List Surface.Function → Checked Program
  | [] => return []
  | f :: fs => do
    let (f', env) ← checkNext env f
    return f' :: (← checkInTurn env fs)

/-- Adds functions one after the other. A name that is taken is reported where it stands. -/
def register (env : Environment) : List (Name × Signature) → Checked Environment
  | [] => return env
  | (f, s) :: fs => do
    let (answer, env) := env.addFunction f.value s
    named f.pos answer
    register env fs

/-- Adds the built-in functions, which stand nowhere in the text. -/
def addBuiltins (env : Environment) : Checked Environment :=
  register env (Builtin.signatures.map fun f => (⟨f.1, .nowhere⟩, f.2))

/-- Adds the signatures of `fs`. -/
def addSignatures (env : Environment) (fs : List Surface.Function) : Checked Environment :=
  register env (fs.map fun f => (f.name, f.signature))

/-- Does the program start at a `void main()`? -/
def hasMain (env : Environment) : Bool :=
  match env.lookupFunction "main" with
  | .ok s => s.arity = 0 && s.ret = .void
  | .error _ => false

/-- Checks a whole program. -/
def checkProgram (p : Surface.Program) : Checked Program := do
  let env ← addBuiltins Environment.empty
  let env ← addSignatures env p
  if hasMain env then checkInTurn env p
  else .error (.error .noMain)

end MiniC.Core
