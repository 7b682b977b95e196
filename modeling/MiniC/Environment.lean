import MiniC.Core.Basic

/-!
# Names in scope

An `Environment` knows the functions of the program and the variables that the scopes open at some
point of a function have declared. Variables are numbered in the order of their declaration, across
all scopes of a function; a number is never used again. What may fail gives the environment that it
leaves in either case.
-/

namespace MiniC

/-- What a name of a variable stands for. -/
structure Variable where
  id : VarId
  ty : Ty
deriving Repr, DecidableEq

/-- What can be wrong with a name. -/
inductive NameProblem where
  | duplicateFunction (f : String)
  | undefinedFunction (f : String)
  | duplicateVariable (x : String)
  | undefinedVariable (x : String)
  | voidVariable (x : String)
  | noScope
deriving Repr, DecidableEq

def NameProblem.text : NameProblem → String
  | duplicateFunction f => "function " ++ f ++ " is already defined"
  | undefinedFunction f => "undefined function " ++ f
  | duplicateVariable x => "variable " ++ x ++ " is already declared in this scope"
  | undefinedVariable x => "undefined variable " ++ x
  | voidVariable x => "variable " ++ x ++ " declared void"
  | noScope => "variable declared outside of any scope"

/-- The variables of one scope. -/
abbrev Scope := List (String × Variable)

/-- The functions of a program and the open scopes, the innermost first. -/
structure Environment where
  functions : List (String × Signature)
  scopes : List Scope
  nextVar : Nat
deriving Repr, DecidableEq

namespace Environment

def empty : Environment := ⟨[], [], 0⟩

/-- Adds a function under a name that no other function has. -/
def addFunction (env : Environment) (f : String) (s : Signature) :
    Except NameProblem Unit × Environment :=
  match env.functions.lookup f with
  | some _ => (.error (.duplicateFunction f), env)
  | none => (.ok (), { env with functions := (f, s) :: env.functions })

def lookupFunction (env : Environment) (f : String) : Except NameProblem Signature :=
  match env.functions.lookup f with
  | some s => .ok s
  | none => .error (.undefinedFunction f)

/-- Closes every scope, restarts the numbering and opens the scope of a function. -/
def enterFunction (env : Environment) : Environment := { env with scopes := [[]], nextVar := 0 }

def pushScope (env : Environment) : Environment := { env with scopes := [] :: env.scopes }

/-- Closes the innermost scope; without an open scope nothing happens. -/
def popScope (env : Environment) : Environment := { env with scopes := env.scopes.tail }

/-- Declares `x` in the innermost scope. -/
def declare (env : Environment) (ty : Ty) (x : String) : Except NameProblem VarId × Environment :=
  if ty = .void then (.error (.voidVariable x), env)
  else
    let v : VarId := ⟨env.nextVar⟩
    match env.scopes with
    | [] => (.error .noScope, env)
    | scope :: outer =>
      match scope.lookup x with
      | some _ => (.error (.duplicateVariable x), env)
      | none =>
        (.ok v, { env with
          scopes := ((x, ⟨v, ty⟩) :: scope) :: outer
          nextVar := env.nextVar + 1 })

/-- The innermost declaration of `x`. -/
def resolve (env : Environment) (x : String) : Except NameProblem Variable :=
  match env.scopes.findSome? (·.lookup x) with
  | some v => .ok v
  | none => .error (.undefinedVariable x)

end Environment

end MiniC
