import Mathlib.Logic.Function.Basic
import MiniC.Proofs.Core.Checked
import MiniC.Proofs.Surface.Likeness

/-!
# Checking programs that are alike

The checker cannot tell two programs that are alike from each other: it accepts both or rejects
both. The core trees differ only in the names that declared variables have kept, and the errors only
in the name of a variable and in where they point to. All that the renaming has to satisfy is that
it keeps different names different.

An environment takes part in this with the names of its scopes. Its functions matter only as a table
that is looked up, so they need not even be listed in the same order.
-/

namespace MiniC

/-! ## Renaming in results -/

/-- What is wrong with a name, for the new name of a variable. -/
def NameProblem.rename (r : String → String) : NameProblem → NameProblem
  | duplicateVariable x => duplicateVariable (r x)
  | undefinedVariable x => undefinedVariable (r x)
  | voidVariable x => voidVariable (r x)
  | duplicateFunction f => duplicateFunction f
  | undefinedFunction f => undefinedFunction f
  | noScope => noScope

namespace Core

/-- What is wrong, for the new name of a variable; functions keep their names. -/
def CheckProblem.rename (r : String → String) : CheckProblem → CheckProblem
  | undefinedVariable x => undefinedVariable (r x)
  | duplicateVariable x => duplicateVariable (r x)
  | voidVariable x => voidVariable (r x)
  | problem => problem

def VarDecl.rename (r : String → String) (v : VarDecl) : VarDecl := { v with name := r v.name }

mutual

/-- Renames the variables that a statement declares. -/
def Stmt.rename (r : String → String) : Stmt → Stmt
  | .declare vars => .declare (vars.map (VarDecl.rename r))
  | .init var e => .init (var.rename r) e
  | .expr e => .expr e
  | .ret value => .ret value
  | .block body => .block (renameBlock r body)
  | .whileLoop c body => .whileLoop c (body.rename r)
  | .forLoop init c step body => .forLoop init c step (body.rename r)
  | .ifThen c thenBranch => .ifThen c (thenBranch.rename r)
  | .ifElse c thenBranch elseBranch => .ifElse c (thenBranch.rename r) (elseBranch.rename r)

def renameBlock (r : String → String) : List Stmt → List Stmt
  | [] => []
  | s :: ss => s.rename r :: renameBlock r ss

end

/-- Renames the parameters and all variables that the body declares. -/
def Function.rename (r : String → String) (f : Function) : Function :=
  { f with params := f.params.map (VarDecl.rename r), body := renameBlock r f.body }

def renameProgram (r : String → String) (p : Program) : Program := p.map (Function.rename r)

/-! ### Renaming that changes nothing -/

theorem CheckProblem.rename_id (p : CheckProblem) : p.rename id = p := by
  cases p <;> rfl

theorem map_rename_id (vs : List VarDecl) : vs.map (VarDecl.rename id) = vs := List.map_id vs

mutual

theorem Stmt.rename_id : ∀ s : Stmt, s.rename id = s
  | .declare vars => by rw [Stmt.rename, map_rename_id]
  | .init _ _ | .expr _ | .ret _ => rfl
  | .block body => by rw [Stmt.rename, renameBlock_id body]
  | .whileLoop _ body | .forLoop _ _ _ body | .ifThen _ body => by
    simp only [Stmt.rename, Stmt.rename_id body]
  | .ifElse _ thenBranch elseBranch => by
    rw [Stmt.rename, Stmt.rename_id thenBranch, Stmt.rename_id elseBranch]

theorem renameBlock_id : ∀ ss : List Stmt, renameBlock id ss = ss
  | [] => rfl
  | s :: ss => by rw [renameBlock, Stmt.rename_id s, renameBlock_id ss]

end

theorem Function.rename_id (f : Function) : f.rename id = f := by
  rw [Function.rename, map_rename_id, renameBlock_id]

/-- The identity renames no program, so results of programs that differ in places only are equal. -/
theorem renameProgram_id (p : Program) : renameProgram id p = p := by
  rw [renameProgram, show Function.rename id = id from funext Function.rename_id, List.map_id]

end Core

/-! ## Environments -/

/-- The scope with its variables renamed. -/
def Scope.rename (r : String → String) (scope : Scope) : Scope :=
  scope.map fun entry => (r entry.1, entry.2)

/-- A renaming that keeps names apart finds in the renamed scope what the name finds in the
scope. -/
theorem Scope.lookup_rename {r : String → String} (hr : r.Injective) (scope : Scope)
    (x : String) : (scope.rename r).lookup (r x) = scope.lookup x := by
  induction scope with
  | nil => rfl
  | cons entry scope ih =>
    have hkey : (r x == r entry.1) = (x == entry.1) := by
      rw [Bool.eq_iff_iff, beq_iff_eq, beq_iff_eq, hr.eq_iff]
    simp only [Scope.rename, List.map_cons, List.lookup_cons, hkey] at ih ⊢
    rw [ih]
    rfl

namespace Environment

/-- The environments know the same functions, and their scopes hold the same variables under names
that correspond. -/
structure Alike (r : String → String) (env env' : Environment) : Prop where
  functions : ∀ f, env'.functions.lookup f = env.functions.lookup f
  scopes : env'.scopes = env.scopes.map (Scope.rename r)
  nextVar : env'.nextVar = env.nextVar

variable {r : String → String} {env env' : Environment}

/-- Entering a function forgets all scopes. -/
theorem alike_enterFunction (h : ∀ f, env'.functions.lookup f = env.functions.lookup f) :
    env.enterFunction.Alike r env'.enterFunction :=
  ⟨h, rfl, rfl⟩

theorem Alike.pushScope (h : env.Alike r env') : env.pushScope.Alike r env'.pushScope :=
  ⟨h.functions, congrArg ([] :: ·) h.scopes, h.nextVar⟩

theorem Alike.popScope (h : env.Alike r env') : env.popScope.Alike r env'.popScope := by
  refine ⟨h.functions, ?_, h.nextVar⟩
  show env'.scopes.tail = env.scopes.tail.map _
  rw [h.scopes, List.map_tail]

/-- Related by the renaming. -/
def Renamed (r : String → String) (p p' : NameProblem) : Prop := p' = p.rename r

/-- Functions keep their names, so they are found or missed alike. -/
theorem Alike.lookupFunction (h : env.Alike r env') (f : String) :
    EndAlike (Renamed r) Eq (env.lookupFunction f) (env'.lookupFunction f) := by
  unfold Environment.lookupFunction
  rw [h.functions f]
  split
  · exact .ok rfl
  · exact .error rfl

/-- Whether a signature is entered or refused, the tables stay alike. -/
theorem Alike.addFunction (h : env.Alike r env') (f : String) (s : Signature) :
    EndAlike (Renamed r) Eq (env.addFunction f s).1 (env'.addFunction f s).1 ∧
      (env.addFunction f s).2.Alike r (env'.addFunction f s).2 := by
  unfold Environment.addFunction
  rw [h.functions f]
  split
  · exact ⟨.error rfl, h⟩
  · refine ⟨.ok rfl, fun g => ?_, h.scopes, h.nextVar⟩
    simp only [List.lookup_cons, h.functions g]

/-- A renamed variable resolves to the same number and type. -/
theorem Alike.resolve (hr : r.Injective) (h : env.Alike r env') (x : String) :
    EndAlike (Renamed r) Eq (env.resolve x) (env'.resolve (r x)) := by
  have hfound : env'.scopes.findSome? (·.lookup (r x)) = env.scopes.findSome? (·.lookup x) := by
    rw [h.scopes, List.findSome?_map]
    exact congrArg (env.scopes.findSome? ·) (funext fun scope => scope.lookup_rename hr x)
  unfold Environment.resolve
  rw [hfound]
  split
  · exact .ok rfl
  · exact .error rfl

/-- A renamed variable is declared under the same number or refused alike, and the environments stay
alike. -/
theorem Alike.declare (hr : r.Injective) (h : env.Alike r env') (ty : Ty) (x : String) :
    EndAlike (Renamed r) Eq (env.declare ty x).1 (env'.declare ty (r x)).1 ∧
      (env.declare ty x).2.Alike r (env'.declare ty (r x)).2 := by
  unfold Environment.declare
  split
  · exact ⟨.error rfl, h⟩
  · rw [h.scopes, h.nextVar]
    cases hscopes : env.scopes with
    | nil => exact ⟨.error rfl, h⟩
    | cons scope outer =>
      simp only [List.map_cons, scope.lookup_rename hr]
      split
      · exact ⟨.error rfl, h⟩
      · exact ⟨.ok rfl, h.functions, rfl, rfl⟩

end Environment

namespace Core

open Environment (Renamed)

variable {r : String → String} {P : Pos → Pos → Prop} {env env' : Environment}

/-! ## Failures -/

/-- Why programs that are alike are not accepted. -/
inductive FailureAlike (r : String → String) (P : Pos → Pos → Prop) :
    Failure CheckError → Failure CheckError → Prop where
  | noMain : FailureAlike r P (.error .noMain) (.error .noMain)
  | problem {e e' : Located CheckProblem} : e.Alike (CheckProblem.rename r) P e' →
      FailureAlike r P (.error (.problem e)) (.error (.problem e'))
  | fault (f : Fault) : FailureAlike r P (.fault f) (.fault f)

/-- Nothing is renamed and nothing has moved. -/
theorem FailureAlike.eq {e e' : Failure CheckError} (h : FailureAlike id Eq e e') : e' = e := by
  cases h with
  | noMain => rfl
  | fault f => rfl
  | @problem e e' h =>
    obtain ⟨problem, pos⟩ := e'
    have hvalue : problem = e.value.rename id := h.value
    have hpos : e.pos = pos := h.pos
    rw [hvalue, CheckProblem.rename_id, ← hpos]

/-- The outcomes of checking two parts of programs that are alike. -/
abbrev CheckedAlike {α : Type} (r : String → String) (P : Pos → Pos → Prop) (R : α → α → Prop) :
    Checked α → Checked α → Prop :=
  EndAlike (FailureAlike r P) R

/-- A problem that names no variable is rejected alike at alike places. -/
theorem reject_alike {α : Type} {R : α → α → Prop} {problem : CheckProblem} {p q : Pos}
    (hsame : problem.rename r = problem) (h : P p q) :
    CheckedAlike r P R (reject problem p) (reject problem q) :=
  .error (.problem ⟨hsame.symm, h⟩)

/-- Placing alike failures at alike places keeps them alike. -/
theorem named_alike {α : Type} {R : α → α → Prop} {x x' : Except NameProblem α} {p q : Pos}
    (hx : EndAlike (Renamed r) R x x') (h : P p q) :
    CheckedAlike r P R (named p x) (named q x') := by
  refine hx.mapError ?_
  rintro problem _ rfl
  cases problem with
  | noScope => exact .fault _
  | _ => exact .problem ⟨rfl, h⟩

/-! ## Expressions -/

theorem coerce_alike {p q : Pos} (h : P p q) (expected : Ty) (e : Expr) :
    CheckedAlike r P Eq (coerce p expected e) (coerce q expected e) := by
  unfold coerce
  split
  · exact .ok rfl
  · exact reject_alike rfl h

/-- The types of an operator depend on the operator and the operand types; the places only show in
failures. -/
theorem operatorTypes_alike {op op' : Located BinaryOp} {p p' q q' : Pos}
    (hop : op.Alike id P op') (hp : P p p') (hq : P q q') (left right : Ty) :
    CheckedAlike r P Eq (operatorTypes op p q left right)
      (operatorTypes op' p' q' left right) := by
  unfold operatorTypes
  rw [show op'.value = op.value from hop.value]
  split
  · split
    · exact reject_alike rfl hp
    · split
      · exact reject_alike rfl hq
      · exact .ok rfl
  · split
    · split
      · exact .ok rfl
      · split
        · exact .ok rfl
        · exact reject_alike rfl hop.pos
    · split
      · split
        · exact .ok rfl
        · exact reject_alike rfl hop.pos
      · exact .error (.fault _)

theorem resolve_alike (hr : r.Injective) (henv : env.Alike r env') {x y : Name}
    (h : x.Alike r P y) :
    CheckedAlike r P Eq (named x.pos (env.resolve x.value))
      (named y.pos (env'.resolve y.value)) := by
  rw [h.value]
  exact named_alike (henv.resolve hr x.value) h.pos

mutual

/-- Alike expressions are accepted as the same expression or refused alike: accepted expressions
hold numbers of variables, no names and no places. -/
theorem infer_alike (hr : r.Injective) (henv : env.Alike r env') :
    ∀ {e d : Surface.Expr}, e.Alike r P d → CheckedAlike r P Eq (infer env e) (infer env' d)
  | .const c, .const d, .const h => by
    rw [infer, infer, show d.value = c.value from h.value]
    exact .pure rfl
  | _, _, .var h => by
    rw [infer, infer]
    refine (resolve_alike hr henv h).bind ?_
    rintro v _ rfl
    exact .pure rfl
  | _, _, .assign hx he => by
    rw [infer, infer]
    refine (resolve_alike hr henv hx).bind ?_
    rintro v _ rfl
    refine (infer_alike hr henv he).bind ?_
    rintro e' _ rfl
    refine (coerce_alike he.pos v.ty e').bind ?_
    rintro src _ rfl
    exact .pure rfl
  | .call f _, .call g _, .call hf hargs => by
    rw [infer, infer, hargs.length_eq, show g.value = f.value from hf.value]
    refine (named_alike (henv.lookupFunction f.value) hf.pos).bind ?_
    rintro s _ rfl
    split
    · exact reject_alike rfl hf.pos
    · refine (inferArgs_alike hr henv hargs s.params).bind ?_
      rintro args _ rfl
      exact .pure rfl
  | .binary op _ _, .binary op' _ _, .binary hop hleft hright => by
    rw [infer, infer]
    refine (infer_alike hr henv hleft).bind ?_
    rintro left _ rfl
    refine (infer_alike hr henv hright).bind ?_
    rintro right _ rfl
    refine (operatorTypes_alike hop hleft.pos hright.pos left.ty right.ty).bind ?_
    rintro tys _ rfl
    rw [show op'.value = op.value from hop.value]
    exact .pure rfl
  | _, _, .step s h => by
    rw [infer, infer]
    refine (resolve_alike hr henv h).bind ?_
    rintro v _ rfl
    split
    · exact .pure rfl
    · exact reject_alike rfl h.pos
  | _, _, .negate hpos he => by
    rw [infer, infer]
    refine (infer_alike hr henv he).bind ?_
    rintro e' _ rfl
    split
    · exact .pure rfl
    · exact reject_alike rfl hpos
  | _, _, .paren he => by
    rw [infer, infer]
    exact infer_alike hr henv he

/-- The same for arguments checked against the same parameter types. -/
theorem inferArgs_alike (hr : r.Injective) (henv : env.Alike r env') :
    ∀ {es ds : List Surface.Expr}, Surface.ArgsAlike r P es ds → ∀ tys : List Ty,
      CheckedAlike r P Eq (inferArgs env es tys) (inferArgs env' ds tys)
  | _, _, .nil, tys => by
    rw [inferArgs, inferArgs]
    · exact .pure rfl
    · simp
    · simp
  | _, _, .cons he hes, [] => by
    rw [inferArgs, inferArgs]
    · exact .pure rfl
    · simp
    · simp
  | _, _, .cons he hes, ty :: tys => by
    rw [inferArgs, inferArgs]
    refine (infer_alike hr henv he).bind ?_
    rintro e' _ rfl
    refine (coerce_alike he.pos ty e').bind ?_
    rintro arg _ rfl
    refine (inferArgs_alike hr henv hes tys).bind ?_
    rintro args _ rfl
    exact .pure rfl

end

theorem checkExpr_alike (hr : r.Injective) (henv : env.Alike r env') (expected : Ty)
    {e d : Surface.Expr} (h : e.Alike r P d) :
    CheckedAlike r P Eq (checkExpr env expected e) (checkExpr env' expected d) := by
  refine (infer_alike hr henv h).bind ?_
  rintro e' _ rfl
  exact coerce_alike h.pos expected e'

/-- An optional part is checked alike if a present one is. -/
theorem optionally_alike {check check' : Surface.Expr → Checked Expr}
    (hcheck : ∀ {e d : Surface.Expr}, e.Alike r P d → CheckedAlike r P Eq (check e) (check' d))
    {e d : Option Surface.Expr} (h : Surface.OptionalAlike r P e d) :
    CheckedAlike r P Eq (optionally check e) (optionally check' d) := by
  cases h with
  | none => exact .pure rfl
  | some h =>
    refine (hcheck h).bind ?_
    rintro e' _ rfl
    exact .pure rfl

/-! ## Statements -/

/-- A renamed declaration yields the renamed variable. -/
theorem declareVar_alike (hr : r.Injective) (henv : env.Alike r env') (ty : Ty) {x y : Name}
    (h : x.Alike r P y) :
    CheckedAlike r P (fun d d' => d'.1 = d.1.rename r ∧ d.2.Alike r d'.2) (declareVar env ty x)
      (declareVar env' ty y) := by
  unfold declareVar
  rw [h.value]
  obtain ⟨hanswer, henv₁⟩ := henv.declare hr ty x.value
  refine (named_alike hanswer h.pos).bind ?_
  rintro id _ rfl
  exact .pure ⟨rfl, henv₁⟩

/-- What is declared, name by name. -/
def DeclarationsAlike (r : String → String) (P : Pos → Pos → Prop) :
    List (Ty × Name) → List (Ty × Name) → Prop :=
  List.Forall₂ fun d d' => d'.1 = d.1 ∧ d.2.Alike r P d'.2

/-- Declarations in turn yield the renamed variables, by induction on them. -/
theorem declareAll_alike (hr : r.Injective) {xs ys : List (Ty × Name)}
    (h : DeclarationsAlike r P xs ys) :
    ∀ {env env' : Environment}, env.Alike r env' →
      CheckedAlike r P (fun d d' => d'.1 = d.1.map (VarDecl.rename r) ∧ d.2.Alike r d'.2)
        (declareAll env xs) (declareAll env' ys) := by
  induction h with
  | nil => intro env env' henv; exact .pure ⟨rfl, henv⟩
  | @cons x y xs ys hxy _ ih =>
    intro env env' henv
    obtain ⟨ty, x⟩ := x
    obtain ⟨ty', y⟩ := y
    obtain ⟨hty, hname⟩ := hxy
    obtain rfl : ty' = ty := hty
    refine (declareVar_alike hr henv _ hname).bind ?_
    rintro ⟨v, env₁⟩ ⟨v', env₁'⟩ ⟨hv, henv₁⟩
    obtain rfl : v' = v.rename r := hv
    refine (ih henv₁).bind ?_
    rintro ⟨vs, env₂⟩ ⟨vs', env₂'⟩ ⟨hvs, henv₂⟩
    obtain rfl : vs' = vs.map (VarDecl.rename r) := hvs
    exact .pure ⟨rfl, henv₂⟩

/-- Alike returns are accepted as renamed ones of each other or refused alike. -/
theorem checkReturn_alike (hr : r.Injective) (henv : env.Alike r env') (result : Ty) {p q : Pos}
    (hpos : P p q) {e d : Option Surface.Expr} (h : Surface.OptionalAlike r P e d) :
    CheckedAlike r P (fun s s' => s' = s.rename r) (checkReturn env result p e)
      (checkReturn env' result q d) := by
  cases h with
  | none =>
    rw [checkReturn, checkReturn]
    split
    · exact .pure (by rw [Stmt.rename])
    · exact reject_alike rfl hpos
  | some h =>
    rw [checkReturn, checkReturn]
    split
    · refine (infer_alike hr henv h).bind ?_
      rintro e' _ rfl
      exact reject_alike rfl h.pos
    · refine (checkExpr_alike hr henv result h).bind ?_
      rintro e' _ rfl
      exact .pure (by rw [Stmt.rename])

/-- A checked statement and the environment behind it. -/
def StmtsAlike {α : Type} (rename : α → α) (r : String → String) (d d' : α × Environment) : Prop :=
  d'.1 = rename d.1 ∧ d.2.Alike r d'.2

mutual

/-- Alike statements are accepted as renamed ones of each other or refused alike, and leave alike
environments. -/
theorem checkStmt_alike (hr : r.Injective) (result : Ty) :
    ∀ {s d : Surface.Stmt}, s.Alike r P d → ∀ {env env' : Environment}, env.Alike r env' →
      CheckedAlike r P (StmtsAlike (Stmt.rename r) r) (checkStmt result env s)
        (checkStmt result env' d)
  | _, _, .declare ty h, env, env', henv => by
    rw [checkStmt, checkStmt]
    have hxs : DeclarationsAlike r P _ _ :=
      List.forall₂_map_left_iff.mpr (List.forall₂_map_right_iff.mpr
        (h.imp fun x y hxy => (⟨rfl, hxy⟩ : (ty, y).1 = (ty, x).1 ∧ x.Alike r P y)))
    refine (declareAll_alike hr hxs henv).bind ?_
    rintro ⟨vs, env₁⟩ ⟨_, env₁'⟩ ⟨rfl, henv₁⟩
    exact .pure ⟨by rw [Stmt.rename], henv₁⟩
  | _, _, .init ty hx he, env, env', henv => by
    rw [checkStmt, checkStmt]
    refine (checkExpr_alike hr henv ty he).bind ?_
    rintro e' _ rfl
    refine (declareVar_alike hr henv ty hx).bind ?_
    rintro ⟨v, env₁⟩ ⟨_, env₁'⟩ ⟨rfl, henv₁⟩
    exact .pure ⟨by rw [Stmt.rename], henv₁⟩
  | _, _, .expr he, env, env', henv => by
    rw [checkStmt, checkStmt]
    refine (infer_alike hr henv he).bind ?_
    rintro e' _ rfl
    exact .pure ⟨by rw [Stmt.rename], henv⟩
  | _, _, .ret hpos he, env, env', henv => by
    rw [checkStmt, checkStmt]
    refine (checkReturn_alike hr henv result hpos he).bind ?_
    rintro s' _ rfl
    exact .pure ⟨rfl, henv⟩
  | _, _, .block h, env, env', henv => by
    rw [checkStmt, checkStmt]
    refine (checkStmts_alike hr result h henv.pushScope).bind ?_
    rintro ⟨body, env₁⟩ ⟨_, env₁'⟩ ⟨rfl, henv₁⟩
    exact .pure ⟨by rw [Stmt.rename], henv₁.popScope⟩
  | _, _, .whileLoop hc h, env, env', henv => by
    rw [checkStmt, checkStmt]
    refine (checkExpr_alike hr henv .bool hc).bind ?_
    rintro c _ rfl
    refine (checkStmt_alike hr result h henv.pushScope).bind ?_
    rintro ⟨body, env₁⟩ ⟨_, env₁'⟩ ⟨rfl, henv₁⟩
    exact .pure ⟨by rw [Stmt.rename], henv₁.popScope⟩
  | _, _, .forLoop hinit hc hstep h, env, env', henv => by
    rw [checkStmt, checkStmt]
    refine (optionally_alike (infer_alike hr henv) hinit).bind ?_
    rintro init _ rfl
    refine (optionally_alike (checkExpr_alike hr henv .bool) hc).bind ?_
    rintro c _ rfl
    refine (optionally_alike (infer_alike hr henv) hstep).bind ?_
    rintro step _ rfl
    refine (checkStmt_alike hr result h henv.pushScope).bind ?_
    rintro ⟨body, env₁⟩ ⟨_, env₁'⟩ ⟨rfl, henv₁⟩
    exact .pure ⟨by rw [Stmt.rename], henv₁.popScope⟩
  | _, _, .ifThen hc h, env, env', henv => by
    rw [checkStmt, checkStmt]
    refine (checkExpr_alike hr henv .bool hc).bind ?_
    rintro c _ rfl
    refine (checkStmt_alike hr result h henv.pushScope).bind ?_
    rintro ⟨thenBranch, env₁⟩ ⟨_, env₁'⟩ ⟨rfl, henv₁⟩
    exact .pure ⟨by rw [Stmt.rename], henv₁.popScope⟩
  | _, _, .ifElse hc hthen helse, env, env', henv => by
    rw [checkStmt, checkStmt]
    refine (checkExpr_alike hr henv .bool hc).bind ?_
    rintro c _ rfl
    refine (checkStmt_alike hr result hthen henv.pushScope).bind ?_
    rintro ⟨thenBranch, env₁⟩ ⟨_, env₁'⟩ ⟨rfl, henv₁⟩
    refine (checkStmt_alike hr result helse henv₁.popScope.pushScope).bind ?_
    rintro ⟨elseBranch, env₂⟩ ⟨_, env₂'⟩ ⟨rfl, henv₂⟩
    exact .pure ⟨by rw [Stmt.rename], henv₂.popScope⟩

/-- The same for blocks. -/
theorem checkStmts_alike (hr : r.Injective) (result : Ty) :
    ∀ {ss ds : List Surface.Stmt}, Surface.BlockAlike r P ss ds →
      ∀ {env env' : Environment}, env.Alike r env' →
        CheckedAlike r P (StmtsAlike (renameBlock r) r) (checkStmts result env ss)
          (checkStmts result env' ds)
  | _, _, .nil, env, env', henv => by
    rw [checkStmts, checkStmts]
    exact .pure ⟨rfl, henv⟩
  | _, _, .cons hs hss, env, env', henv => by
    rw [checkStmts, checkStmts]
    refine (checkStmt_alike hr result hs henv).bind ?_
    rintro ⟨s, env₁⟩ ⟨_, env₁'⟩ ⟨rfl, henv₁⟩
    refine (checkStmts_alike hr result hss henv₁).bind ?_
    rintro ⟨ss, env₂⟩ ⟨_, env₂'⟩ ⟨rfl, henv₂⟩
    exact .pure ⟨by rw [renameBlock], henv₂⟩

end

/-! ## Functions and programs -/

/-- Functions are checked alike when the tables answer the same for every function name. -/
theorem checkFunction_alike (hr : r.Injective)
    (hfuns : ∀ f, env'.functions.lookup f = env.functions.lookup f) {f g : Surface.Function}
    (h : f.Alike r P g) :
    CheckedAlike r P (fun f' g' => g' = f'.rename r) (checkFunction env f)
      (checkFunction env' g) := by
  have hparams : DeclarationsAlike r P (f.params.map fun p => (p.ty, p.name))
      (g.params.map fun p => (p.ty, p.name)) :=
    List.forall₂_map_left_iff.mpr (List.forall₂_map_right_iff.mpr
      (h.params.imp fun p q hpq => ⟨hpq.ty, hpq.name⟩))
  unfold checkFunction
  rw [h.ret, show g.name.value = f.name.value from h.name.value]
  refine (declareAll_alike hr hparams (Environment.alike_enterFunction hfuns)).bind ?_
  rintro ⟨params, env₁⟩ ⟨_, env₁'⟩ ⟨rfl, henv₁⟩
  refine (checkStmts_alike hr f.ret h.body henv₁).bind ?_
  rintro ⟨body, env₂⟩ ⟨_, env₂'⟩ ⟨rfl, henv₂⟩
  refine (named_alike (henv₂.lookupFunction f.name.value) h.name.pos).bind ?_
  rintro signature _ rfl
  exact .pure rfl

/-- Alike programs enter the same signatures. -/
theorem addSignatures_alike {p q : Surface.Program} (h : Surface.ProgramAlike r P p q) :
    ∀ {env env' : Environment}, env.Alike r env' →
      CheckedAlike r P (Environment.Alike r) (addSignatures env p) (addSignatures env' q) := by
  induction h with
  | nil => intro env env' henv; exact .pure henv
  | @cons f g p q hfg _ ih =>
    intro env env' henv
    rw [addSignatures_cons, addSignatures_cons,
      show g.name.value = f.name.value from hfg.name.value, hfg.signature]
    obtain ⟨hanswer, henv₁⟩ := henv.addFunction f.name.value f.signature
    exact (named_alike hanswer hfg.name.pos).bind fun _ _ _ => ih henv₁

/-- Alike programs have their functions accepted as renamed ones of each other. -/
theorem checkFunctions_alike (hr : r.Injective) (henv : env.Alike r env') {p q : Surface.Program}
    (h : Surface.ProgramAlike r P p q) :
    CheckedAlike r P (fun t u => u = renameProgram r t) (checkFunctions env p)
      (checkFunctions env' q) := by
  induction h with
  | nil => exact .pure rfl
  | cons hfg _ ih =>
    refine (checkFunction_alike hr henv.functions hfg).bind ?_
    rintro f' _ rfl
    refine ih.bind ?_
    rintro t _ rfl
    exact .pure rfl

/-- Renaming variables does not touch the question of `main`. -/
theorem hasMain_alike (henv : env.Alike r env') : hasMain env' = hasMain env := by
  unfold hasMain Environment.lookupFunction
  rw [henv.functions]

/-- Programs that are alike are both accepted, with core trees that differ by the renaming, or both
rejected, for problems that differ by the renaming and at corresponding places. -/
theorem checkProgram_alike (hr : r.Injective) {p q : Surface.Program}
    (h : Surface.ProgramAlike r P p q) :
    CheckedAlike r P (fun t u => u = renameProgram r t) (checkProgram p) (checkProgram q) := by
  have hstart : builtinEnvironment.Alike r builtinEnvironment := ⟨fun _ => rfl, rfl, rfl⟩
  rw [checkProgram_eq, checkProgram_eq]
  refine (addSignatures_alike h hstart).bind fun env env' henv => ?_
  rw [hasMain_alike henv]
  split
  · exact checkFunctions_alike hr henv h
  · exact .error .noMain

end Core

end MiniC
