import Mathlib.Data.List.Forall2
import Mathlib.Data.List.Nodup
import MiniC.Proofs.Core.LeastTypes

/-!
# Checking decides the type system

A statement is accepted exactly if a rule derives it, and the environment behind it has the scopes
that the rules give the next statement. The scopes that a statement opens are closed again behind
it, so only the innermost one ever differs; for a block it is enough to know that the others are
the same.
-/

namespace MiniC.Core

open Surface (Scopes HasType StmtTyped BlockTyped ProgramTyped)

variable {env env' : Environment} {funs : FunctionTypes} {Γ : Scopes}

/-! ## Recorded types of statements -/

/-- An expression that may be left out. -/
def OptionalRecorded (funs : FunctionTypes) (Γ : Scopes) :
    Option Surface.Expr → Option Expr → Prop
  | none, none => True
  | some e, some e' => Recorded funs Γ e e'.uncast
  | _, _ => False

mutual

/-- `s'` has the shape of `s`, and every expression of it carries the least types that it has in the
scopes where it stands, the first of which are `Γ`. -/
def StmtRecorded (funs : FunctionTypes) (Γ : Scopes) (s : Surface.Stmt) (s' : Stmt) : Prop :=
  match s, s' with
  | .declare _ _, .declare _ => True
  | .init _ _ e, .init _ e' => Recorded funs Γ e e'.uncast
  | .expr e, .expr e' => Recorded funs Γ e e'
  | .ret _ value, .ret value' => OptionalRecorded funs Γ value value'
  | .block body, .block body' => BlockRecorded funs ([] :: Γ) body body'
  | .whileLoop c body, .whileLoop c' body' =>
    Recorded funs Γ c c'.uncast ∧ StmtRecorded funs ([] :: Γ) body body'
  | .forLoop init c step body, .forLoop init' c' step' body' =>
    OptionalRecorded funs Γ init init' ∧ OptionalRecorded funs Γ c c' ∧
      OptionalRecorded funs Γ step step' ∧ StmtRecorded funs ([] :: Γ) body body'
  | .ifThen c thenBranch, .ifThen c' thenBranch' =>
    Recorded funs Γ c c'.uncast ∧ StmtRecorded funs ([] :: Γ) thenBranch thenBranch'
  | .ifElse c thenBranch elseBranch, .ifElse c' thenBranch' elseBranch' =>
    Recorded funs Γ c c'.uncast ∧ StmtRecorded funs ([] :: Γ) thenBranch thenBranch' ∧
      StmtRecorded funs ([] :: Γ) elseBranch elseBranch'
  | _, _ => False

def BlockRecorded (funs : FunctionTypes) (Γ : Scopes) : List Surface.Stmt → List Stmt → Prop
  | [], [] => True
  | s :: ss, s' :: ss' => StmtRecorded funs Γ s s' ∧ BlockRecorded funs (Γ.after s) ss ss'
  | _, _ => False

end

/-- The bodies of a program, function by function. -/
def ProgramRecorded (p : Surface.Program) (t : Program) : Prop :=
  List.Forall₂ (fun f f' => BlockRecorded (Surface.functionTypes p) f.scopes f.body f'.body) p t

/-! ## Expected types -/

/-- An expression accepted at a type has it, and its parts are recorded with their least types. -/
theorem checkExpr_typed (henv : env.Knows funs Γ) {ty : Ty} {e : Surface.Expr} {e' : Expr}
    (h : checkExpr env ty e = .ok e') : HasType funs Γ e ty ∧ Recorded funs Γ e e'.uncast := by
  obtain ⟨inner, hinner, hc, rfl⟩ := checkExpr_eq_ok.mp h
  exact ⟨(infer_hasType henv e hinner).convert hc, (infer_recorded henv e hinner).widen ty⟩

/-- An expression is accepted at every type it has. -/
theorem checkExpr_complete (henv : env.Knows funs Γ) {ty : Ty} {e : Surface.Expr}
    (h : HasType funs Γ e ty) : ∃ e', checkExpr env ty e = .ok e' := by
  obtain ⟨inner, hinner, hc⟩ := infer_complete henv h
  exact ⟨inner.widen ty, checkExpr_eq_ok.mpr ⟨inner, hinner, hc, rfl⟩⟩

section Optional

variable {check : Surface.Expr → Checked Expr} {e : Option Surface.Expr}

theorem optionally_typed {Q : Surface.Expr → Prop} {e' : Option Expr}
    (hcheck : ∀ x x', check x = .ok x' → Q x ∧ Recorded funs Γ x x'.uncast)
    (h : optionally check e = .ok e') : (∀ x ∈ e, Q x) ∧ OptionalRecorded funs Γ e e' := by
  cases e with
  | none =>
    simp only [optionally, pure_eq_ok] at h
    subst h
    exact ⟨by simp, trivial⟩
  | some x =>
    simp only [optionally, bind_eq_ok, pure_eq_ok] at h
    obtain ⟨x', hx, rfl⟩ := h
    obtain ⟨hQ, hrecorded⟩ := hcheck x x' hx
    exact ⟨by simpa using hQ, hrecorded⟩

theorem optionally_complete (h : ∀ x ∈ e, ∃ x', check x = .ok x') :
    ∃ e', optionally check e = .ok e' := by
  cases e with
  | none => exact ⟨none, rfl⟩
  | some x =>
    obtain ⟨x', hx⟩ := h x rfl
    refine ⟨some x', ?_⟩
    simp only [optionally, bind_eq_ok, pure_eq_ok]
    exact ⟨x', hx, rfl⟩

end Optional

/-- An expression that is accepted has a type, and its parts are recorded with their least types. -/
theorem infer_typed (henv : env.Knows funs Γ) (e : Surface.Expr) (e' : Expr)
    (h : infer env e = .ok e') : (∃ ty, HasType funs Γ e ty) ∧ Recorded funs Γ e e'.uncast :=
  ⟨⟨e'.ty, infer_hasType henv e h⟩, (infer_recorded henv e h).uncast⟩

/-! ## Declarations -/

/-- A variable that was declared is not void and new in its scope. -/
theorem declareVar_known (henv : env.Knows funs Γ) {ty : Ty} {x : Name} {v : VarDecl}
    (h : declareVar env ty x = .ok (v, env')) :
    ty ≠ .void ∧ Γ.Fresh x.value ∧ env'.Knows funs (Γ.declare (x.value, ty)) := by
  obtain ⟨id, hd, rfl⟩ := declareVar_eq_ok.mp h
  exact henv.of_declare hd

/-- A variable that is not void and new in its scope can be declared. -/
theorem declareVar_complete (henv : env.Knows funs Γ) {ty : Ty} {x : Name} (hty : ty ≠ .void)
    (hx : Γ.Fresh x.value) : ∃ v env', declareVar env ty x = .ok (v, env') := by
  obtain ⟨id, env', hd⟩ := henv.declare hty hx
  exact ⟨_, env', declareVar_eq_ok.mpr ⟨id, hd, rfl⟩⟩

/-- Declarations that were made are admitted by the scopes, each behind the ones before it. -/
theorem declareAll_known {xs : List (Ty × Name)} :
    ∀ {env env' : Environment} {Γ : Scopes} {vs : List VarDecl},
      env.Knows funs Γ → declareAll env xs = .ok (vs, env') →
      Γ.Admits xs ∧ env'.Knows funs (Γ.declareAll (xs.map Surface.entry)) := by
  induction xs with
  | nil =>
    intro env env' Γ vs henv h
    simp only [declareAll, pure_eq_ok, Prod.mk.injEq] at h
    obtain ⟨rfl, rfl⟩ := h
    exact ⟨Scopes.admits_nil, henv⟩
  | cons x xs ih =>
    intro env env' Γ vs henv h
    obtain ⟨ty, x⟩ := x
    simp only [declareAll, bind_eq_ok, pure_eq_ok, Prod.mk.injEq] at h
    obtain ⟨⟨v, env₁⟩, hv, ⟨ws, env₂⟩, hws, rfl, rfl⟩ := h
    obtain ⟨hty, hx, henv₁⟩ := declareVar_known henv hv
    obtain ⟨hadmits, henv₂⟩ := ih henv₁ hws
    exact ⟨Scopes.admits_cons.mpr ⟨hty, hx, hadmits⟩, henv₂⟩

/-- Declarations the scopes admit can be made. -/
theorem declareAll_complete {xs : List (Ty × Name)} :
    ∀ {env : Environment} {Γ : Scopes}, env.Knows funs Γ → Γ.Admits xs →
      ∃ r, declareAll env xs = .ok r := by
  induction xs with
  | nil => exact fun _ _ => ⟨_, rfl⟩
  | cons x xs ih =>
    intro env Γ henv h
    obtain ⟨ty, x⟩ := x
    obtain ⟨hty, hx, hadmits⟩ := Scopes.admits_cons.mp h
    obtain ⟨v, env₁, hv⟩ := declareVar_complete henv hty hx
    obtain ⟨⟨vs, env₂⟩, hvs⟩ := ih (declareVar_known henv hv).2.2 hadmits
    refine ⟨(v :: vs, env₂), ?_⟩
    simp only [declareAll, bind_eq_ok, pure_eq_ok]
    exact ⟨_, hv, _, hvs, rfl⟩

/-! ## Statements -/

theorem checkReturn_typed (henv : env.Knows funs Γ) {result : Ty} {pos : Pos}
    {value : Option Surface.Expr} {s' : Stmt} (h : checkReturn env result pos value = .ok s') :
    StmtTyped funs result Γ (.ret pos value) ∧ StmtRecorded funs Γ (.ret pos value) s' := by
  cases value with
  | none =>
    obtain ⟨hvoid, rfl⟩ := checkReturn_none_eq_ok.mp h
    exact ⟨.leave hvoid, trivial⟩
  | some e =>
    obtain ⟨hvoid, e', he, rfl⟩ := checkReturn_some_eq_ok.mp h
    obtain ⟨htyped, hrecorded⟩ := checkExpr_typed henv he
    exact ⟨.give hvoid htyped, hrecorded⟩

/-- A return that is typed for the result is accepted. -/
theorem checkReturn_complete (henv : env.Knows funs Γ) {result : Ty} {pos : Pos}
    {value : Option Surface.Expr} (h : StmtTyped funs result Γ (.ret pos value)) :
    ∃ s', checkReturn env result pos value = .ok s' := by
  cases h with
  | leave hvoid => exact ⟨.ret none, checkReturn_none_eq_ok.mpr ⟨hvoid, rfl⟩⟩
  | give hvoid he =>
    obtain ⟨e', he'⟩ := checkExpr_complete henv he
    exact ⟨.ret (some e'), checkReturn_some_eq_ok.mpr ⟨hvoid, e', he', rfl⟩⟩

mutual

/-- An accepted statement is typed, and the environment behind it knows the scopes behind it. -/
theorem checkStmt_typed {result : Ty} :
    ∀ (s : Surface.Stmt) {env env' : Environment} {Γ : Scopes} {s' : Stmt},
      env.Knows funs Γ → checkStmt result env s = .ok (s', env') →
      StmtTyped funs result Γ s ∧ StmtRecorded funs Γ s s' ∧ env'.Knows funs (Γ.after s)
  | .declare ty xs, env, env', Γ, s', henv, h => by
    simp only [checkStmt, bind_eq_ok, pure_eq_ok, Prod.mk.injEq] at h
    obtain ⟨⟨vs, env₁⟩, hvs, rfl, rfl⟩ := h
    obtain ⟨hadmits, henv₁⟩ := declareAll_known henv hvs
    exact ⟨.declare hadmits, trivial, henv₁⟩
  | .init ty x e, env, env', Γ, s', henv, h => by
    simp only [checkStmt, bind_eq_ok, pure_eq_ok, Prod.mk.injEq] at h
    obtain ⟨e', he, ⟨v, env₁⟩, hv, rfl, rfl⟩ := h
    obtain ⟨htyped, hrecorded⟩ := checkExpr_typed henv he
    obtain ⟨hty, hx, henv₁⟩ := declareVar_known henv hv
    exact ⟨.init htyped (Scopes.admits_cons.mpr ⟨hty, hx, Scopes.admits_nil⟩), hrecorded, henv₁⟩
  | .expr e, env, env', Γ, s', henv, h => by
    simp only [checkStmt, bind_eq_ok, pure_eq_ok, Prod.mk.injEq] at h
    obtain ⟨e', he, rfl, rfl⟩ := h
    exact ⟨.expr (infer_hasType henv e he), infer_recorded henv e he, henv⟩
  | .ret pos value, env, env', Γ, s', henv, h => by
    simp only [checkStmt, bind_eq_ok, pure_eq_ok, Prod.mk.injEq] at h
    obtain ⟨r, hr, rfl, rfl⟩ := h
    obtain ⟨htyped, hrecorded⟩ := checkReturn_typed henv hr
    exact ⟨htyped, hrecorded, henv⟩
  | .block body, env, env', Γ, s', henv, h => by
    simp only [checkStmt, bind_eq_ok, pure_eq_ok, Prod.mk.injEq] at h
    obtain ⟨⟨body', env₁⟩, hbody, rfl, rfl⟩ := h
    obtain ⟨htyped, hrecorded, Γ', htail, henv₁⟩ := checkStmts_typed body henv.pushScope hbody
    exact ⟨.block htyped, hrecorded, henv₁.popScope htail⟩
  | .whileLoop c body, env, env', Γ, s', henv, h => by
    simp only [checkStmt, bind_eq_ok, pure_eq_ok, Prod.mk.injEq] at h
    obtain ⟨c', hc, ⟨body', env₁⟩, hbody, rfl, rfl⟩ := h
    obtain ⟨hctyped, hcrecorded⟩ := checkExpr_typed henv hc
    obtain ⟨htyped, hrecorded, henv₁⟩ := checkStmt_typed body henv.pushScope hbody
    exact ⟨.whileLoop hctyped htyped, ⟨hcrecorded, hrecorded⟩,
      henv₁.popScope (ScopeStack.tail_declareAll _ _)⟩
  | .forLoop init c step body, env, env', Γ, s', henv, h => by
    simp only [checkStmt, bind_eq_ok, pure_eq_ok, Prod.mk.injEq] at h
    obtain ⟨init', hinit, c', hc, step', hstep, ⟨body', env₁⟩, hbody, rfl, rfl⟩ := h
    obtain ⟨hityped, hirecorded⟩ := optionally_typed (infer_typed henv) hinit
    obtain ⟨hctyped, hcrecorded⟩ := optionally_typed (fun _ _ => checkExpr_typed henv) hc
    obtain ⟨hstyped, hsrecorded⟩ := optionally_typed (infer_typed henv) hstep
    obtain ⟨htyped, hrecorded, henv₁⟩ := checkStmt_typed body henv.pushScope hbody
    exact ⟨.forLoop hityped hctyped hstyped htyped,
      ⟨hirecorded, hcrecorded, hsrecorded, hrecorded⟩,
      henv₁.popScope (ScopeStack.tail_declareAll _ _)⟩
  | .ifThen c thenBranch, env, env', Γ, s', henv, h => by
    simp only [checkStmt, bind_eq_ok, pure_eq_ok, Prod.mk.injEq] at h
    obtain ⟨c', hc, ⟨then', env₁⟩, hthen, rfl, rfl⟩ := h
    obtain ⟨hctyped, hcrecorded⟩ := checkExpr_typed henv hc
    obtain ⟨htyped, hrecorded, henv₁⟩ := checkStmt_typed thenBranch henv.pushScope hthen
    exact ⟨.ifThen hctyped htyped, ⟨hcrecorded, hrecorded⟩,
      henv₁.popScope (ScopeStack.tail_declareAll _ _)⟩
  | .ifElse c thenBranch elseBranch, env, env', Γ, s', henv, h => by
    simp only [checkStmt, bind_eq_ok, pure_eq_ok, Prod.mk.injEq] at h
    obtain ⟨c', hc, ⟨then', env₁⟩, hthen, ⟨else', env₂⟩, helse, rfl, rfl⟩ := h
    obtain ⟨hctyped, hcrecorded⟩ := checkExpr_typed henv hc
    obtain ⟨httyped, htrecorded, henv₁⟩ := checkStmt_typed thenBranch henv.pushScope hthen
    have hback := henv₁.popScope (ScopeStack.tail_declareAll _ _)
    obtain ⟨hetyped, herecorded, henv₂⟩ := checkStmt_typed elseBranch hback.pushScope helse
    exact ⟨.ifElse hctyped httyped hetyped, ⟨hcrecorded, htrecorded, herecorded⟩,
      henv₂.popScope (ScopeStack.tail_declareAll _ _)⟩

/-- The same for a block, which changes the innermost scope only. -/
theorem checkStmts_typed {result : Ty} :
    ∀ (ss : List Surface.Stmt) {env env' : Environment} {Γ : Scopes} {ss' : List Stmt},
      env.Knows funs Γ → checkStmts result env ss = .ok (ss', env') →
      BlockTyped funs result Γ ss ∧ BlockRecorded funs Γ ss ss' ∧
        ∃ Γ' : Scopes, Γ'.tail = Γ.tail ∧ env'.Knows funs Γ'
  | [], env, env', Γ, ss', henv, h => by
    simp only [checkStmts, pure_eq_ok, Prod.mk.injEq] at h
    obtain ⟨rfl, rfl⟩ := h
    exact ⟨.nil, trivial, Γ, rfl, henv⟩
  | s :: ss, env, env', Γ, ss', henv, h => by
    simp only [checkStmts, bind_eq_ok, pure_eq_ok, Prod.mk.injEq] at h
    obtain ⟨⟨s', env₁⟩, hs, ⟨rest, env₂⟩, hss, rfl, rfl⟩ := h
    obtain ⟨htyped, hrecorded, henv₁⟩ := checkStmt_typed s henv hs
    obtain ⟨htypeds, hrecordeds, Γ', htail, henv₂⟩ := checkStmts_typed ss henv₁ hss
    exact ⟨.cons htyped htypeds, ⟨hrecorded, hrecordeds⟩, Γ',
      htail.trans (ScopeStack.tail_declareAll _ _), henv₂⟩

end

mutual

/-- A typed statement is accepted. -/
theorem checkStmt_complete {result : Ty} :
    ∀ (s : Surface.Stmt) {env : Environment} {Γ : Scopes},
      env.Knows funs Γ → StmtTyped funs result Γ s → ∃ r, checkStmt result env s = .ok r
  | .declare ty xs, env, Γ, henv, .declare hadmits => by
    obtain ⟨⟨vs, env₁⟩, hvs⟩ := declareAll_complete henv hadmits
    refine ⟨(.declare vs, env₁), ?_⟩
    simp only [checkStmt, bind_eq_ok, pure_eq_ok]
    exact ⟨_, hvs, rfl⟩
  | .init ty x e, env, Γ, henv, .init he hadmits => by
    obtain ⟨e', he'⟩ := checkExpr_complete henv he
    obtain ⟨hty, hx, -⟩ := Scopes.admits_cons.mp hadmits
    obtain ⟨v, env₁, hv⟩ := declareVar_complete henv hty hx
    refine ⟨(.init v e', env₁), ?_⟩
    simp only [checkStmt, bind_eq_ok, pure_eq_ok]
    exact ⟨e', he', _, hv, rfl⟩
  | .expr e, env, Γ, henv, .expr he => by
    obtain ⟨e', he', -⟩ := infer_complete henv he
    refine ⟨(.expr e', env), ?_⟩
    simp only [checkStmt, bind_eq_ok, pure_eq_ok]
    exact ⟨e', he', rfl⟩
  | .ret pos value, env, Γ, henv, h => by
    obtain ⟨s', hs⟩ := checkReturn_complete henv h
    refine ⟨(s', env), ?_⟩
    simp only [checkStmt, bind_eq_ok, pure_eq_ok]
    exact ⟨s', hs, rfl⟩
  | .block body, env, Γ, henv, .block hbody => by
    obtain ⟨⟨body', env₁⟩, hbody'⟩ := checkStmts_complete body henv.pushScope hbody
    refine ⟨(.block body', env₁.popScope), ?_⟩
    simp only [checkStmt, bind_eq_ok, pure_eq_ok]
    exact ⟨_, hbody', rfl⟩
  | .whileLoop c body, env, Γ, henv, .whileLoop hc hbody => by
    obtain ⟨c', hc'⟩ := checkExpr_complete henv hc
    obtain ⟨⟨body', env₁⟩, hbody'⟩ := checkStmt_complete body henv.pushScope hbody
    refine ⟨(.whileLoop c' body', env₁.popScope), ?_⟩
    simp only [checkStmt, bind_eq_ok, pure_eq_ok]
    exact ⟨c', hc', _, hbody', rfl⟩
  | .forLoop init c step body, env, Γ, henv, .forLoop hinit hc hstep hbody => by
    have hinfer : ∀ e : Surface.Expr, (∃ ty, HasType funs Γ e ty) → ∃ e', infer env e = .ok e' := by
      rintro e ⟨ty, he⟩
      obtain ⟨e', he', -⟩ := infer_complete henv he
      exact ⟨e', he'⟩
    obtain ⟨init', hinit'⟩ := optionally_complete fun e he => hinfer e (hinit e he)
    obtain ⟨c', hc'⟩ := optionally_complete fun e he => checkExpr_complete henv (hc e he)
    obtain ⟨step', hstep'⟩ := optionally_complete fun e he => hinfer e (hstep e he)
    obtain ⟨⟨body', env₁⟩, hbody'⟩ := checkStmt_complete body henv.pushScope hbody
    refine ⟨(.forLoop init' c' step' body', env₁.popScope), ?_⟩
    simp only [checkStmt, bind_eq_ok, pure_eq_ok]
    exact ⟨init', hinit', c', hc', step', hstep', _, hbody', rfl⟩
  | .ifThen c thenBranch, env, Γ, henv, .ifThen hc hthen => by
    obtain ⟨c', hc'⟩ := checkExpr_complete henv hc
    obtain ⟨⟨then', env₁⟩, hthen'⟩ := checkStmt_complete thenBranch henv.pushScope hthen
    refine ⟨(.ifThen c' then', env₁.popScope), ?_⟩
    simp only [checkStmt, bind_eq_ok, pure_eq_ok]
    exact ⟨c', hc', _, hthen', rfl⟩
  | .ifElse c thenBranch elseBranch, env, Γ, henv, .ifElse hc hthen helse => by
    obtain ⟨c', hc'⟩ := checkExpr_complete henv hc
    obtain ⟨⟨then', env₁⟩, hthen'⟩ := checkStmt_complete thenBranch henv.pushScope hthen
    -- the first arm has left the scopes as they were, so the second starts from them again
    obtain ⟨-, -, henv₁⟩ := checkStmt_typed thenBranch henv.pushScope hthen'
    have hback := henv₁.popScope (ScopeStack.tail_declareAll _ _)
    obtain ⟨⟨else', env₂⟩, helse'⟩ := checkStmt_complete elseBranch hback.pushScope helse
    refine ⟨(.ifElse c' then' else', env₂.popScope), ?_⟩
    simp only [checkStmt, bind_eq_ok, pure_eq_ok]
    exact ⟨c', hc', _, hthen', _, helse', rfl⟩

theorem checkStmts_complete {result : Ty} :
    ∀ (ss : List Surface.Stmt) {env : Environment} {Γ : Scopes},
      env.Knows funs Γ → BlockTyped funs result Γ ss → ∃ r, checkStmts result env ss = .ok r
  | [], env, _, _, _ => ⟨([], env), rfl⟩
  | s :: ss, env, Γ, henv, .cons hs hss => by
    obtain ⟨⟨s', env₁⟩, hs'⟩ := checkStmt_complete s henv hs
    obtain ⟨-, -, henv₁⟩ := checkStmt_typed s henv hs'
    obtain ⟨⟨ss', env₂⟩, hss'⟩ := checkStmts_complete ss henv₁ hss
    refine ⟨(s' :: ss', env₂), ?_⟩
    simp only [checkStmts, bind_eq_ok, pure_eq_ok]
    exact ⟨_, hs', _, hss', rfl⟩

end

/-! ## Functions and programs -/

/-- An accepted function is typed, and its body is recorded. -/
theorem checkFunction_typed (hfuns : (env.functions.lookup ·) = funs) {f : Surface.Function}
    {f' : Function} (h : checkFunction env f = .ok f') :
    f.Typed funs ∧ BlockRecorded funs f.scopes f.body f'.body := by
  simp only [checkFunction, bind_eq_ok, named_eq_ok, pure_eq_ok] at h
  obtain ⟨⟨params, env₁⟩, hparams, ⟨body, env₂⟩, hbody, s, hs, rfl⟩ := h
  obtain ⟨hadmits, henv₁⟩ := declareAll_known (Environment.knows_enterFunction hfuns) hparams
  obtain ⟨htyped, hrecorded, -⟩ := checkStmts_typed f.body henv₁ hbody
  exact ⟨⟨hadmits, htyped⟩, hrecorded⟩

/-- A typed function whose signature is known is accepted. -/
theorem checkFunction_complete (hfuns : (env.functions.lookup ·) = funs) {f : Surface.Function}
    {s : Signature} (hs : funs f.name.value = some s) (h : f.Typed funs) :
    ∃ f', checkFunction env f = .ok f' := by
  have henv := Environment.knows_enterFunction hfuns
  obtain ⟨⟨params, env₁⟩, hparams⟩ := declareAll_complete henv h.params
  obtain ⟨-, henv₁⟩ := declareAll_known henv hparams
  obtain ⟨⟨body, env₂⟩, hbody⟩ := checkStmts_complete f.body henv₁ h.body
  obtain ⟨-, -, Γ', -, henv₂⟩ := checkStmts_typed f.body henv₁ hbody
  refine ⟨⟨f.name.value, s, params, body⟩, ?_⟩
  simp only [checkFunction, bind_eq_ok, named_eq_ok, pure_eq_ok]
  exact ⟨_, hparams, _, hbody, s, henv₂.lookupFunction_iff.mpr hs, rfl⟩

theorem checkFunctions_typed (hfuns : (env.functions.lookup ·) = funs)
    {fs : List Surface.Function} : ∀ {fs' : Program}, checkFunctions env fs = .ok fs' →
      (∀ f ∈ fs, f.Typed funs) ∧
        List.Forall₂ (fun f f' => BlockRecorded funs f.scopes f.body f'.body) fs fs' := by
  induction fs with
  | nil =>
    intro fs' h
    simp only [checkFunctions, pure_eq_ok] at h
    subst h
    exact ⟨by simp, .nil⟩
  | cons f fs ih =>
    intro fs' h
    simp only [checkFunctions, bind_eq_ok, pure_eq_ok] at h
    obtain ⟨f', hf, rest, hrest, rfl⟩ := h
    obtain ⟨htyped, hrecorded⟩ := checkFunction_typed hfuns hf
    obtain ⟨htypeds, hrecordeds⟩ := ih hrest
    exact ⟨List.forall_mem_cons.mpr ⟨htyped, htypeds⟩, .cons hrecorded hrecordeds⟩

theorem checkFunctions_complete (hfuns : (env.functions.lookup ·) = funs)
    {fs : List Surface.Function} (hknown : ∀ f ∈ fs, funs f.name.value = some f.signature)
    (h : ∀ f ∈ fs, f.Typed funs) : ∃ fs', checkFunctions env fs = .ok fs' := by
  induction fs with
  | nil => exact ⟨[], rfl⟩
  | cons f fs ih =>
    obtain ⟨hf, hfs⟩ := List.forall_mem_cons.mp h
    obtain ⟨hs, hss⟩ := List.forall_mem_cons.mp hknown
    obtain ⟨f', hf'⟩ := checkFunction_complete hfuns hs hf
    obtain ⟨fs', hfs'⟩ := ih hss hfs
    refine ⟨f' :: fs', ?_⟩
    simp only [checkFunctions, bind_eq_ok, pure_eq_ok]
    exact ⟨f', hf', fs', hfs', rfl⟩

/-- The `main` that is asked for takes nothing and returns nothing. -/
theorem hasMain_iff :
    hasMain env = true ↔ env.functions.lookup "main" = some ⟨.void, []⟩ := by
  refine ⟨hasMain_lookup, fun h => ?_⟩
  rw [hasMain, Environment.lookupFunction, h]
  rfl

/-- Names that are new and distinct can be added. -/
theorem addSignatures_complete {fs : List Surface.Function} :
    ∀ (env : Environment),
      (env.functions.map Prod.fst ++ fs.map fun f => f.name.value).Nodup →
      ∃ env', addSignatures env fs = .ok env' := by
  induction fs with
  | nil => exact fun env _ => ⟨env, rfl⟩
  | cons f fs ih =>
    intro env h
    -- the name of `f` moves in front of the names that are there already
    have hnodup := List.nodup_middle.mp h
    have hnew : env.functions.lookup f.name.value = none := by
      rw [List.lookup_eq_none_iff]
      intro entry hentry
      rw [bne_iff_ne]
      intro heq
      refine (List.nodup_cons.mp hnodup).1 (List.mem_append_left _ ?_)
      exact List.mem_map.mpr ⟨entry, hentry, heq.symm⟩
    obtain ⟨env', henv'⟩ :=
      ih { env with functions := (f.name.value, f.signature) :: env.functions } hnodup
    refine ⟨env', ?_⟩
    simp only [addSignatures_cons, bind_eq_ok, named_eq_ok, Environment.addFunction, hnew]
    exact ⟨(), trivial, henv'⟩

/-- The signatures that are collected are those of the program, and no name occurs twice. -/
theorem addSignatures_builtin {p : Surface.Program}
    (h : addSignatures builtinEnvironment p = .ok env) :
    ((Surface.functionsOf p).map Prod.fst).Nodup ∧
      (env.functions.lookup ·) = Surface.functionTypes p := by
  obtain ⟨hperm, hnodup⟩ := addSignatures_perm h
  exact ⟨(hperm.map Prod.fst).nodup_iff.mp hnodup,
    funext fun _ => lookup_eq_of_perm hnodup hperm⟩

/-- An accepted program is typed, and recorded with its least types. -/
theorem checkProgram_typed {p : Surface.Program} {t : Program} (h : checkProgram p = .ok t) :
    ProgramTyped p ∧ ProgramRecorded p t := by
  simp only [checkProgram_eq, bind_eq_ok] at h
  obtain ⟨env, henv, h⟩ := h
  obtain ⟨hnames, hfuns⟩ := addSignatures_builtin henv
  split at h
  · next hmain =>
    obtain ⟨htyped, hrecorded⟩ := checkFunctions_typed hfuns h
    refine ⟨⟨hnames, ?_, htyped⟩, hrecorded⟩
    rw [← hfuns]
    exact hasMain_iff.mp hmain
  · cases h

/-- A typed program is accepted. -/
theorem checkProgram_complete {p : Surface.Program} (h : ProgramTyped p) :
    ∃ t, checkProgram p = .ok t := by
  have hnames := h.names
  rw [Surface.functionsOf, List.map_append, List.map_map] at hnames
  have hbuiltin : (builtinEnvironment.functions.map Prod.fst).Perm
      (Builtin.signatures.map Prod.fst) := (List.reverse_perm _).map _
  obtain ⟨env, henv⟩ := addSignatures_complete builtinEnvironment
    ((hbuiltin.append_right _).nodup_iff.mpr hnames)
  obtain ⟨-, hfuns⟩ := addSignatures_builtin henv
  have hmain : hasMain env = true := by
    rw [hasMain_iff]
    exact (congrFun hfuns "main").trans h.main
  have hknown : ∀ f ∈ p, Surface.functionTypes p f.name.value = some f.signature := by
    intro f hf
    rw [Surface.functionTypes, lookup_eq_some_iff_mem h.names]
    exact List.mem_append_right _ (List.mem_map_of_mem hf)
  obtain ⟨t, ht⟩ := checkFunctions_complete hfuns hknown h.functions
  refine ⟨t, ?_⟩
  simp only [checkProgram_eq, bind_eq_ok]
  exact ⟨env, henv, by rw [if_pos hmain]; exact ht⟩

/-- Exactly the well-typed programs are accepted, and the type on every expression, casts apart, is
the least that the expression has where it stands. A tree with `=` among its binary operators, which
no text has, is neither well typed nor accepted. -/
theorem checkProgram_decides_typing (p : Surface.Program) :
    ((∃ t, checkProgram p = .ok t) ↔ ProgramTyped p) ∧
      ∀ t, checkProgram p = .ok t → ProgramRecorded p t := by
  refine ⟨⟨?_, checkProgram_complete⟩, fun t h => (checkProgram_typed h).2⟩
  rintro ⟨t, h⟩
  exact (checkProgram_typed h).1

end MiniC.Core
