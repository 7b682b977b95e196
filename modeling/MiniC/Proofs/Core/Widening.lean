import MiniC.Proofs.Core.Separate
import MiniC.Proofs.Surface.Contexts

/-!
# Narrower expressions fit everywhere

A *context* is a program with one place left open in which an expression stands. Putting another
expression there whose type converts to the type of the first one keeps the program acceptable, in
whatever context.

The types of the expressions around the place may change with it: a sum of `double`s may become a
sum of `int`s. By induction on the context, every enclosing expression gets a type that converts to
the one it had before, until the change is absorbed: by an operand, an argument, a source or a
returned value that is widened, by a comparison, or by a statement that takes a value of any type.
-/

namespace MiniC

/-! ## The environment of the open place -/

namespace Surface

open MiniC.Core (Checked checkStmt checkStmts declareAll addSignatures builtinEnvironment)

/-- The environment in which the open place is checked, if the statement is checked in `env`. -/
def StmtContext.environment (result : Ty) (env : Environment) :
    StmtContext → Checked Environment
  | .init _ _ _ | .expr _ | .ret _ _ | .whileCondition _ _ | .forInit _ _ _ _
  | .forCondition _ _ _ _ | .forStep _ _ _ _ | .ifCondition _ _ | .ifElseCondition _ _ _ =>
    return env
  | .block before s _ => do
    let (_, env) ← checkStmts result env.pushScope before
    s.environment result env
  | .whileBody _ s | .forBody _ _ _ s | .ifBranch _ s | .ifElseThen _ s _ =>
    s.environment result env.pushScope
  | .ifElseElse _ thenBranch s => do
    let (_, env) ← checkStmt result env.pushScope thenBranch
    s.environment result env.popScope.pushScope

/-- The environment in which the open place is checked, if all signatures are known in `env`. -/
def FunctionContext.environment (env : Environment) (f : FunctionContext) :
    Checked Environment := do
  let (_, env) ← declareAll env.enterFunction (f.front.params.map fun p => (p.ty, p.name))
  let (_, env) ← checkStmts f.front.ret env f.front.body
  f.stmt.environment f.front.ret env

/-- The environment in which the open place is checked. -/
def ProgramContext.environment (p : ProgramContext) : Checked Environment := do
  let env ← addSignatures builtinEnvironment (p.before ++ p.function.front :: p.after)
  p.function.environment env

end Surface

namespace Core

open Surface (ExprContext StmtContext FunctionContext ProgramContext)

variable {env env' : Environment} {ty ty' : Ty} {e : Surface.Expr}

/-! ## What can take the place of an expression -/

theorem convertsTo_trans {a b c : Ty} (hab : a.convertsTo b = true) (hbc : b.convertsTo c = true) :
    a.convertsTo c = true := by
  rcases convertsTo_iff.mp hab with rfl | ⟨rfl, rfl⟩
  · exact hbc
  · rcases convertsTo_iff.mp hbc with rfl | ⟨h, -⟩
    · exact hab
    · cases h

/-- In `env` the expression can stand where the type is expected. -/
def Suits (env : Environment) (ty : Ty) (e : Surface.Expr) : Prop :=
  ∃ e', infer env e = .ok e' ∧ e'.ty.convertsTo ty = true

theorem Suits.mono (h : Suits env ty e) (hc : ty.convertsTo ty' = true) : Suits env ty' e := by
  obtain ⟨e', he, hty⟩ := h
  exact ⟨e', he, convertsTo_trans hty hc⟩

theorem suits_iff_checkExpr : Suits env ty e ↔ ∃ e', checkExpr env ty e = .ok e' := by
  simp only [Suits, checkExpr_eq_ok]
  constructor
  · rintro ⟨inner, hinner, hc⟩
    exact ⟨_, inner, hinner, hc, rfl⟩
  · rintro ⟨_, inner, hinner, hc, rfl⟩
    exact ⟨inner, hinner, hc⟩

/-- `e` has a type in `env`, and `P` holds of everything that can stand where this type is
expected. -/
def Replaceable (env : Environment) (e : Surface.Expr) (P : Surface.Expr → Prop) : Prop :=
  ∃ d, infer env e = .ok d ∧ ∀ e', Suits env d.ty e' → P e'

theorem Replaceable.mono {P Q : Surface.Expr → Prop} (h : Replaceable env e P)
    (hPQ : ∀ e', P e' → Q e') : Replaceable env e Q := by
  obtain ⟨d, hd, hP⟩ := h
  exact ⟨d, hd, fun e' he' => hPQ e' (hP e' he')⟩

/-! ## Expressions -/

/-- One of several arguments, as many as there are parameters. -/
theorem inferArgs_middle {before after : List Surface.Expr} {args' : List Expr} :
    ∀ {tys : List Ty}, (before ++ e :: after).length = tys.length →
      inferArgs env (before ++ e :: after) tys = .ok args' →
      ∃ ty d, infer env e = .ok d ∧ d.ty.convertsTo ty = true ∧
        ∀ e', Suits env ty e' → ∃ args', inferArgs env (before ++ e' :: after) tys = .ok args' := by
  induction before generalizing args' with
  | nil =>
    intro tys hlen h
    cases tys with
    | nil => cases hlen
    | cons ty tys =>
      obtain ⟨d, rest, hd, hc, hrest, -⟩ := inferArgs_cons_eq_ok.mp h
      refine ⟨ty, d, hd, hc, ?_⟩
      rintro e' ⟨d', hd', hc'⟩
      exact ⟨_, inferArgs_cons_eq_ok.mpr ⟨d', rest, hd', hc', hrest, rfl⟩⟩
  | cons b before ih =>
    intro tys hlen h
    cases tys with
    | nil => cases hlen
    | cons ty₁ tys =>
      obtain ⟨b', rest, hb, hcb, hrest, -⟩ := inferArgs_cons_eq_ok.mp h
      obtain ⟨ty, d, hd, hc, hreplace⟩ := ih (Nat.succ.inj hlen) hrest
      refine ⟨ty, d, hd, hc, fun e' he' => ?_⟩
      obtain ⟨rest', hrest'⟩ := hreplace e' he'
      exact ⟨_, inferArgs_cons_eq_ok.mpr ⟨b', rest', hb, hcb, hrest', rfl⟩⟩

/-- Operands of types that convert to the types of accepted operands. -/
theorem infer_binary_mono {op : Located BinaryOp} {left' right' : Surface.Expr} {l r : Expr}
    {tys : Ty × Ty} {leftPos rightPos : Pos}
    (htys : operatorTypes op leftPos rightPos l.ty r.ty = .ok tys)
    (hleft : Suits env l.ty left') (hright : Suits env r.ty right') :
    Suits env tys.2 (.binary op left' right') := by
  obtain ⟨hop, hcl, hcr⟩ := operatorTypes_typed htys
  obtain ⟨l', hl, hl'⟩ := hleft.mono hcl
  obtain ⟨r', hr, hr'⟩ := hright.mono hcr
  obtain ⟨tys', htys', hc⟩ := operatorTypes_complete hop hl' hr' left'.pos right'.pos
  exact ⟨_, infer_binary_eq_ok.mpr ⟨l', r', tys', hl, hr, htys', rfl⟩, hc⟩

theorem suits_of_infer {d : Expr} (h : infer env e = .ok d) : Suits env d.ty e :=
  ⟨d, h, convertsTo_refl _⟩

/-- The type of the whole expression converts to what it was. -/
theorem infer_fill : ∀ (k : ExprContext) {r : Expr}, infer env (k.fill e) = .ok r →
    Replaceable env e fun e' => Suits env r.ty (k.fill e')
  | .hole, r, h => ⟨r, h, fun _ he' => he'⟩
  | .assign x source, r, h => by
    obtain ⟨v, src, hv, hsrc, hc, rfl⟩ := infer_assign_eq_ok.mp h
    refine (infer_fill source hsrc).mono fun e' he' => ?_
    obtain ⟨src', hsrc', hc'⟩ := he'.mono hc
    exact ⟨_, infer_assign_eq_ok.mpr ⟨v, src', hv, hsrc', hc', rfl⟩, convertsTo_refl _⟩
  | .argument f before arg after, r, h => by
    obtain ⟨s, args', hs, harity, hargs, rfl⟩ := infer_call_eq_ok.mp h
    obtain ⟨ty, d, hd, hc, hreplace⟩ := inferArgs_middle harity hargs
    refine (infer_fill arg hd).mono fun e' he' => ?_
    obtain ⟨args'', hargs''⟩ := hreplace _ (he'.mono hc)
    have harity' : (before ++ arg.fill e' :: after).length = s.arity := by
      rw [← harity, List.length_append, List.length_append]
      rfl
    exact ⟨_, infer_call_eq_ok.mpr ⟨s, args'', hs, harity', hargs'', rfl⟩, convertsTo_refl _⟩
  | .leftOperand op left right, r, h => by
    obtain ⟨l, r, tys, hl, hr, htys, rfl⟩ := infer_binary_eq_ok.mp h
    exact (infer_fill left hl).mono fun e' he' => infer_binary_mono htys he' (suits_of_infer hr)
  | .rightOperand op left right, r, h => by
    obtain ⟨l, r, tys, hl, hr, htys, rfl⟩ := infer_binary_eq_ok.mp h
    exact (infer_fill right hr).mono fun e' he' => infer_binary_mono htys (suits_of_infer hl) he'
  | .negate pos operand, r, h => by
    obtain ⟨inner, hinner, hn, rfl⟩ := infer_negate_eq_ok.mp h
    refine (infer_fill operand hinner).mono fun e' he' => ?_
    obtain ⟨inner', hinner', hc⟩ := he'
    have hn' := isNumerical_of_convertsTo hc hn
    exact ⟨_, infer_negate_eq_ok.mpr ⟨inner', hinner', hn', rfl⟩, hc⟩
  | .paren inner, r, h => by
    simp only [ExprContext.fill, infer] at h
    refine (infer_fill inner h).mono fun e' he' => ?_
    obtain ⟨r', hr', hc⟩ := he'
    exact ⟨r', by simpa only [ExprContext.fill, infer] using hr', hc⟩

theorem checkExpr_fill (k : ExprContext) {r : Expr} (h : checkExpr env ty (k.fill e) = .ok r) :
    Replaceable env e fun e' => ∃ r', checkExpr env ty (k.fill e') = .ok r' := by
  obtain ⟨inner, hinner, hc, -⟩ := checkExpr_eq_ok.mp h
  exact (infer_fill k hinner).mono fun e' he' => suits_iff_checkExpr.mp (he'.mono hc)

/-! ## Statements -/

theorem checkStmts_middle {result : Ty} {before after : List Surface.Stmt} {s : Surface.Stmt}
    {r : List Stmt × Environment} :
    checkStmts result env (before ++ s :: after) = .ok r ↔
      ∃ front s' back, checkStmts result env before = .ok front ∧
        checkStmt result front.2 s = .ok s' ∧ checkStmts result s'.2 after = .ok back ∧
        (front.1 ++ s'.1 :: back.1, back.2) = r := by
  induction before generalizing env r with
  | nil =>
    simp only [List.nil_append, checkStmts, bind_eq_ok, pure_eq_ok]
    constructor
    · rintro ⟨s', hs, back, hback, rfl⟩
      exact ⟨_, s', back, rfl, hs, hback, rfl⟩
    · rintro ⟨_, s', back, rfl, hs, hback, rfl⟩
      exact ⟨s', hs, back, hback, rfl⟩
  | cons b before ih =>
    simp only [List.cons_append, checkStmts, bind_eq_ok, pure_eq_ok, ih]
    constructor
    · rintro ⟨b', hb, _, ⟨front, s', back, hfront, hs, hback, rfl⟩, rfl⟩
      exact ⟨_, s', back, ⟨b', hb, front, hfront, rfl⟩, hs, hback, rfl⟩
    · rintro ⟨_, s', back, ⟨b', hb, front, hfront, rfl⟩, hs, hback, rfl⟩
      exact ⟨b', hb, _, ⟨front, s', back, hfront, hs, hback, rfl⟩, rfl⟩

/-- The open place of the statement is reached from `env`, and whatever can stand there in the place
of `e` leads to the same environment behind the statement. -/
def FillsTo (result : Ty) (env env' : Environment) (s : StmtContext) (e : Surface.Expr) : Prop :=
  ∃ inner, s.environment result env = .ok inner ∧
    Replaceable inner e fun e' => ∃ s', checkStmt result env (s.fill e') = .ok (s', env')

theorem checkStmt_fill {result : Ty} :
    ∀ (s : StmtContext) {env env' : Environment} {s' : Stmt},
      checkStmt result env (s.fill e) = .ok (s', env') → FillsTo result env env' s e
  | .init ty x value, env, env', s', h => by
    simp only [StmtContext.fill, checkStmt, bind_eq_ok, pure_eq_ok, Prod.mk.injEq] at h
    obtain ⟨value', hvalue, v, hv, rfl, rfl⟩ := h
    refine ⟨env, rfl, (checkExpr_fill value hvalue).mono ?_⟩
    rintro e' ⟨r, hr⟩
    simp only [StmtContext.fill, checkStmt, bind_eq_ok, pure_eq_ok, Prod.mk.injEq]
    exact ⟨_, r, hr, v, hv, rfl, rfl⟩
  | .expr k, env, env', s', h => by
    simp only [StmtContext.fill, checkStmt, bind_eq_ok, pure_eq_ok, Prod.mk.injEq] at h
    obtain ⟨d, hd, rfl, rfl⟩ := h
    refine ⟨env, rfl, (infer_fill k hd).mono ?_⟩
    rintro e' ⟨r, hr, -⟩
    simp only [StmtContext.fill, checkStmt, bind_eq_ok, pure_eq_ok, Prod.mk.injEq]
    exact ⟨_, r, hr, rfl, trivial⟩
  | .ret pos value, env, env', s', h => by
    simp only [StmtContext.fill, checkStmt, bind_eq_ok, pure_eq_ok, Prod.mk.injEq,
      checkReturn_some_eq_ok] at h
    obtain ⟨_, ⟨hvoid, value', hvalue, rfl⟩, rfl, rfl⟩ := h
    refine ⟨env, rfl, (checkExpr_fill value hvalue).mono ?_⟩
    rintro e' ⟨r, hr⟩
    simp only [StmtContext.fill, checkStmt, bind_eq_ok, pure_eq_ok, Prod.mk.injEq,
      checkReturn_some_eq_ok]
    exact ⟨_, _, ⟨hvoid, r, hr, rfl⟩, rfl, trivial⟩
  | .block before s after, env, env', s', h => by
    simp only [StmtContext.fill, checkStmt, bind_eq_ok, pure_eq_ok, Prod.mk.injEq,
      checkStmts_middle] at h
    obtain ⟨_, ⟨front, ⟨s₁, env₁⟩, back, hfront, hs, hback, rfl⟩, rfl, rfl⟩ := h
    obtain ⟨inner, hinner, hreplace⟩ := checkStmt_fill s hs
    refine ⟨inner, by rw [StmtContext.environment, hfront]; exact hinner, hreplace.mono ?_⟩
    rintro e' ⟨r, hr⟩
    simp only [StmtContext.fill, checkStmt, bind_eq_ok, pure_eq_ok, Prod.mk.injEq,
      checkStmts_middle]
    exact ⟨_, _, ⟨front, (r, env₁), back, hfront, hr, hback, rfl⟩, rfl, rfl⟩
  | .whileCondition c body, env, env', s', h => by
    simp only [StmtContext.fill, checkStmt, bind_eq_ok, pure_eq_ok, Prod.mk.injEq] at h
    obtain ⟨c', hc, body', hbody, rfl, rfl⟩ := h
    refine ⟨env, rfl, (checkExpr_fill c hc).mono ?_⟩
    rintro e' ⟨r, hr⟩
    simp only [StmtContext.fill, checkStmt, bind_eq_ok, pure_eq_ok, Prod.mk.injEq]
    exact ⟨_, r, hr, body', hbody, rfl, rfl⟩
  | .whileBody c body, env, env', s', h => by
    simp only [StmtContext.fill, checkStmt, bind_eq_ok, pure_eq_ok, Prod.mk.injEq] at h
    obtain ⟨c', hc, ⟨body', env₁⟩, hbody, rfl, rfl⟩ := h
    obtain ⟨inner, hinner, hreplace⟩ := checkStmt_fill body hbody
    refine ⟨inner, hinner, hreplace.mono ?_⟩
    rintro e' ⟨r, hr⟩
    simp only [StmtContext.fill, checkStmt, bind_eq_ok, pure_eq_ok, Prod.mk.injEq]
    exact ⟨_, c', hc, _, hr, rfl, rfl⟩
  | .forInit start c step body, env, env', s', h => by
    simp only [StmtContext.fill, checkStmt, optionally, bind_eq_ok, pure_eq_ok, Prod.mk.injEq] at h
    obtain ⟨_, ⟨start', hstart, rfl⟩, c', hc, step', hstep, body', hbody, rfl, rfl⟩ := h
    refine ⟨env, rfl, (infer_fill start hstart).mono ?_⟩
    rintro e' ⟨r, hr, -⟩
    simp only [StmtContext.fill, checkStmt, optionally, bind_eq_ok, pure_eq_ok, Prod.mk.injEq]
    exact ⟨_, _, ⟨r, hr, rfl⟩, c', hc, step', hstep, body', hbody, rfl, rfl⟩
  | .forCondition start c step body, env, env', s', h => by
    simp only [StmtContext.fill, checkStmt, optionally, bind_eq_ok, pure_eq_ok, Prod.mk.injEq] at h
    obtain ⟨start', hstart, _, ⟨c', hc, rfl⟩, step', hstep, body', hbody, rfl, rfl⟩ := h
    refine ⟨env, rfl, (checkExpr_fill c hc).mono ?_⟩
    rintro e' ⟨r, hr⟩
    simp only [StmtContext.fill, checkStmt, optionally, bind_eq_ok, pure_eq_ok, Prod.mk.injEq]
    exact ⟨_, start', hstart, _, ⟨r, hr, rfl⟩, step', hstep, body', hbody, rfl, rfl⟩
  | .forStep start c step body, env, env', s', h => by
    simp only [StmtContext.fill, checkStmt, optionally, bind_eq_ok, pure_eq_ok, Prod.mk.injEq] at h
    obtain ⟨start', hstart, c', hc, _, ⟨step', hstep, rfl⟩, body', hbody, rfl, rfl⟩ := h
    refine ⟨env, rfl, (infer_fill step hstep).mono ?_⟩
    rintro e' ⟨r, hr, -⟩
    simp only [StmtContext.fill, checkStmt, optionally, bind_eq_ok, pure_eq_ok, Prod.mk.injEq]
    exact ⟨_, start', hstart, c', hc, _, ⟨r, hr, rfl⟩, body', hbody, rfl, rfl⟩
  | .forBody start c step body, env, env', s', h => by
    simp only [StmtContext.fill, checkStmt, bind_eq_ok, pure_eq_ok, Prod.mk.injEq] at h
    obtain ⟨start', hstart, c', hc, step', hstep, ⟨body', env₁⟩, hbody, rfl, rfl⟩ := h
    obtain ⟨inner, hinner, hreplace⟩ := checkStmt_fill body hbody
    refine ⟨inner, hinner, hreplace.mono ?_⟩
    rintro e' ⟨r, hr⟩
    simp only [StmtContext.fill, checkStmt, bind_eq_ok, pure_eq_ok, Prod.mk.injEq]
    exact ⟨_, start', hstart, c', hc, step', hstep, _, hr, rfl, rfl⟩
  | .ifCondition c thenBranch, env, env', s', h => by
    simp only [StmtContext.fill, checkStmt, bind_eq_ok, pure_eq_ok, Prod.mk.injEq] at h
    obtain ⟨c', hc, then', hthen, rfl, rfl⟩ := h
    refine ⟨env, rfl, (checkExpr_fill c hc).mono ?_⟩
    rintro e' ⟨r, hr⟩
    simp only [StmtContext.fill, checkStmt, bind_eq_ok, pure_eq_ok, Prod.mk.injEq]
    exact ⟨_, r, hr, then', hthen, rfl, rfl⟩
  | .ifBranch c thenBranch, env, env', s', h => by
    simp only [StmtContext.fill, checkStmt, bind_eq_ok, pure_eq_ok, Prod.mk.injEq] at h
    obtain ⟨c', hc, ⟨then', env₁⟩, hthen, rfl, rfl⟩ := h
    obtain ⟨inner, hinner, hreplace⟩ := checkStmt_fill thenBranch hthen
    refine ⟨inner, hinner, hreplace.mono ?_⟩
    rintro e' ⟨r, hr⟩
    simp only [StmtContext.fill, checkStmt, bind_eq_ok, pure_eq_ok, Prod.mk.injEq]
    exact ⟨_, c', hc, _, hr, rfl, rfl⟩
  | .ifElseCondition c thenBranch elseBranch, env, env', s', h => by
    simp only [StmtContext.fill, checkStmt, bind_eq_ok, pure_eq_ok, Prod.mk.injEq] at h
    obtain ⟨c', hc, then', hthen, else', helse, rfl, rfl⟩ := h
    refine ⟨env, rfl, (checkExpr_fill c hc).mono ?_⟩
    rintro e' ⟨r, hr⟩
    simp only [StmtContext.fill, checkStmt, bind_eq_ok, pure_eq_ok, Prod.mk.injEq]
    exact ⟨_, r, hr, then', hthen, else', helse, rfl, rfl⟩
  | .ifElseThen c thenBranch elseBranch, env, env', s', h => by
    simp only [StmtContext.fill, checkStmt, bind_eq_ok, pure_eq_ok, Prod.mk.injEq] at h
    obtain ⟨c', hc, ⟨then', env₁⟩, hthen, else', helse, rfl, rfl⟩ := h
    obtain ⟨inner, hinner, hreplace⟩ := checkStmt_fill thenBranch hthen
    refine ⟨inner, hinner, hreplace.mono ?_⟩
    rintro e' ⟨r, hr⟩
    simp only [StmtContext.fill, checkStmt, bind_eq_ok, pure_eq_ok, Prod.mk.injEq]
    exact ⟨_, c', hc, _, hr, else', helse, rfl, rfl⟩
  | .ifElseElse c thenBranch elseBranch, env, env', s', h => by
    simp only [StmtContext.fill, checkStmt, bind_eq_ok, pure_eq_ok, Prod.mk.injEq] at h
    obtain ⟨c', hc, then', hthen, ⟨else', env₁⟩, helse, rfl, rfl⟩ := h
    obtain ⟨inner, hinner, hreplace⟩ := checkStmt_fill elseBranch helse
    refine ⟨inner, by rw [StmtContext.environment, hthen]; exact hinner, hreplace.mono ?_⟩
    rintro e' ⟨r, hr⟩
    simp only [StmtContext.fill, checkStmt, bind_eq_ok, pure_eq_ok, Prod.mk.injEq]
    exact ⟨_, c', hc, then', hthen, _, hr, rfl, rfl⟩

/-! ## Functions and programs -/

theorem checkFunction_fill (f : FunctionContext) {f' : Function}
    (h : checkFunction env (f.fill e) = .ok f') :
    ∃ inner, f.environment env = .ok inner ∧
      Replaceable inner e fun e' => ∃ f', checkFunction env (f.fill e') = .ok f' := by
  simp only [FunctionContext.fill, checkFunction, bind_eq_ok, named_eq_ok, pure_eq_ok,
    checkStmts_middle] at h
  obtain ⟨params, hparams, _, ⟨front, ⟨s', env'⟩, back, hfront, hs, hback, rfl⟩, signature, hsig,
    -⟩ := h
  obtain ⟨inner, hinner, hreplace⟩ := checkStmt_fill f.stmt hs
  refine ⟨inner, ?_, hreplace.mono ?_⟩
  · simp only [FunctionContext.environment, bind_eq_ok]
    exact ⟨params, hparams, front, hfront, hinner⟩
  · rintro e' ⟨r, hr⟩
    simp only [FunctionContext.fill, checkFunction, bind_eq_ok, named_eq_ok, pure_eq_ok,
      checkStmts_middle]
    exact ⟨_, params, hparams, _, ⟨front, (r, env'), back, hfront, hr, hback, rfl⟩, signature, hsig,
      rfl⟩

/-- What stands in the open place does not show in the signatures. -/
theorem addSignatures_fill (p : ProgramContext) (e : Surface.Expr) :
    addSignatures env (p.fill e) =
      addSignatures env (p.before ++ p.function.front :: p.after) := by
  refine addSignatures_congr ?_
  simp only [ProgramContext.fill, List.map_append, List.map_cons]
  rfl

/-- An accepted program stays acceptable if an expression of it is replaced by one whose type
converts to the type of the first. -/
theorem checkProgram_fill (p : ProgramContext) {t : Program}
    (h : checkProgram (p.fill e) = .ok t) :
    ∃ inner, p.environment = .ok inner ∧
      Replaceable inner e fun e' => ∃ t', checkProgram (p.fill e') = .ok t' := by
  obtain ⟨env, hsigs, hmain⟩ := checkProgram_signatures h
  rw [addSignatures_fill] at hsigs
  have hfunctions : ∀ e', checkProgram (p.fill e') = (p.fill e').mapM (checkFunction env) := by
    intro e'
    rw [checkProgram_eq, addSignatures_fill, hsigs, ← checkFunctions_eq_mapM]
    exact if_pos hmain
  rw [hfunctions] at h
  obtain ⟨front, f', back, hfront, hf, hback, -⟩ := mapM_append_cons_eq_ok h
  obtain ⟨inner, hinner, hreplace⟩ := checkFunction_fill p.function hf
  refine ⟨inner, ?_, hreplace.mono ?_⟩
  · rw [ProgramContext.environment, hsigs]
    exact hinner
  · rintro e' ⟨r, hr⟩
    refine ⟨front ++ r :: back, ?_⟩
    rw [hfunctions, ProgramContext.fill, List.mapM_append, List.mapM_cons, hfront, hr, hback]
    rfl

/-- Every expression in the body of a function of an accepted program has a type, in the environment
that its context gives. If it is `double`, any `int` expression of this environment can stand in its
place, and the program stays acceptable. -/
theorem checkProgram_fill_int (p : ProgramContext) {t : Program}
    (h : checkProgram (p.fill e) = .ok t) :
    ∃ inner d, p.environment = .ok inner ∧ infer inner e = .ok d ∧
      (d.ty = .double → ∀ e' d', infer inner e' = .ok d' → d'.ty = .int →
        ∃ t', checkProgram (p.fill e') = .ok t') := by
  obtain ⟨inner, hinner, d, hd, hreplace⟩ := checkProgram_fill p h
  refine ⟨inner, d, hinner, hd, fun hdouble e' d' hd' hint => hreplace e' ⟨d', hd', ?_⟩⟩
  exact convertsTo_iff.mpr (.inr ⟨hint, hdouble⟩)

/-- `void main() { double x = readDouble(); if (x < 1) printDouble(-(□ * 2)); }` -/
def negatedProduct : ProgramContext where
  before := []
  function := {
    front := {
      ret := .void
      name := ⟨"main", ⟨1, 6⟩⟩
      params := []
      body := [.init .double ⟨"x", ⟨1, 22⟩⟩ (.call ⟨"readDouble", ⟨1, 26⟩⟩ [])] }
    stmt := .ifBranch
      (.binary ⟨.lt, ⟨1, 46⟩⟩ (.var ⟨"x", ⟨1, 44⟩⟩) (.const ⟨.int 1, ⟨1, 48⟩⟩))
      (.expr (.argument ⟨"printDouble", ⟨1, 51⟩⟩ []
        (.negate ⟨1, 63⟩ (.paren (.leftOperand ⟨.mul, ⟨1, 67⟩⟩ .hole (.const ⟨.int 2, ⟨1, 69⟩⟩))))
        []))
    back := [] }
  after := []

/-- With `x` in the open place the product is a `double`, with `readInt()` it is an `int`. -/
theorem checkProgram_fill_int_negatedProduct :
    (∃ t, checkProgram (negatedProduct.fill (.var ⟨"x", ⟨1, 65⟩⟩)) = .ok t) ∧
      ∃ inner d d', negatedProduct.environment = .ok inner ∧
        infer inner (.var ⟨"x", ⟨1, 65⟩⟩) = .ok d ∧ d.ty = .double ∧
        infer inner (.call ⟨"readInt", ⟨1, 65⟩⟩ []) = .ok d' ∧ d'.ty = .int ∧
        ∃ t', checkProgram (negatedProduct.fill (.call ⟨"readInt", ⟨1, 65⟩⟩ [])) = .ok t' := by
  have haccepted : ∃ t, checkProgram (negatedProduct.fill (.var ⟨"x", ⟨1, 65⟩⟩)) = .ok t :=
    ⟨_, rfl⟩
  have hinner : ∃ inner, negatedProduct.environment = .ok inner ∧
      infer inner (.var ⟨"x", ⟨1, 65⟩⟩) = .ok (.var ⟨0⟩ .double) ∧
      infer inner (.call ⟨"readInt", ⟨1, 65⟩⟩ []) = .ok (.call "readInt" [] .int) :=
    ⟨_, rfl, rfl, rfl⟩
  obtain ⟨t, ht⟩ := haccepted
  obtain ⟨inner, hinner, hx, hread⟩ := hinner
  obtain ⟨inner', d, hinner', hd, hfill⟩ := checkProgram_fill_int negatedProduct ht
  obtain rfl : inner = inner' := Except.ok.inj (hinner.symm.trans hinner')
  obtain rfl : Expr.var ⟨0⟩ .double = d := Except.ok.inj (hx.symm.trans hd)
  exact ⟨⟨t, ht⟩, inner, _, _, hinner, hx, rfl, hread, rfl, hfill rfl _ _ hread rfl⟩

end Core

end MiniC
