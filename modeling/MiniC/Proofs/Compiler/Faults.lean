import MiniC.Compiler.Basic
import MiniC.Proofs.Core.CodeFunction
import MiniC.Proofs.Surface.Proper

/-!
# Faults of a compilation

A fault shows that a stage was given something that no earlier stage builds. Checking a proper
program never ends in one, and neither does generating the code of a checked program, with one
exception: a function may have more variables than the machine can address. That exception is a
matter of counting words in the source text.
-/

namespace MiniC

/-- The computation does not end in a fault. -/
def FaultFree {ε α : Type} (r : Except (Failure ε) α) : Prop := ∀ f, r ≠ .error (.fault f)

section FaultFree

variable {ε α β : Type}

theorem faultFree_ok {a : α} : FaultFree (.ok a : Except (Failure ε) α) := by
  intro f h
  cases h

theorem faultFree_pure {a : α} : FaultFree (pure a : Except (Failure ε) α) := faultFree_ok

/-- A run is free of faults if its first part is and what follows each result of that part is. -/
theorem FaultFree.bind {x : Except (Failure ε) α} {f : α → Except (Failure ε) β}
    (hx : FaultFree x) (hf : ∀ a, x = .ok a → FaultFree (f a)) : FaultFree (x >>= f) := by
  intro fault h
  rcases bind_eq_error.mp h with h | ⟨a, ha, h⟩
  · exact hx fault h
  · exact hf a ha fault h

end FaultFree

namespace Core

variable {env : Environment} {funs : FunctionTypes} {vars : VarTypes}

/-! ## Checking -/

/-- A rejection is an error of the program, not a fault of the compiler. -/
theorem faultFree_reject {α : Type} (problem : CheckProblem) (pos : Pos) :
    FaultFree (reject problem pos : Checked α) := by
  intro f h
  cases h

/-- Only a missing scope makes a fault of a problem with a name. -/
theorem faultFree_named {α : Type} {pos : Pos} {r : Except NameProblem α}
    (h : r ≠ .error .noScope) : FaultFree (named pos r) := by
  intro f hf
  obtain ⟨problem, hr, hproblem⟩ := mapError_eq_error.mp hf
  cases problem <;> simp [nameFailure] at hproblem
  exact h hr

theorem faultFree_resolve (env : Environment) (x : Name) :
    FaultFree (named x.pos (env.resolve x.value)) := by
  refine faultFree_named ?_
  unfold Environment.resolve
  split <;> simp

theorem faultFree_lookupFunction (env : Environment) (f : Name) :
    FaultFree (named f.pos (env.lookupFunction f.value)) := by
  refine faultFree_named ?_
  unfold Environment.lookupFunction
  split <;> simp

theorem faultFree_addFunction (env : Environment) (f : Name) (s : Signature) :
    FaultFree (named f.pos (env.addFunction f.value s).1) := by
  refine faultFree_named ?_
  unfold Environment.addFunction
  split <;> simp

/-- A failed coercion is a rejection. -/
theorem faultFree_coerce (pos : Pos) (expected : Ty) (e : Expr) :
    FaultFree (coerce pos expected e) := by
  unfold coerce
  split
  · exact faultFree_ok
  · exact faultFree_reject _ _

/-- Every operator but assignment has a rule for its types; assignment as an operator would be a
fault. -/
theorem faultFree_operatorTypes {op : Located BinaryOp} (h : op.value ≠ .assign)
    (leftPos rightPos : Pos) (left right : Ty) :
    FaultFree (operatorTypes op leftPos rightPos left right) := by
  have hop : op.value.isArithmetic = true ∨ op.value.isRelational = true ∨
      op.value.isLogical = true := by
    revert h
    cases op.value <;> decide
  intro f hf
  unfold operatorTypes at hf
  rcases hop with hop | hop | hop <;> (repeat' split at hf) <;>
    first
    | exact faultFree_reject _ _ f hf
    | simp_all

mutual

/-- Expressions without assignment as an operator are inferred without a fault. -/
theorem faultFree_infer :
    ∀ (e : Surface.Expr), e.Proper → FaultFree (infer env e)
  | .const c, _ => by
    rw [infer]
    exact faultFree_pure
  | .var x, _ => by
    rw [infer]
    exact (faultFree_resolve env x).bind fun v _ => faultFree_pure
  | .assign x e, h => by
    rw [infer]
    refine (faultFree_resolve env x).bind fun v _ => ?_
    refine (faultFree_infer e h).bind fun e' _ => ?_
    exact (faultFree_coerce _ _ _).bind fun _ _ => faultFree_pure
  | .call f args, h => by
    rw [infer]
    refine (faultFree_lookupFunction env f).bind fun s _ => ?_
    split
    · exact faultFree_reject _ _
    · exact (faultFree_inferArgs args s.params h).bind fun _ _ => faultFree_pure
  | .binary op left right, ⟨hop, hl, hr⟩ => by
    rw [infer]
    refine (faultFree_infer left hl).bind fun l _ => (faultFree_infer right hr).bind fun r _ => ?_
    exact (faultFree_operatorTypes hop _ _ _ _).bind fun _ _ => faultFree_pure
  | .step s x, _ => by
    rw [infer]
    refine (faultFree_resolve env x).bind fun v _ => ?_
    split
    · exact faultFree_pure
    · exact faultFree_reject _ _
  | .negate pos e, h => by
    rw [infer]
    refine (faultFree_infer e h).bind fun e' _ => ?_
    split
    · exact faultFree_pure
    · exact faultFree_reject _ _
  | .paren e, h => by
    rw [infer]
    exact faultFree_infer e h

theorem faultFree_inferArgs :
    ∀ (es : List Surface.Expr) (tys : List Ty), Surface.ProperArgs es →
      FaultFree (inferArgs env es tys)
  | [], tys, _ => by
    rw [inferArgs]
    · exact faultFree_pure
    · simp
  | e :: es, [], _ => by
    rw [inferArgs]
    · exact faultFree_pure
    · simp
  | e :: es, ty :: tys, ⟨he, hes⟩ => by
    rw [inferArgs]
    refine (faultFree_infer e he).bind fun e' _ => (faultFree_coerce _ _ _).bind fun _ _ => ?_
    exact (faultFree_inferArgs es tys hes).bind fun _ _ => faultFree_pure

end

theorem faultFree_checkExpr {e : Surface.Expr} (h : e.Proper) (expected : Ty) :
    FaultFree (checkExpr env expected e) :=
  (faultFree_infer e h).bind fun _ _ => faultFree_coerce _ _ _

theorem faultFree_optionally {check : Surface.Expr → Checked Expr} {e : Option Surface.Expr}
    (h : ∀ x, e = some x → FaultFree (check x)) : FaultFree (optionally check e) := by
  cases e with
  | none => exact faultFree_pure
  | some x => exact (h x rfl).bind fun _ _ => faultFree_pure

theorem faultFree_checkReturn {value : Option Surface.Expr} (h : Surface.ProperOptional value)
    (result : Ty) (pos : Pos) : FaultFree (checkReturn env result pos value) := by
  cases value with
  | none =>
    rw [checkReturn]
    split
    · exact faultFree_pure
    · exact faultFree_reject _ _
  | some e =>
    rw [checkReturn]
    split
    · exact (faultFree_infer e (h e rfl)).bind fun _ _ => faultFree_reject _ _
    · exact (faultFree_checkExpr (h e rfl) _).bind fun _ _ => faultFree_pure

/-- Where a scope is open, a declaration is no fault. -/
theorem faultFree_declareVar (hscope : 0 < env.scopes.length) (ty : Ty) (x : Name) :
    FaultFree (declareVar env ty x) := by
  have hanswer : (env.declare ty x.value).1 ≠ .error .noScope := by
    unfold Environment.declare
    split
    · simp
    · dsimp only
      split
      · next hempty => simp [hempty] at hscope
      · split <;> simp
  exact (faultFree_named hanswer).bind fun _ _ => faultFree_pure

/-- Declaring is free of faults as long as some scope is open. -/
theorem faultFree_declareAll (xs : List (Ty × Name)) :
    ∀ {env : Environment} {vars : VarTypes}, env.Describes funs vars → 0 < env.scopes.length →
      FaultFree (declareAll env xs) := by
  induction xs with
  | nil => intro env vars _ _; exact faultFree_pure
  | cons x xs ih =>
    intro env vars henv hscope
    refine (faultFree_declareVar hscope _ _).bind ?_
    rintro ⟨v, env₁⟩ hv
    obtain ⟨-, -, henv₁, hlen⟩ := declareVar_typed henv hv
    exact (ih henv₁ (hlen ▸ hscope)).bind fun _ _ => faultFree_pure

/-- After opening a scope, some scope is open. -/
theorem length_pushScope_pos (env : Environment) : 0 < env.pushScope.scopes.length :=
  Nat.succ_pos _

mutual

/-- Statements are checked without a fault as long as some scope is open, which each of them leaves
open. -/
theorem faultFree_checkStmt {result : Ty} :
    ∀ (s : Surface.Stmt) {env : Environment} {vars : VarTypes}, s.Proper →
      env.Describes funs vars → 0 < env.scopes.length → FaultFree (checkStmt result env s)
  | .declare ty xs, env, vars, _, henv, hscope => by
    rw [checkStmt]
    exact (faultFree_declareAll _ henv hscope).bind fun _ _ => faultFree_pure
  | .init ty x e, env, vars, h, henv, hscope => by
    rw [checkStmt]
    refine (faultFree_checkExpr h ty).bind fun e' _ => ?_
    exact (faultFree_declareVar hscope _ _).bind fun _ _ => faultFree_pure
  | .expr e, env, vars, h, _, _ => by
    rw [checkStmt]
    exact (faultFree_infer e h).bind fun _ _ => faultFree_pure
  | .ret pos value, env, vars, h, _, _ => by
    rw [checkStmt]
    exact (faultFree_checkReturn h _ _).bind fun _ _ => faultFree_pure
  | .block body, env, vars, h, henv, _ => by
    rw [checkStmt]
    exact (faultFree_checkStmts body h henv.pushScope (length_pushScope_pos env)).bind
      fun _ _ => faultFree_pure
  | .whileLoop c body, env, vars, ⟨hc, hbody⟩, henv, _ => by
    rw [checkStmt]
    refine (faultFree_checkExpr hc _).bind fun c' _ => ?_
    exact (faultFree_checkStmt body hbody henv.pushScope (length_pushScope_pos env)).bind
      fun _ _ => faultFree_pure
  | .forLoop init c step body, env, vars, ⟨hinit, hc, hstep, hbody⟩, henv, _ => by
    rw [checkStmt]
    refine (faultFree_optionally fun x hx => faultFree_infer x (hinit x hx)).bind fun _ _ => ?_
    refine (faultFree_optionally fun x hx => faultFree_checkExpr (hc x hx) _).bind fun _ _ => ?_
    refine (faultFree_optionally fun x hx => faultFree_infer x (hstep x hx)).bind fun _ _ => ?_
    exact (faultFree_checkStmt body hbody henv.pushScope (length_pushScope_pos env)).bind
      fun _ _ => faultFree_pure
  | .ifThen c thenBranch, env, vars, ⟨hc, hthen⟩, henv, _ => by
    rw [checkStmt]
    refine (faultFree_checkExpr hc _).bind fun c' _ => ?_
    exact (faultFree_checkStmt thenBranch hthen henv.pushScope (length_pushScope_pos env)).bind
      fun _ _ => faultFree_pure
  | .ifElse c thenBranch elseBranch, env, vars, ⟨hc, hthen, helse⟩, henv, _ => by
    rw [checkStmt]
    refine (faultFree_checkExpr hc _).bind fun c' _ => ?_
    refine (faultFree_checkStmt thenBranch hthen henv.pushScope (length_pushScope_pos env)).bind ?_
    rintro ⟨then', env₁⟩ hthen'
    have hscoped := (checkStmt_wellTyped thenBranch henv.pushScope hthen').2.scoped
    exact (faultFree_checkStmt elseBranch helse hscoped.describes.pushScope
      (length_pushScope_pos _)).bind fun _ _ => faultFree_pure

theorem faultFree_checkStmts {result : Ty} :
    ∀ (ss : List Surface.Stmt) {env : Environment} {vars : VarTypes}, Surface.ProperBlock ss →
      env.Describes funs vars → 0 < env.scopes.length → FaultFree (checkStmts result env ss)
  | [], env, vars, _, _, _ => by
    rw [checkStmts]
    exact faultFree_pure
  | s :: ss, env, vars, ⟨hs, hss⟩, henv, hscope => by
    rw [checkStmts]
    refine (faultFree_checkStmt s hs henv hscope).bind ?_
    rintro ⟨s', env₁⟩ hs'
    have hchecked := (checkStmt_wellTyped s henv hs').2
    exact (faultFree_checkStmts ss hss hchecked.describes (hchecked.depth ▸ hscope)).bind
      fun _ _ => faultFree_pure

end

/-- A function opens its own scope, so its body is checked without a fault. -/
theorem faultFree_checkFunction {f : Surface.Function} (h : Surface.ProperBlock f.body)
    (env : Environment) : FaultFree (checkFunction env f) := by
  have henv : env.enterFunction.Describes _ [] := Environment.describes_enterFunction rfl
  refine (faultFree_declareAll _ henv Nat.one_pos).bind ?_
  rintro ⟨params, env₁⟩ hparams
  obtain ⟨-, -, henv₁, hlen⟩ := declareAll_typed henv hparams
  refine (faultFree_checkStmts f.body h henv₁ (hlen ▸ Nat.one_pos)).bind fun _ _ => ?_
  exact (faultFree_lookupFunction _ _).bind fun _ _ => faultFree_pure

theorem faultFree_addSignatures (fs : List Surface.Function) :
    ∀ env : Environment, FaultFree (addSignatures env fs) := by
  induction fs with
  | nil =>
    intro env
    exact faultFree_pure
  | cons f fs ih =>
    intro env
    exact (faultFree_addFunction env _ _).bind fun _ _ => ih _

/-- Functions are checked without a fault, each in the environment given. -/
theorem faultFree_checkFunctions {fs : List Surface.Function} (h : Surface.ProperProgram fs)
    (env : Environment) : FaultFree (checkFunctions env fs) := by
  induction fs with
  | nil => exact faultFree_pure
  | cons f fs ih =>
    refine (faultFree_checkFunction (h f (by simp)) env).bind fun _ _ => ?_
    exact (ih fun g hg => h g (by simp [hg])).bind fun _ _ => faultFree_pure

/-- Checking a proper program accepts or rejects it. -/
theorem faultFree_checkProgram {p : Surface.Program} (h : Surface.ProperProgram p) :
    FaultFree (checkProgram p) := by
  rw [checkProgram_eq]
  refine (faultFree_addSignatures p _).bind fun env _ => ?_
  split
  · exact faultFree_checkFunctions h env
  · intro f hf
    cases hf

end Core

namespace Jvm

open MiniC.Core

/-! ## Generating code -/

/-- All variables of every function fit the machine. -/
def Fits (p : Program) : Prop := ∀ f ∈ p, wordsOf f.varTypes ≤ maxLocals

/-- The parameters of a function take no more words than all its variables. -/
theorem paramWords_le {funs : FunctionTypes} {f : Function} (hf : f.WellTyped funs) :
    f.signature.paramWords ≤ wordsOf f.varTypes := by
  have hparams : f.signature.paramWords = wordsOf (f.params.map VarDecl.ty) := by
    rw [hf.signature]
    rfl
  rw [hparams, Function.varTypes, Function.vars, List.map_append, wordsOf_append]
  exact Nat.le_add_right _ _

theorem paramWords_builtin : ∀ e ∈ Builtin.signatures, e.2.paramWords ≤ maxLocals := by
  decide

/-- The table of a program that fits the machine; if there is no table, some function has too many
parameters already. -/
theorem callTable_cases (className : String) {p : Program} (hp : ProgramWellTyped p) :
    (∃ calls, callTable className p = .ok calls) ∨
      callTable className p = .error .tooManyLocals ∧ ¬ Fits p := by
  by_cases hroom : ∀ e ∈ functionsOf p, e.2.paramWords ≤ maxLocals
  · exact .inl ⟨_, callTable_of_room hroom⟩
  · obtain ⟨e, he, hwords⟩ : ∃ e ∈ functionsOf p, ¬ e.2.paramWords ≤ maxLocals := by
      simpa using hroom
    refine .inr ⟨addCallees_of_no_room he hwords, fun hfits => ?_⟩
    rcases List.mem_append.mp he with hbuiltin | hown
    · exact hwords (paramWords_builtin e hbuiltin)
    · obtain ⟨f, hf, rfl⟩ := List.mem_map.mp hown
      exact hwords (Nat.le_trans (paramWords_le (hp.functions f hf)) (hfits f hf))

/-- Functions that fit all have methods. -/
theorem methods_of_fits {calls : CallTable} {funs : FunctionTypes} {sigs : MethodTypes}
    (hcalls : CallsFit calls funs sigs) {fs : List Function} (hfs : ∀ f ∈ fs, f.WellTyped funs)
    (hfits : Fits fs) : ∃ ms, methods calls fs = .ok ms := by
  induction fs with
  | nil => exact ⟨[], rfl⟩
  | cons f fs ih =>
    obtain ⟨m, hm, -⟩ := Function.method_of_room hcalls (hfs f (by simp)) (hfits f (by simp))
    obtain ⟨ms, hms⟩ := ih (fun g hg => hfs g (by simp [hg])) fun g hg => hfits g (by simp [hg])
    exact ⟨m :: ms, by simp [methods, hm, hms, bind, Except.bind, pure, Except.pure]⟩

/-- The first function that does not fit decides. -/
theorem methods_of_not_fits {calls : CallTable} {funs : FunctionTypes} {sigs : MethodTypes}
    (hcalls : CallsFit calls funs sigs) {fs : List Function} (hfs : ∀ f ∈ fs, f.WellTyped funs)
    (hfits : ¬ Fits fs) : methods calls fs = .error .tooManyLocals := by
  induction fs with
  | nil => exact absurd (by intro f hf; cases hf) hfits
  | cons f fs ih =>
    rw [methods]
    by_cases hroom : wordsOf f.varTypes ≤ maxLocals
    · obtain ⟨m, hm, -⟩ := Function.method_of_room hcalls (hfs f (by simp)) hroom
      have hrest : ¬ Fits fs := by
        intro hrest
        refine hfits fun g hg => ?_
        rcases List.mem_cons.mp hg with rfl | hg
        · exact hroom
        · exact hrest g hg
      rw [hm, ih (fun g hg => hfs g (by simp [hg])) hrest]
      rfl
    · rw [Function.method_of_no_room hcalls (hfs f (by simp)) hroom]
      rfl

/-- Generating the module of a well-typed program fails just if some function does not fit the
machine. -/
theorem generate_error_iff {className : String} {p : Program} (hp : ProgramWellTyped p)
    {fault : Fault} :
    generate className p = .error fault ↔ fault = .tooManyLocals ∧ ¬ Fits p := by
  rcases callTable_cases className hp with ⟨calls, hcalls⟩ | ⟨hcalls, hfits⟩
  · have hfit := callsFit hp.names hcalls
    unfold generate
    rw [hcalls]
    by_cases hfits : Fits p
    · obtain ⟨ms, hms⟩ := methods_of_fits hfit hp.functions hfits
      simp [hms, hfits, bind, Except.bind, pure, Except.pure]
    · have hms := methods_of_not_fits hfit hp.functions hfits
      simp [hms, hfits, bind, Except.bind, eq_comm]
  · unfold generate
    rw [hcalls]
    simp [hfits, bind, Except.bind, eq_comm]

end Jvm

namespace Compiler

open MiniC.Core Jvm

/-! ## Compiling -/

theorem lex_eq_ok {source : String} {ts : List (Located Token)} :
    lex source = .ok ts ↔ tokenize source = .ok ts := mapError_eq_ok

theorem parse_eq_ok {ts : List (Located Token)} {p : Surface.Program} :
    parse ts = .ok p ↔ Surface.parse ts = .ok p := mapError_eq_ok

theorem check_eq_ok {p : Surface.Program} {t : Program} :
    check p = .ok t ↔ checkProgram p = .ok t := mapError_eq_ok

/-- The stages before code generation end in no fault. -/
theorem faultFree_checkedProgram (source : String) : FaultFree (checkedProgram source) := by
  have hlex : FaultFree (lex source) := by
    intro f h
    obtain ⟨e, -, h⟩ := mapError_eq_error.mp h
    cases h
  have hparse : ∀ ts, FaultFree (parse ts) := by
    intro ts f h
    obtain ⟨e, -, h⟩ := mapError_eq_error.mp h
    cases h
  refine hlex.bind fun ts _ => (hparse ts).bind fun p hp => ?_
  intro f h
  obtain ⟨e, he, h⟩ := mapError_eq_error.mp h
  cases e with
  | error e => cases h
  | fault f' => exact faultFree_checkProgram (Surface.parse_proper (parse_eq_ok.mp hp)) f' he

/-- The stages up to checking succeed exactly when each of them does. -/
theorem checkedProgram_eq_ok {source : String} {t : Program} :
    checkedProgram source = .ok t ↔
      ∃ ts p, tokenize source = .ok ts ∧ Surface.parse ts = .ok p ∧ checkProgram p = .ok t := by
  simp only [checkedProgram, bind_eq_ok, lex_eq_ok, parse_eq_ok, check_eq_ok]
  constructor
  · rintro ⟨ts, hts, p, hp, ht⟩
    exact ⟨ts, p, hts, hp, ht⟩
  · rintro ⟨ts, p, hts, hp, ht⟩
    exact ⟨ts, hts, p, hp, ht⟩

/-- Whether a program fits the machine can be read off its text. -/
theorem not_fits_iff {p : Surface.Program} {t : Program} (h : checkProgram p = .ok t) :
    ¬ Fits t ↔ ∃ f ∈ p, maxLocals < wordsOf f.varTypes := by
  obtain ⟨-, -, hvars⟩ := checkProgram_wellTyped h
  have hmem : ∀ tys, tys ∈ t.map Function.varTypes ↔ tys ∈ p.map Surface.Function.varTypes := by
    intro tys
    exact hvars ▸ Iff.rfl
  constructor
  · intro hfits
    obtain ⟨f, hf, hwords⟩ : ∃ f ∈ t, maxLocals < wordsOf f.varTypes := by
      simpa [Fits] using hfits
    obtain ⟨g, hg, heq⟩ := List.mem_map.mp ((hmem _).mp (List.mem_map_of_mem hf))
    exact ⟨g, hg, heq ▸ hwords⟩
  · rintro ⟨g, hg, hwords⟩ hfits
    obtain ⟨f, hf, heq⟩ := List.mem_map.mp ((hmem _).mpr (List.mem_map_of_mem hg))
    exact absurd (hfits f hf) (Nat.not_le.mpr (heq ▸ hwords))

/-- An unusable class name is an error, not a fault. -/
theorem checkClassName_fault {className : String} {fault : Fault} :
    (checkClassName className).mapError Failure.error ≠ .error (.fault fault) := by
  intro h
  obtain ⟨e, -, h⟩ := mapError_eq_error.mp h
  cases h

theorem checkClassName_eq_ok {className : String} {u : Unit} :
    (checkClassName className).mapError Failure.error = .ok u ↔ isClassName className = true := by
  rw [mapError_eq_ok, checkClassName]
  split <;> simp [*]

/-- A compilation ends in a fault just if the name of the class is valid, the text is an accepted
program, and the parameters of one of its functions, together with all variables that its body
declares, take more words than the machine can address; and then the fault says so. -/
theorem compileSource_fault_iff (className source : String) :
    Fault.tooManyLocals.text = "attempt to add with overflow" ∧
      ∀ fault, compileSource className source = .error (.fault fault) ↔
        fault = .tooManyLocals ∧ isClassName className = true ∧
          ∃ ts p t, tokenize source = .ok ts ∧ Surface.parse ts = .ok p ∧
            checkProgram p = .ok t ∧ ∃ f ∈ p, 65535 < wordsOf f.varTypes := by
  refine ⟨rfl, fun fault => ?_⟩
  have hgenerate : ∀ t, generate className t = .error (.fault fault) ↔
      Jvm.generate className t = .error fault := by
    intro t
    rw [generate, mapError_eq_error]
    simp
  simp only [compileSource, compileModule, bind_eq_error, checkClassName_fault, false_or,
    checkClassName_eq_ok, hgenerate, checkedProgram_eq_ok]
  constructor
  -- the fault is one of the text, of the module, or of printing, which has none
  · rintro ⟨-, hname, (hchecked | ⟨t, ⟨ts, p, hts, hp, ht⟩, hfault⟩) | ⟨_, _, hfault⟩⟩
    · exact absurd hchecked (faultFree_checkedProgram source fault)
    · obtain ⟨rfl, hfits⟩ := (generate_error_iff (checkProgram_wellTyped ht).1).mp hfault
      exact ⟨rfl, hname, ts, p, t, hts, hp, ht, (not_fits_iff ht).mp hfits⟩
    · cases hfault
  · rintro ⟨rfl, hname, ts, p, t, hts, hp, ht, hwords⟩
    refine ⟨(), hname, .inl (.inr ⟨t, ⟨ts, p, hts, hp, ht⟩, ?_⟩)⟩
    exact (generate_error_iff (checkProgram_wellTyped ht).1).mpr
      ⟨rfl, (not_fits_iff ht).mpr hwords⟩

end Compiler

end MiniC
