import MiniC.Core.Elaboration
import MiniC.Proofs.Core.Typing
import MiniC.Proofs.Except

/-!
# Checked programs are well typed

An environment *describes* the functions and the variables declared so far if it knows exactly these
functions, has numbered exactly these variables, and whatever its scopes hold is one of them, under
its own type. Every step of the checker keeps that, and what it builds is well typed.
-/

namespace MiniC

/-! ## What a program declares -/

namespace Surface

mutual

/-- The types of all variables that a statement declares, in the order of the text. -/
def Stmt.declaredTypes : Stmt → List Ty
  | .declare ty xs => xs.map fun _ => ty
  | .init ty _ _ => [ty]
  | .expr _ | .ret _ _ => []
  | .block body => declaredTypesIn body
  | .whileLoop _ body | .forLoop _ _ _ body => body.declaredTypes
  | .ifThen _ thenBranch => thenBranch.declaredTypes
  | .ifElse _ thenBranch elseBranch => thenBranch.declaredTypes ++ elseBranch.declaredTypes

def declaredTypesIn : List Stmt → List Ty
  | [] => []
  | s :: ss => s.declaredTypes ++ declaredTypesIn ss

end

/-- The types of the parameters and of all variables that the body declares. -/
def Function.varTypes (f : Function) : List Ty := f.params.map Param.ty ++ declaredTypesIn f.body

end Surface

/-! ## Tables -/

section Table

variable {α β : Type} [BEq α] [LawfulBEq α] {a : α} {b : β} {l l' : List (α × β)}

/-- What a table answers stands in it. -/
theorem mem_of_lookup (h : l.lookup a = some b) : (a, b) ∈ l := by
  obtain ⟨l₁, l₂, rfl, -⟩ := List.lookup_eq_some_iff.mp h
  simp

/-- In a table that lists no key twice, every entry is found. -/
theorem lookup_eq_some_iff_mem (h : (l.map Prod.fst).Nodup) :
    l.lookup a = some b ↔ (a, b) ∈ l := by
  refine ⟨mem_of_lookup, ?_⟩
  induction l with
  | nil => intro hmem; cases hmem
  | cons entry l ih =>
    obtain ⟨k, c⟩ := entry
    simp only [List.map_cons, List.nodup_cons] at h
    intro hmem
    rw [List.lookup_cons]
    rcases List.mem_cons.mp hmem with heq | hin
    · cases heq
      simp
    · have hne : a ≠ k := by
        rintro rfl
        exact h.1 (List.mem_map.mpr ⟨(a, b), hin, rfl⟩)
      simp only [beq_eq_false_iff_ne.mpr hne]
      exact ih h.2 hin

/-- The order of a table without repeated keys does not matter. -/
theorem lookup_eq_of_perm (h : (l.map Prod.fst).Nodup) (hp : l.Perm l') :
    l.lookup a = l'.lookup a := by
  have h' : (l'.map Prod.fst).Nodup := (hp.map Prod.fst).nodup_iff.mp h
  ext b
  rw [lookup_eq_some_iff_mem h, lookup_eq_some_iff_mem h', hp.mem_iff]

end Table

/-! ## Environments -/

namespace Environment

open MiniC.Core (FunctionTypes VarTypes)

/-- What can be declared, and the environment behind the declaration. -/
theorem declare_eq_ok {env env' : Environment} {ty : Ty} {x : String} {v : VarId} :
    env.declare ty x = (.ok v, env') ↔
      ty ≠ .void ∧ ∃ scope outer, env.scopes = scope :: outer ∧ scope.lookup x = none ∧
        v = ⟨env.nextVar⟩ ∧
        env' = { env with
          scopes := ((x, ⟨⟨env.nextVar⟩, ty⟩) :: scope) :: outer
          nextVar := env.nextVar + 1 } := by
  unfold Environment.declare
  constructor
  · intro h
    split at h
    · cases h
    · next hty =>
      split at h
      · cases h
      · next scope outer hscopes =>
        split at h
        · cases h
        · next hnone =>
          cases h
          exact ⟨hty, scope, outer, hscopes, hnone, rfl, rfl⟩
  · rintro ⟨hty, scope, outer, hscopes, hnone, rfl, rfl⟩
    rw [if_neg hty]
    simp only [hscopes, hnone]

/-- Resolving a name answers the declaration of the innermost scope that has it. -/
theorem resolve_eq_ok {env : Environment} {x : String} {v : Variable} :
    env.resolve x = .ok v ↔ env.scopes.findSome? (·.lookup x) = some v := by
  unfold Environment.resolve
  split
  · next hsome => simp [hsome]
  · next hnone => simp [hnone]

/-- A function is found exactly when the table has a signature for it. -/
theorem lookupFunction_eq_ok {env : Environment} {f : String} {s : Signature} :
    env.lookupFunction f = .ok s ↔ env.functions.lookup f = some s := by
  unfold Environment.lookupFunction
  split
  · next hsome => simp [hsome]
  · next hnone => simp [hnone]

structure Describes (env : Environment) (funs : FunctionTypes) (vars : VarTypes) : Prop where
  functions : (env.functions.lookup ·) = funs
  count : env.nextVar = vars.length
  entries : ∀ scope ∈ env.scopes, ∀ entry ∈ scope, vars[entry.2.id.index]? = some entry.2.ty

variable {env env' : Environment} {funs : FunctionTypes} {vars : VarTypes}

/-- On entering a function no variable is known yet, and the table of functions is the one
outside. -/
theorem describes_enterFunction (h : (env.functions.lookup ·) = funs) :
    env.enterFunction.Describes funs [] where
  functions := h
  count := rfl
  entries := by
    intro scope hscope entry hentry
    simp only [enterFunction, List.mem_singleton] at hscope
    subst hscope
    cases hentry

/-- Opening a scope declares nothing. -/
theorem Describes.pushScope (h : env.Describes funs vars) : env.pushScope.Describes funs vars where
  functions := h.functions
  count := h.count
  entries := by
    intro scope hscope entry hentry
    simp only [Environment.pushScope, List.mem_cons] at hscope
    rcases hscope with rfl | hscope
    · cases hentry
    · exact h.entries scope hscope entry hentry

theorem Describes.popScope (h : env.Describes funs vars) : env.popScope.Describes funs vars where
  functions := h.functions
  count := h.count
  entries := fun scope hscope => h.entries scope (List.mem_of_mem_tail hscope)

/-- A declaration numbers one variable more, and opens or closes no scope. -/
theorem Describes.declare {ty : Ty} {x : String} {v : VarId} (h : env.Describes funs vars)
    (hd : env.declare ty x = (.ok v, env')) :
    ty ≠ .void ∧ v.index = vars.length ∧ env'.Describes funs (vars ++ [ty]) ∧
      env'.scopes.length = env.scopes.length := by
  obtain ⟨hty, scope, outer, hscopes, -, rfl, rfl⟩ := declare_eq_ok.mp hd
  refine ⟨hty, h.count, ⟨h.functions, by simp [h.count], ?_⟩, by simp [hscopes]⟩
  -- what was declared before keeps its number
  have hold : ∀ scope ∈ env.scopes, ∀ entry ∈ scope,
      (vars ++ [ty])[entry.2.id.index]? = some entry.2.ty := by
    intro s hs entry hentry
    have hlookup := h.entries s hs entry hentry
    rw [List.getElem?_append_left (List.getElem?_eq_some_iff.mp hlookup).1]
    exact hlookup
  rw [hscopes] at hold
  intro s hs entry hentry
  rcases List.mem_cons.mp hs with rfl | hs
  · rcases List.mem_cons.mp hentry with rfl | hentry
    · simp [h.count]
    · exact hold scope (by simp) entry hentry
  · exact hold s (by simp [hs]) entry hentry

/-- A resolved variable has the type that is listed for its number. -/
theorem Describes.resolve {x : String} {v : Variable} (h : env.Describes funs vars)
    (hr : env.resolve x = .ok v) : vars[v.id.index]? = some v.ty := by
  obtain ⟨scope, hscope, hlookup⟩ := List.exists_of_findSome?_eq_some (resolve_eq_ok.mp hr)
  exact h.entries scope hscope _ (mem_of_lookup hlookup)

theorem Describes.lookupFunction {f : String} {s : Signature} (h : env.Describes funs vars)
    (hf : env.lookupFunction f = .ok s) : funs f = some s := by
  rw [← h.functions]
  exact lookupFunction_eq_ok.mp hf

end Environment

namespace Core

variable {env env' : Environment} {funs : FunctionTypes} {vars : VarTypes}

/-- Placing a failure leaves success as it is. -/
theorem named_eq_ok {α : Type} {pos : Pos} {r : Except NameProblem α} {a : α} :
    named pos r = .ok a ↔ r = .ok a := mapError_eq_ok

@[simp] theorem reject_ne_ok {α : Type} {problem : CheckProblem} {pos : Pos} {a : α} :
    reject problem pos ≠ .ok a := by
  intro h
  cases h

/-! ## Expressions -/

/-- The only conversion there is. -/
theorem convertsTo_iff {a b : Ty} : a.convertsTo b = true ↔ a = b ∨ a = .int ∧ b = .double := by
  simp [Ty.convertsTo]

/-- The left operand converts to the common type. -/
theorem convertsTo_common_left {a b : Ty} (ha : a.isNumerical = true) (hb : b.isNumerical = true) :
    a.convertsTo (a.common b) = true := by
  revert ha hb
  cases a <;> cases b <;> decide

/-- The right operand converts to the common type. -/
theorem convertsTo_common_right {a b : Ty} (ha : a.isNumerical = true)
    (hb : b.isNumerical = true) : b.convertsTo (a.common b) = true := by
  revert ha hb
  cases a <;> cases b <;> decide

theorem isNumerical_common {a b : Ty} (ha : a.isNumerical = true) :
    (a.common b).isNumerical = true := by
  unfold Ty.common
  split
  · rfl
  · exact ha

theorem Expr.widen_ty (target : Ty) (e : Expr) : (e.widen target).ty = target := by
  unfold Expr.widen
  split
  · next h => exact h
  · rfl

/-- Widening along an allowed conversion keeps an expression well typed. -/
theorem Expr.WellTyped.widen {e : Expr} {target : Ty} (h : e.WellTyped funs vars)
    (hc : e.ty.convertsTo target = true) : (e.widen target).WellTyped funs vars := by
  unfold Expr.widen
  split
  · exact h
  · next hne =>
    rcases convertsTo_iff.mp hc with heq | ⟨hint, hdouble⟩
    · exact absurd heq hne
    · exact ⟨hdouble, hint, h⟩

/-- An expression is accepted at a type exactly when its own type converts to it, and is widened
then. -/
theorem coerce_eq_ok {pos : Pos} {expected : Ty} {e e' : Expr} :
    coerce pos expected e = .ok e' ↔ e.ty.convertsTo expected = true ∧ e.widen expected = e' := by
  unfold coerce
  split
  · next h => simp [h]
  · next h => simp [h]

/-- The types chosen for an operator are ones it has, and both operands convert to the operand
type. -/
theorem operatorTypes_typed {op : Located BinaryOp} {leftPos rightPos : Pos} {left right : Ty}
    {tys : Ty × Ty} (h : operatorTypes op leftPos rightPos left right = .ok tys) :
    op.value.Typed tys.1 tys.2 ∧ left.convertsTo tys.1 = true ∧
      right.convertsTo tys.1 = true := by
  unfold operatorTypes at h
  split at h
  · next hop =>
    split at h
    · cases h
    · next hl =>
      split at h
      · cases h
      · next hr =>
        simp only [Bool.not_eq_true, Bool.not_eq_false'] at hl hr
        cases h
        exact ⟨.arithmetic hop (isNumerical_common hl), convertsTo_common_left hl hr,
          convertsTo_common_right hl hr⟩
  · split at h
    · next hop =>
      split at h
      · next hlr =>
        obtain ⟨hl, hr⟩ := Bool.and_eq_true_iff.mp hlr
        cases h
        exact ⟨.relational hop (.inl (isNumerical_common hl)), convertsTo_common_left hl hr,
          convertsTo_common_right hl hr⟩
      · split at h
        · next hlr =>
          simp only [Bool.and_eq_true, decide_eq_true_eq] at hlr
          cases h
          exact ⟨.relational hop (.inr rfl), by simp [hlr.1, Ty.convertsTo],
            by simp [hlr.2, Ty.convertsTo]⟩
        · cases h
    · split at h
      · next hop =>
        split at h
        · next hlr =>
          simp only [Bool.and_eq_true, decide_eq_true_eq] at hlr
          cases h
          exact ⟨.logical hop, by simp [hlr.1, Ty.convertsTo], by simp [hlr.2, Ty.convertsTo]⟩
        · cases h
      · cases h

-- in one block, so that the equations of the two functions are derived once for all that follows
mutual

/-- A call is accepted when the function is known, the arguments are as many as its parameters, and
each is accepted at the type of its parameter. -/
theorem infer_call_eq_ok {f : Name} {args : List Surface.Expr} {e' : Expr} :
    infer env (.call f args) = .ok e' ↔
      ∃ s args', env.lookupFunction f.value = .ok s ∧ args.length = s.arity ∧
        inferArgs env args s.params = .ok args' ∧ .call f.value args' s.ret = e' := by
  simp only [infer, bind_eq_ok, named_eq_ok]
  constructor
  · rintro ⟨s, hs, h⟩
    split at h
    · exact absurd h reject_ne_ok
    · next harity =>
      simp only [bind_eq_ok, pure_eq_ok] at h
      obtain ⟨args', hargs, rfl⟩ := h
      exact ⟨s, args', hs, (Decidable.not_not.mp harity).symm, hargs, rfl⟩
  · rintro ⟨s, args', hs, harity, hargs, rfl⟩
    refine ⟨s, hs, ?_⟩
    rw [if_neg (Decidable.not_not.mpr harity.symm)]
    simp only [bind_eq_ok, pure_eq_ok]
    exact ⟨args', hargs, rfl⟩

theorem inferArgs_cons_eq_ok {e : Surface.Expr} {es : List Surface.Expr} {ty : Ty} {tys : List Ty}
    {es' : List Expr} :
    inferArgs env (e :: es) (ty :: tys) = .ok es' ↔
      ∃ arg rest, infer env e = .ok arg ∧ arg.ty.convertsTo ty = true ∧
        inferArgs env es tys = .ok rest ∧ arg.widen ty :: rest = es' := by
  simp only [inferArgs, bind_eq_ok, pure_eq_ok, coerce_eq_ok]
  constructor
  · rintro ⟨arg, harg, _, ⟨hc, rfl⟩, rest, hrest, rfl⟩
    exact ⟨arg, rest, harg, hc, hrest, rfl⟩
  · rintro ⟨arg, rest, harg, hc, hrest, rfl⟩
    exact ⟨arg, harg, _, ⟨hc, rfl⟩, rest, hrest, rfl⟩

end

section Inversion

variable {x : Name} {e left right : Surface.Expr} {e' : Expr} {pos : Pos}

theorem infer_var_eq_ok :
    infer env (.var x) = .ok e' ↔ ∃ v, env.resolve x.value = .ok v ∧ .var v.id v.ty = e' := by
  simp only [infer, bind_eq_ok, named_eq_ok, pure_eq_ok]

/-- An assignment is accepted when the value converts to the type of the variable, which is the type
of the whole. -/
theorem infer_assign_eq_ok :
    infer env (.assign x e) = .ok e' ↔
      ∃ v src, env.resolve x.value = .ok v ∧ infer env e = .ok src ∧
        src.ty.convertsTo v.ty = true ∧ .assign v.id (src.widen v.ty) v.ty = e' := by
  simp only [infer, bind_eq_ok, named_eq_ok, pure_eq_ok, coerce_eq_ok]
  constructor
  · rintro ⟨v, hv, src, hsrc, _, ⟨hc, rfl⟩, rfl⟩
    exact ⟨v, src, hv, hsrc, hc, rfl⟩
  · rintro ⟨v, src, hv, hsrc, hc, rfl⟩
    exact ⟨v, hv, src, hsrc, _, ⟨hc, rfl⟩, rfl⟩

/-- A binary operation is accepted when both operands are and the operator has types for theirs;
both operands are widened to the operand type. -/
theorem infer_binary_eq_ok {op : Located BinaryOp} :
    infer env (.binary op left right) = .ok e' ↔
      ∃ l r tys, infer env left = .ok l ∧ infer env right = .ok r ∧
        operatorTypes op left.pos right.pos l.ty r.ty = .ok tys ∧
        .binary op.value (l.widen tys.1) (r.widen tys.1) tys.1 tys.2 = e' := by
  simp only [infer, bind_eq_ok, pure_eq_ok]
  constructor
  · rintro ⟨l, hl, r, hr, tys, htys, rfl⟩
    exact ⟨l, r, tys, hl, hr, htys, rfl⟩
  · rintro ⟨l, r, tys, hl, hr, htys, rfl⟩
    exact ⟨l, hl, r, hr, tys, htys, rfl⟩

theorem infer_step_eq_ok {s : Step} :
    infer env (.step s x) = .ok e' ↔
      ∃ v, env.resolve x.value = .ok v ∧ v.ty.isNumerical = true ∧ .step s v.id v.ty = e' := by
  simp only [infer, bind_eq_ok, named_eq_ok]
  refine exists_congr fun v => and_congr_right fun _ => ?_
  split
  · next hn => simp [hn, pure_eq_ok]
  · next hn => simp [hn]

theorem infer_negate_eq_ok :
    infer env (.negate pos e) = .ok e' ↔
      ∃ inner, infer env e = .ok inner ∧ inner.ty.isNumerical = true ∧
        .negate inner inner.ty = e' := by
  simp only [infer, bind_eq_ok]
  refine exists_congr fun inner => and_congr_right fun _ => ?_
  split
  · next hn => simp [hn, pure_eq_ok]
  · next hn => simp [hn]

/-- Checking against a type is inferring and then coercing to it. -/
theorem checkExpr_eq_ok {expected : Ty} :
    checkExpr env expected e = .ok e' ↔
      ∃ inner, infer env e = .ok inner ∧ inner.ty.convertsTo expected = true ∧
        inner.widen expected = e' := by
  simp only [checkExpr, bind_eq_ok, coerce_eq_ok]

end Inversion

mutual

/-- What is inferred is well typed, by induction on the source expression. -/
theorem infer_wellTyped (henv : env.Describes funs vars) :
    ∀ (e : Surface.Expr) {e' : Expr}, infer env e = .ok e' → e'.WellTyped funs vars
  | .const c, e', h => by
    simp only [infer, pure_eq_ok] at h
    subst h
    exact trivial
  | .var x, e', h => by
    obtain ⟨v, hv, rfl⟩ := infer_var_eq_ok.mp h
    exact henv.resolve hv
  | .assign x e, e', h => by
    obtain ⟨v, src, hv, hsrc, hc, rfl⟩ := infer_assign_eq_ok.mp h
    exact ⟨henv.resolve hv, src.widen_ty _, (infer_wellTyped henv e hsrc).widen hc⟩
  | .call f args, e', h => by
    obtain ⟨s, args', hs, harity, hargs, rfl⟩ := infer_call_eq_ok.mp h
    obtain ⟨htyped, htys⟩ := inferArgs_wellTyped henv args s.params harity hargs
    exact ⟨s, henv.lookupFunction hs, rfl, htys, htyped⟩
  | .binary op left right, e', h => by
    obtain ⟨l, r, tys, hl, hr, htys, rfl⟩ := infer_binary_eq_ok.mp h
    obtain ⟨hop, hcl, hcr⟩ := operatorTypes_typed htys
    exact ⟨hop, l.widen_ty _, r.widen_ty _, (infer_wellTyped henv left hl).widen hcl,
      (infer_wellTyped henv right hr).widen hcr⟩
  | .step s x, e', h => by
    obtain ⟨v, hv, hn, rfl⟩ := infer_step_eq_ok.mp h
    exact ⟨henv.resolve hv, hn⟩
  | .negate pos e, e', h => by
    obtain ⟨inner, hinner, hn, rfl⟩ := infer_negate_eq_ok.mp h
    exact ⟨rfl, hn, infer_wellTyped henv e hinner⟩
  | .paren e, e', h => by
    simp only [infer] at h
    exact infer_wellTyped henv e h

/-- Accepted arguments are well typed and have exactly the types of the parameters. -/
theorem inferArgs_wellTyped (henv : env.Describes funs vars) :
    ∀ (es : List Surface.Expr) (tys : List Ty) {es' : List Expr}, es.length = tys.length →
      inferArgs env es tys = .ok es' → ArgsWellTyped funs vars es' ∧ es'.map Expr.ty = tys
  | [], [], es', _, h => by
    simp only [inferArgs, pure_eq_ok] at h
    subst h
    exact ⟨trivial, rfl⟩
  | e :: es, ty :: tys, es', hlen, h => by
    obtain ⟨arg, rest, harg, hc, hrest, rfl⟩ := inferArgs_cons_eq_ok.mp h
    obtain ⟨htyped, htys⟩ := inferArgs_wellTyped henv es tys (by simpa using hlen) hrest
    exact ⟨⟨(infer_wellTyped henv e harg).widen hc, htyped⟩, by simp [arg.widen_ty, htys]⟩

end

/-- An expression accepted at a type is well typed and has that type. -/
theorem checkExpr_wellTyped (henv : env.Describes funs vars) {expected : Ty} {e : Surface.Expr}
    {e' : Expr} (h : checkExpr env expected e = .ok e') :
    e'.WellTyped funs vars ∧ e'.ty = expected := by
  obtain ⟨inner, hinner, hc, rfl⟩ := checkExpr_eq_ok.mp h
  exact ⟨(infer_wellTyped henv e hinner).widen hc, inner.widen_ty _⟩

/-! ## Statements -/

/-- Declaring a name records the number it got together with its name and type. -/
theorem declareVar_eq_ok {ty : Ty} {x : Name} {v : VarDecl} :
    declareVar env ty x = .ok (v, env') ↔
      ∃ id, env.declare ty x.value = (.ok id, env') ∧ ⟨id, x.value, ty⟩ = v := by
  simp only [declareVar, bind_eq_ok, named_eq_ok, pure_eq_ok, Prod.mk.injEq]
  constructor
  · rintro ⟨id, hd, rfl, rfl⟩
    exact ⟨id, Prod.ext hd rfl, rfl⟩
  · rintro ⟨id, hd, rfl⟩
    exact ⟨id, by rw [hd], rfl, by rw [hd]⟩

/-- Declaring a variable leaves the table of functions alone. -/
theorem declareVar_functions {ty : Ty} {x : Name} {v : VarDecl}
    (h : declareVar env ty x = .ok (v, env')) : env'.functions = env.functions := by
  obtain ⟨id, hd, -⟩ := declareVar_eq_ok.mp h
  obtain ⟨-, scope, outer, -, -, -, rfl⟩ := Environment.declare_eq_ok.mp hd
  rfl

theorem checkReturn_none_eq_ok {result : Ty} {pos : Pos} {s' : Stmt} :
    checkReturn env result pos none = .ok s' ↔ result = .void ∧ .ret none = s' := by
  rw [checkReturn]
  split
  · next hvoid => simp [hvoid, pure_eq_ok]
  · next hvoid => simp [hvoid]

theorem checkReturn_some_eq_ok {result : Ty} {pos : Pos} {e : Surface.Expr} {s' : Stmt} :
    checkReturn env result pos (some e) = .ok s' ↔
      result ≠ .void ∧ ∃ e', checkExpr env result e = .ok e' ∧ .ret (some e') = s' := by
  rw [checkReturn]
  split
  · next hvoid => simp [hvoid, bind_eq_ok]
  · next hvoid => simp only [bind_eq_ok, pure_eq_ok, ne_eq, hvoid, not_false_eq_true, true_and]

/-- A declared variable is new, and the environment after it describes the types extended by it. -/
theorem declareVar_typed (henv : env.Describes funs vars) {ty : Ty} {x : Name} {v : VarDecl}
    (h : declareVar env ty x = .ok (v, env')) :
    v.ty = ty ∧ NewVars vars [v] ∧ env'.Describes funs (vars.extend [v]) ∧
      env'.scopes.length = env.scopes.length := by
  obtain ⟨id, hd, rfl⟩ := declareVar_eq_ok.mp h
  obtain ⟨hty, hid, hdesc, hlen⟩ := henv.declare hd
  refine ⟨rfl, ⟨by simp [hid], by simpa using hty⟩, hdesc, hlen⟩

/-- Declaring in turn yields new variables of the types asked for, by induction on the
declarations. -/
theorem declareAll_typed {xs : List (Ty × Name)} :
    ∀ {env env' : Environment} {vars : VarTypes} {vs : List VarDecl},
      env.Describes funs vars → declareAll env xs = .ok (vs, env') →
      vs.map VarDecl.ty = xs.map Prod.fst ∧ NewVars vars vs ∧
        env'.Describes funs (vars.extend vs) ∧ env'.scopes.length = env.scopes.length := by
  induction xs with
  | nil =>
    intro env env' vars vs henv h
    simp only [declareAll, pure_eq_ok, Prod.mk.injEq] at h
    obtain ⟨rfl, rfl⟩ := h
    exact ⟨rfl, ⟨rfl, by simp⟩, by simpa [VarTypes.extend] using henv, rfl⟩
  | cons x xs ih =>
    intro env env' vars vs henv h
    obtain ⟨ty, x⟩ := x
    simp only [declareAll, bind_eq_ok, pure_eq_ok, Prod.mk.injEq] at h
    obtain ⟨⟨v, env₁⟩, hv, ⟨ws, env₂⟩, hws, rfl, rfl⟩ := h
    obtain ⟨hty, hnew, hdesc, hlen⟩ := declareVar_typed henv hv
    obtain ⟨htys, hnews, hdescs, hlens⟩ := ih hdesc hws
    refine ⟨by simp [hty, htys], hnew.append hnews, ?_, hlens.trans hlen⟩
    rw [← List.singleton_append, VarTypes.extend_append]
    exact hdescs

theorem optionally_infer_wellTyped (henv : env.Describes funs vars) {e : Option Surface.Expr}
    {e' : Option Expr} (h : optionally (infer env) e = .ok e') :
    OptionalWellTyped funs vars e' := by
  cases e with
  | none =>
    simp only [optionally, pure_eq_ok] at h
    subst h
    exact trivial
  | some e =>
    simp only [optionally, bind_eq_ok, pure_eq_ok] at h
    obtain ⟨inner, hinner, rfl⟩ := h
    exact infer_wellTyped henv e hinner

theorem optionally_checkExpr_wellTyped (henv : env.Describes funs vars) {e : Option Surface.Expr}
    {e' : Option Expr} (h : optionally (checkExpr env .bool) e = .ok e') :
    ConditionWellTyped funs vars e' := by
  cases e with
  | none =>
    simp only [optionally, pure_eq_ok] at h
    subst h
    exact trivial
  | some e =>
    simp only [optionally, bind_eq_ok, pure_eq_ok] at h
    obtain ⟨inner, hinner, rfl⟩ := h
    exact checkExpr_wellTyped henv hinner

/-- An accepted return fits the result type and declares nothing. -/
theorem checkReturn_wellTyped (henv : env.Describes funs vars) {result : Ty} {pos : Pos}
    {value : Option Surface.Expr} {s' : Stmt} (h : checkReturn env result pos value = .ok s') :
    s'.WellTyped funs result vars ∧ s'.declared = [] := by
  cases value with
  | none =>
    obtain ⟨hvoid, rfl⟩ := checkReturn_none_eq_ok.mp h
    exact ⟨hvoid, rfl⟩
  | some e =>
    obtain ⟨hvoid, e', he, rfl⟩ := checkReturn_some_eq_ok.mp h
    obtain ⟨htyped, hty⟩ := checkExpr_wellTyped henv he
    exact ⟨⟨hvoid, hty, htyped⟩, rfl⟩

/-- What is known of the result `s'` of checking a statement that declares variables of the types
`tys`, and of the environment behind it. -/
structure CheckedAs (funs : FunctionTypes) (vars : VarTypes) (env env' : Environment)
    (tys : List Ty) (vs : List VarDecl) : Prop where
  describes : env'.Describes funs (vars.extend vs)
  depth : env'.scopes.length = env.scopes.length
  types : vs.map VarDecl.ty = tys

theorem CheckedAs.refl (henv : env.Describes funs vars) : CheckedAs funs vars env env [] [] :=
  ⟨by simpa [VarTypes.extend] using henv, rfl, rfl⟩

/-- Two stretches checked one after the other are one stretch that declares what both do. -/
theorem CheckedAs.append {env₁ env₂ : Environment} {tys₁ tys₂ : List Ty} {vs₁ vs₂ : List VarDecl}
    (h₁ : CheckedAs funs vars env env₁ tys₁ vs₁)
    (h₂ : CheckedAs funs (vars.extend vs₁) env₁ env₂ tys₂ vs₂) :
    CheckedAs funs vars env env₂ (tys₁ ++ tys₂) (vs₁ ++ vs₂) where
  describes := by
    rw [VarTypes.extend_append]
    exact h₂.describes
  depth := h₂.depth.trans h₁.depth
  types := by rw [List.map_append, h₁.types, h₂.types]

/-- What was checked in a scope of its own. -/
theorem CheckedAs.scoped {tys : List Ty} {vs : List VarDecl}
    (h : CheckedAs funs vars env.pushScope env' tys vs) :
    CheckedAs funs vars env env'.popScope tys vs where
  describes := h.describes.popScope
  depth := by simp [Environment.popScope, h.depth, Environment.pushScope]
  types := h.types

mutual

/-- An accepted statement is well typed, and its declarations are the types its source declares, in
order. -/
theorem checkStmt_wellTyped {result : Ty} :
    ∀ (s : Surface.Stmt) {env env' : Environment} {vars : VarTypes} {s' : Stmt},
      env.Describes funs vars → checkStmt result env s = .ok (s', env') →
      s'.WellTyped funs result vars ∧ CheckedAs funs vars env env' s.declaredTypes s'.declared
  | .declare ty xs, env, env', vars, s', henv, h => by
    simp only [checkStmt, bind_eq_ok, pure_eq_ok, Prod.mk.injEq] at h
    obtain ⟨⟨vs, env₁⟩, hvs, rfl, rfl⟩ := h
    obtain ⟨htys, hnew, hdesc, hlen⟩ := declareAll_typed henv hvs
    exact ⟨hnew, hdesc, hlen, by
      simpa [Function.comp_def, Stmt.declared, Surface.Stmt.declaredTypes] using htys⟩
  | .init ty x e, env, env', vars, s', henv, h => by
    simp only [checkStmt, bind_eq_ok, pure_eq_ok, Prod.mk.injEq] at h
    obtain ⟨e', he, ⟨v, env₁⟩, hv, rfl, rfl⟩ := h
    obtain ⟨htyped, hety⟩ := checkExpr_wellTyped henv he
    obtain ⟨hty, hnew, hdesc, hlen⟩ := declareVar_typed henv hv
    exact ⟨⟨hnew, hety.trans hty.symm, htyped⟩, hdesc, hlen, by simp [hty, Stmt.declared,
      Surface.Stmt.declaredTypes]⟩
  | .expr e, env, env', vars, s', henv, h => by
    simp only [checkStmt, bind_eq_ok, pure_eq_ok, Prod.mk.injEq] at h
    obtain ⟨e', he, rfl, rfl⟩ := h
    exact ⟨infer_wellTyped henv e he, .refl henv⟩
  | .ret pos value, env, env', vars, s', henv, h => by
    simp only [checkStmt, bind_eq_ok, pure_eq_ok, Prod.mk.injEq] at h
    obtain ⟨r, hr, rfl, rfl⟩ := h
    obtain ⟨htyped, hdecl⟩ := checkReturn_wellTyped henv hr
    rw [hdecl]
    exact ⟨htyped, .refl henv⟩
  | .block body, env, env', vars, s', henv, h => by
    simp only [checkStmt, bind_eq_ok, pure_eq_ok, Prod.mk.injEq] at h
    obtain ⟨⟨body', env₁⟩, hbody, rfl, rfl⟩ := h
    obtain ⟨htyped, hchecked⟩ := checkStmts_wellTyped body henv.pushScope hbody
    exact ⟨htyped, hchecked.scoped⟩
  | .whileLoop c body, env, env', vars, s', henv, h => by
    simp only [checkStmt, bind_eq_ok, pure_eq_ok, Prod.mk.injEq] at h
    obtain ⟨c', hc, ⟨body', env₁⟩, hbody, rfl, rfl⟩ := h
    obtain ⟨hctyped, hcty⟩ := checkExpr_wellTyped henv hc
    obtain ⟨htyped, hchecked⟩ := checkStmt_wellTyped body henv.pushScope hbody
    exact ⟨⟨hctyped, hcty, htyped⟩, hchecked.scoped⟩
  | .forLoop init c step body, env, env', vars, s', henv, h => by
    simp only [checkStmt, bind_eq_ok, pure_eq_ok, Prod.mk.injEq] at h
    obtain ⟨init', hinit, c', hc, step', hstep, ⟨body', env₁⟩, hbody, rfl, rfl⟩ := h
    obtain ⟨htyped, hchecked⟩ := checkStmt_wellTyped body henv.pushScope hbody
    exact ⟨⟨optionally_infer_wellTyped henv hinit, optionally_checkExpr_wellTyped henv hc,
      optionally_infer_wellTyped henv hstep, htyped⟩, hchecked.scoped⟩
  | .ifThen c thenBranch, env, env', vars, s', henv, h => by
    simp only [checkStmt, bind_eq_ok, pure_eq_ok, Prod.mk.injEq] at h
    obtain ⟨c', hc, ⟨then', env₁⟩, hthen, rfl, rfl⟩ := h
    obtain ⟨hctyped, hcty⟩ := checkExpr_wellTyped henv hc
    obtain ⟨htyped, hchecked⟩ := checkStmt_wellTyped thenBranch henv.pushScope hthen
    exact ⟨⟨hctyped, hcty, htyped⟩, hchecked.scoped⟩
  | .ifElse c thenBranch elseBranch, env, env', vars, s', henv, h => by
    simp only [checkStmt, bind_eq_ok, pure_eq_ok, Prod.mk.injEq] at h
    obtain ⟨c', hc, ⟨then', env₁⟩, hthen, ⟨else', env₂⟩, helse, rfl, rfl⟩ := h
    obtain ⟨hctyped, hcty⟩ := checkExpr_wellTyped henv hc
    obtain ⟨hthenTyped, hthenChecked⟩ := checkStmt_wellTyped thenBranch henv.pushScope hthen
    have hscoped := hthenChecked.scoped
    obtain ⟨helseTyped, helseChecked⟩ :=
      checkStmt_wellTyped elseBranch hscoped.describes.pushScope helse
    exact ⟨⟨hctyped, hcty, hthenTyped, helseTyped⟩, hscoped.append helseChecked.scoped⟩

/-- The same for a block, whose statements see what the ones before them declare. -/
theorem checkStmts_wellTyped {result : Ty} :
    ∀ (ss : List Surface.Stmt) {env env' : Environment} {vars : VarTypes} {ss' : List Stmt},
      env.Describes funs vars → checkStmts result env ss = .ok (ss', env') →
      BlockWellTyped funs result vars ss' ∧
        CheckedAs funs vars env env' (Surface.declaredTypesIn ss) (declaredIn ss')
  | [], env, env', vars, ss', henv, h => by
    simp only [checkStmts, pure_eq_ok, Prod.mk.injEq] at h
    obtain ⟨rfl, rfl⟩ := h
    exact ⟨trivial, .refl henv⟩
  | s :: ss, env, env', vars, ss', henv, h => by
    simp only [checkStmts, bind_eq_ok, pure_eq_ok, Prod.mk.injEq] at h
    obtain ⟨⟨s', env₁⟩, hs, ⟨rest, env₂⟩, hss, rfl, rfl⟩ := h
    obtain ⟨htyped, hchecked⟩ := checkStmt_wellTyped s henv hs
    obtain ⟨hrestTyped, hrestChecked⟩ := checkStmts_wellTyped ss hchecked.describes hss
    exact ⟨⟨htyped, hrestTyped⟩, hchecked.append hrestChecked⟩

end

/-! ## Functions and programs -/

/-! ### Functions on their own

One environment goes through all functions. It would make no difference if each of them was checked
in an environment that holds the signatures and nothing else: what a function has left behind is
gone when the next one is entered, and no statement touches the signatures. -/

theorem declareAll_functions {xs : List (Ty × Name)} :
    ∀ {env env' : Environment} {vs : List VarDecl}, declareAll env xs = .ok (vs, env') →
      env'.functions = env.functions := by
  induction xs with
  | nil =>
    intro env env' vs h
    cases h
    rfl
  | cons x xs ih =>
    intro env env' vs h
    simp only [declareAll, bind_eq_ok, pure_eq_ok, Prod.mk.injEq] at h
    obtain ⟨⟨v, env₁⟩, hv, ⟨rest, env₂⟩, hrest, -, rfl⟩ := h
    exact (ih hrest).trans (declareVar_functions hv)

mutual

/-- No statement changes the table of functions. -/
theorem checkStmt_functions {result : Ty} :
    ∀ (s : Surface.Stmt) {env env' : Environment} {s' : Stmt},
      checkStmt result env s = .ok (s', env') → env'.functions = env.functions
  | .declare _ _, _, _, _, h => by
    simp only [checkStmt, bind_eq_ok, pure_eq_ok, Prod.mk.injEq] at h
    obtain ⟨⟨vs, env₁⟩, hvs, -, rfl⟩ := h
    exact declareAll_functions hvs
  | .init _ _ _, _, _, _, h => by
    simp only [checkStmt, bind_eq_ok, pure_eq_ok, Prod.mk.injEq] at h
    obtain ⟨e', -, ⟨v, env₁⟩, hv, -, rfl⟩ := h
    exact declareVar_functions hv
  | .expr _, _, _, _, h | .ret _ _, _, _, _, h => by
    simp only [checkStmt, bind_eq_ok, pure_eq_ok, Prod.mk.injEq] at h
    obtain ⟨_, -, -, rfl⟩ := h
    rfl
  | .block body, _, _, _, h => by
    simp only [checkStmt, bind_eq_ok, pure_eq_ok, Prod.mk.injEq] at h
    obtain ⟨⟨body', env₁⟩, hbody, -, rfl⟩ := h
    exact (checkStmts_functions body hbody :)
  | .whileLoop _ body, _, _, _, h | .ifThen _ body, _, _, _, h => by
    simp only [checkStmt, bind_eq_ok, pure_eq_ok, Prod.mk.injEq] at h
    obtain ⟨c', -, ⟨body', env₁⟩, hbody, -, rfl⟩ := h
    exact (checkStmt_functions body hbody :)
  | .forLoop _ _ _ body, _, _, _, h => by
    simp only [checkStmt, bind_eq_ok, pure_eq_ok, Prod.mk.injEq] at h
    obtain ⟨init', -, c', -, step', -, ⟨body', env₁⟩, hbody, -, rfl⟩ := h
    exact (checkStmt_functions body hbody :)
  | .ifElse _ thenBranch elseBranch, _, _, _, h => by
    simp only [checkStmt, bind_eq_ok, pure_eq_ok, Prod.mk.injEq] at h
    obtain ⟨c', -, ⟨then', env₁⟩, hthen, ⟨else', env₂⟩, helse, -, rfl⟩ := h
    have helse := checkStmt_functions elseBranch helse
    exact helse.trans (checkStmt_functions thenBranch hthen :)

theorem checkStmts_functions {result : Ty} :
    ∀ (ss : List Surface.Stmt) {env env' : Environment} {ss' : List Stmt},
      checkStmts result env ss = .ok (ss', env') → env'.functions = env.functions
  | [], _, _, _, h => by
    cases h
    rfl
  | s :: ss, _, _, _, h => by
    simp only [checkStmts, bind_eq_ok, pure_eq_ok, Prod.mk.injEq] at h
    obtain ⟨⟨s', env₁⟩, hs, ⟨rest, env₂⟩, hss, -, rfl⟩ := h
    exact (checkStmts_functions ss hss).trans (checkStmt_functions s hs)

end

/-- Checks a function on its own, from the environment `env` of all signatures. -/
def checkFunction (env : Environment) (f : Surface.Function) : Checked Function := do
  let (params, inner) ← declareAll env.enterFunction (f.params.map fun p => (p.ty, p.name))
  let (body, inner) ← checkStmts f.ret inner f.body
  let signature ← named f.name.pos (inner.lookupFunction f.name.value)
  return { name := f.name.value, signature, params, body }

/-- Checks every function from the same environment, in order. -/
def checkFunctions (env : Environment) : List Surface.Function → Checked Program
  | [] => return []
  | f :: fs => do
    let f' ← checkFunction env f
    return f' :: (← checkFunctions env fs)

/-- Checking one function alone answers what checking it in turn answers, without the
environment. -/
theorem checkFunction_eq_checkNext (env : Environment) (f : Surface.Function) :
    checkFunction env f = (checkNext env f).map Prod.fst := by
  unfold checkFunction checkNext
  cases declareAll env.enterFunction (f.params.map fun p => (p.ty, p.name)) with
  | error e => rfl
  | ok r =>
    simp only [bind, Except.bind]
    cases checkStmts f.ret r.2 f.body with
    | error e => rfl
    | ok r =>
      simp only []
      cases named f.name.pos (r.2.lookupFunction f.name.value) with
      | error e => rfl
      | ok s => rfl

/-- The environment that is handed on has the same functions. -/
theorem checkNext_functions {f : Surface.Function} {f' : Function}
    (h : checkNext env f = .ok (f', env')) : env'.functions = env.functions := by
  simp only [checkNext, bind_eq_ok, pure_eq_ok, Prod.mk.injEq] at h
  obtain ⟨⟨params, env₁⟩, hparams, ⟨body, env₂⟩, hbody, s, -, -, rfl⟩ := h
  exact (checkStmts_functions f.body hbody).trans (declareAll_functions hparams :)

/-- On entry into a function nothing is left but the functions of the environment. -/
theorem checkFunctions_congr (h : env'.functions = env.functions) (fs : List Surface.Function) :
    checkFunctions env' fs = checkFunctions env fs := by
  have henter : env'.enterFunction = env.enterFunction := by
    simp only [Environment.enterFunction, h]
  induction fs with
  | nil => rfl
  | cons f fs ih => rw [checkFunctions, checkFunctions, checkFunction, checkFunction, henter, ih]

/-- Functions that are checked in turn might as well have been checked on their own. -/
theorem checkInTurn_eq (fs : List Surface.Function) :
    ∀ env : Environment, checkInTurn env fs = checkFunctions env fs := by
  induction fs with
  | nil => exact fun _ => rfl
  | cons f fs ih =>
    intro env
    rw [checkInTurn, checkFunctions, checkFunction_eq_checkNext]
    cases hnext : checkNext env f with
    | error e => rfl
    | ok r =>
      simp only [bind, Except.bind, Except.map, ih r.2,
        checkFunctions_congr (checkNext_functions hnext) fs]

/-! ### Signatures -/

/-- Signatures are entered in the order of the functions, and the first one refused ends the run. -/
theorem addSignatures_cons (env : Environment) (f : Surface.Function)
    (fs : List Surface.Function) :
    addSignatures env (f :: fs) =
      (named f.name.pos (env.addFunction f.name.value f.signature).1 >>= fun _ =>
        addSignatures (env.addFunction f.name.value f.signature).2 fs) := rfl

/-- The environment in which only the built-in functions are known. -/
def builtinEnvironment : Environment :=
  { Environment.empty with functions := Builtin.signatures.reverse }

/-- No built-in function is in the way of another. -/
theorem addBuiltins_empty : addBuiltins .empty = .ok builtinEnvironment := rfl

/-- A program is checked function by function, in the environment of all signatures. -/
theorem checkProgram_eq (p : Surface.Program) :
    checkProgram p =
      (addSignatures builtinEnvironment p >>= fun env =>
        if hasMain env then checkFunctions env p else .error (.error .noMain)) := by
  simp only [checkProgram, addBuiltins_empty, checkInTurn_eq]
  rfl

/-- The signatures of `fs` are added in front, under names that were not there. -/
theorem addSignatures_functions {fs : List Surface.Function} :
    ∀ {env env' : Environment}, addSignatures env fs = .ok env' →
      (env.functions.map Prod.fst).Nodup →
      env'.functions = (fs.map fun f => (f.name.value, f.signature)).reverse ++ env.functions ∧
        (env'.functions.map Prod.fst).Nodup := by
  induction fs with
  | nil =>
    intro env env' h hnodup
    cases h
    exact ⟨rfl, hnodup⟩
  | cons f fs ih =>
    intro env env' h hnodup
    simp only [addSignatures_cons, bind_eq_ok, named_eq_ok] at h
    obtain ⟨_, hadd, h⟩ := h
    unfold Environment.addFunction at hadd h
    split at hadd
    · cases hadd
    · next hnone =>
      rw [hnone] at h
      have hfresh : ∀ s, (f.name.value, s) ∉ env.functions := fun s hmem => by
        rw [(lookup_eq_some_iff_mem hnodup).mpr hmem] at hnone
        cases hnone
      obtain ⟨heq, hnodup'⟩ := ih h (by simpa using ⟨hfresh, hnodup⟩)
      exact ⟨by simp [heq], hnodup'⟩

/-- The functions that are known then, in some order. -/
theorem addSignatures_perm {fs : List Surface.Function}
    (h : addSignatures builtinEnvironment fs = .ok env) :
    env.functions.Perm (Builtin.signatures ++ fs.map fun f => (f.name.value, f.signature)) ∧
      (env.functions.map Prod.fst).Nodup := by
  obtain ⟨hfunctions, hnodup⟩ := addSignatures_functions h (by decide)
  rw [hfunctions] at hnodup ⊢
  exact ⟨((List.reverse_perm _).append (List.reverse_perm Builtin.signatures)).trans
    List.perm_append_comm, hnodup⟩

/-- Only the heads of the functions are looked at. -/
theorem addSignatures_congr {fs gs : List Surface.Function}
    (h : (fs.map fun f => (f.name, f.signature)) = gs.map fun g => (g.name, g.signature)) :
    addSignatures env fs = addSignatures env gs := by
  rw [addSignatures, h, addSignatures]

/-- A function that is known under its own signature. -/
theorem checkFunction_wellTyped {f : Surface.Function} {f' : Function}
    (hfuns : (env.functions.lookup ·) = funs) (hsig : funs f.name.value = some f.signature)
    (h : checkFunction env f = .ok f') :
    f'.WellTyped funs ∧ f'.name = f.name.value ∧ f'.signature = f.signature ∧
      f'.vars.map VarDecl.ty = f.varTypes := by
  simp only [checkFunction, bind_eq_ok, named_eq_ok, pure_eq_ok] at h
  obtain ⟨⟨params, env₁⟩, hparams, ⟨body, env₂⟩, hbody, s, hs, rfl⟩ := h
  obtain ⟨htys, hnew, hdesc, -⟩ :=
    declareAll_typed (Environment.describes_enterFunction hfuns) hparams
  obtain ⟨htyped, hchecked⟩ := checkStmts_wellTyped f.body hdesc hbody
  have hknown := hchecked.describes.lookupFunction hs
  obtain rfl : s = f.signature := Option.some.inj (hknown.symm.trans hsig)
  have hparamTypes : params.map VarDecl.ty = f.signature.params := by
    simpa [Function.comp_def, Surface.Function.signature] using htys
  refine ⟨⟨hknown, hnew, hparamTypes, ?_⟩, rfl, rfl, ?_⟩
  · simpa [VarTypes.extend, Surface.Function.signature] using htyped
  · simp only [Function.vars, Surface.Function.varTypes, List.map_append, hparamTypes,
      hchecked.types, Surface.Function.signature]

/-- Accepted functions are well typed, and keep their names, signatures and the types of their
variables. -/
theorem checkFunctions_wellTyped (hfuns : (env.functions.lookup ·) = funs)
    {fs : List Surface.Function} : ∀ {fs' : Program},
      (∀ f ∈ fs, funs f.name.value = some f.signature) → checkFunctions env fs = .ok fs' →
      (∀ f' ∈ fs', f'.WellTyped funs) ∧
        fs'.map (fun f' => (f'.name, f'.signature)) =
          fs.map (fun f => (f.name.value, f.signature)) ∧
        fs'.map (fun f' => f'.vars.map VarDecl.ty) = fs.map Surface.Function.varTypes := by
  induction fs with
  | nil =>
    intro fs' _ h
    simp only [checkFunctions, pure_eq_ok] at h
    subst h
    simp
  | cons f fs ih =>
    intro fs' hknown h
    simp only [checkFunctions, bind_eq_ok, pure_eq_ok] at h
    obtain ⟨f', hf, rest, hrest, rfl⟩ := h
    obtain ⟨htyped, hname, hsig, hvars⟩ :=
      checkFunction_wellTyped hfuns (hknown f (by simp)) hf
    obtain ⟨htypeds, hnames, hvarss⟩ := ih (fun g hg => hknown g (by simp [hg])) hrest
    refine ⟨?_, by simp [hname, hsig, hnames], by simp [hvars, hvarss]⟩
    intro g hg
    rcases List.mem_cons.mp hg with rfl | hg
    · exact htyped
    · exact htypeds g hg

/-- The `main` that is asked for takes nothing and returns nothing. -/
theorem hasMain_lookup (h : hasMain env = true) :
    env.functions.lookup "main" = some ⟨.void, []⟩ := by
  unfold hasMain Environment.lookupFunction at h
  split at h
  · next s hs =>
    split at hs
    · next hlookup =>
      cases hs
      simp only [Signature.arity, Bool.and_eq_true, decide_eq_true_eq, List.length_eq_zero_iff] at h
      rw [hlookup, ← h.1, ← h.2]
    · cases hs
  · cases h

/-- An accepted program is well typed, and has the signatures and the variables of its text. -/
theorem checkProgram_wellTyped {p : Surface.Program} {t : Program} (h : checkProgram p = .ok t) :
    ProgramWellTyped t ∧
      t.map (fun f' => (f'.name, f'.signature)) = p.map (fun f => (f.name.value, f.signature)) ∧
      t.map (fun f' => f'.vars.map VarDecl.ty) = p.map Surface.Function.varTypes := by
  simp only [checkProgram_eq, bind_eq_ok] at h
  obtain ⟨env, henv, h⟩ := h
  split at h
  · next hmain =>
    obtain ⟨hperm, hnodup⟩ := addSignatures_perm henv
    have hmem : ∀ f ∈ p, env.functions.lookup f.name.value = some f.signature := by
      intro f hf
      rw [lookup_eq_some_iff_mem hnodup, hperm.mem_iff]
      exact List.mem_append_right _ (List.mem_map_of_mem hf)
    obtain ⟨htyped, hnames, hvars⟩ := checkFunctions_wellTyped rfl hmem h
    rw [← hnames] at hperm
    have hfuns : (env.functions.lookup ·) = functionTypes t :=
      funext fun f => lookup_eq_of_perm hnodup hperm
    rw [hfuns] at htyped
    refine ⟨⟨(hperm.map Prod.fst).nodup_iff.mp hnodup, ?_, htyped⟩, hnames, hvars⟩
    rw [← hfuns]
    exact hasMain_lookup hmain
  · cases h

end Core

end MiniC
