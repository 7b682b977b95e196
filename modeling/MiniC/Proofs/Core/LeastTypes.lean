import MiniC.Proofs.Core.Checked
import MiniC.Proofs.Surface.Typing

/-!
# The inferred type is the least one

The rules let an `int` expression be widened wherever it stands; inference widens only where a
context asks for it. Nothing is lost: an expression that has a type is inferred, and the inferred
type converts to every type that it has. That is shown along the derivation, the widening rule
being one of its cases, so inference need not be told where the derivation widens.
-/

namespace MiniC

open Surface (Scopes HasType IsLeastType)

/-! ## Environments and scopes -/

namespace Environment

open MiniC.Core (FunctionTypes)

/-- The environment knows the functions `funs`, and its scopes are `Γ`, the numbers of the variables
forgotten. -/
structure Knows (env : Environment) (funs : FunctionTypes) (Γ : Scopes) : Prop where
  functions : (env.functions.lookup ·) = funs
  scopes : env.scopes.map (List.map fun entry => (entry.1, entry.2.ty)) = Γ

variable {env env' : Environment} {funs : FunctionTypes} {Γ : Scopes}

/-- On entering a function there is one scope, and it is empty. -/
theorem knows_enterFunction (h : (env.functions.lookup ·) = funs) :
    env.enterFunction.Knows funs [[]] where
  functions := h
  scopes := rfl

theorem Knows.pushScope (h : env.Knows funs Γ) : env.pushScope.Knows funs ([] :: Γ) where
  functions := h.functions
  scopes := congrArg (List.cons []) h.scopes

/-- Closing a scope gives back what was known outside. -/
theorem Knows.popScope {Γ' : Scopes} (h : env.Knows funs Γ') (htail : Γ'.tail = Γ) :
    env.popScope.Knows funs Γ where
  functions := h.functions
  scopes := by
    rw [← htail, ← h.scopes, ← List.map_tail]
    rfl

theorem lookup_types (scope : Scope) (x : String) :
    (scope.map fun entry => (entry.1, entry.2.ty)).lookup x =
      (scope.lookup x).map Variable.ty := by
  induction scope with
  | nil => rfl
  | cons entry scope ih =>
    rw [List.map_cons, List.lookup_cons, List.lookup_cons]
    split
    · rfl
    · exact ih

/-- The environment resolves a name exactly to the type the scopes find. -/
theorem Knows.resolve_iff (h : env.Knows funs Γ) {x : String} {ty : Ty} :
    (∃ v, env.resolve x = .ok v ∧ v.ty = ty) ↔ Γ.find? x = some ty := by
  have hlookup : Γ.find? x = (env.scopes.findSome? (·.lookup x)).map Variable.ty := by
    rw [← h.scopes, ScopeStack.find?, List.findSome?_map, List.map_findSome?]
    exact congrArg (List.findSome? · env.scopes) (funext fun scope => lookup_types scope x)
  simp only [hlookup, resolve_eq_ok, Option.map_eq_some_iff]

/-- The environment finds exactly the known functions. -/
theorem Knows.lookupFunction_iff (h : env.Knows funs Γ) {f : String} {s : Signature} :
    env.lookupFunction f = .ok s ↔ funs f = some s := by
  rw [← h.functions]
  exact lookupFunction_eq_ok

/-- A name is new exactly when the innermost scope has no entry for it. -/
theorem lookup_eq_none_iff_fresh {scope : Scope} {outer : List Scope} {x : String}
    (h : env.Knows funs Γ) (hscopes : env.scopes = scope :: outer) :
    scope.lookup x = none ↔ Γ.Fresh x := by
  have hkeys : ∀ y, y ∈ (scope.map fun entry => (entry.1, entry.2.ty)).map Prod.fst ↔
      ∃ entry ∈ scope, y = entry.1 := by
    intro y
    simp [eq_comm]
  rw [← h.scopes, hscopes, List.lookup_eq_none_iff, List.map_cons, Scopes.Fresh, hkeys]
  simp only [bne_iff_ne, ne_eq, not_exists, not_and]

/-- What can be declared, and what is known then. -/
theorem Knows.of_declare (h : env.Knows funs Γ) {ty : Ty} {x : String} {v : VarId}
    (hd : env.declare ty x = (.ok v, env')) :
    ty ≠ .void ∧ Γ.Fresh x ∧ env'.Knows funs (Γ.declare (x, ty)) := by
  obtain ⟨hty, scope, outer, hscopes, hnone, -, rfl⟩ := declare_eq_ok.mp hd
  refine ⟨hty, (lookup_eq_none_iff_fresh h hscopes).mp hnone, h.functions, ?_⟩
  rw [← h.scopes, hscopes]
  rfl

/-- What is not void and new can be declared. -/
theorem Knows.declare (h : env.Knows funs Γ) {ty : Ty} {x : String} (hty : ty ≠ .void)
    (hx : Γ.Fresh x) : ∃ v env', env.declare ty x = (.ok v, env') := by
  cases hscopes : env.scopes with
  | nil =>
    rw [← h.scopes, hscopes] at hx
    exact hx.elim
  | cons scope outer =>
    have hnone := (lookup_eq_none_iff_fresh h hscopes).mpr hx
    exact ⟨_, _, declare_eq_ok.mpr ⟨hty, scope, outer, hscopes, hnone, rfl, rfl⟩⟩

end Environment

namespace Core

variable {env : Environment} {funs : FunctionTypes} {Γ : Scopes}

/-! ## Inference follows the rules -/

mutual

/-- The inferred type is a type of the expression. -/
theorem infer_hasType (henv : env.Knows funs Γ) :
    ∀ (e : Surface.Expr) {e' : Expr}, infer env e = .ok e' → HasType funs Γ e e'.ty
  | .const c, e', h => by
    simp only [infer, pure_eq_ok] at h
    subst h
    exact .const
  | .var x, e', h => by
    obtain ⟨v, hv, rfl⟩ := infer_var_eq_ok.mp h
    exact .var (henv.resolve_iff.mp ⟨v, hv, rfl⟩)
  | .assign x e, e', h => by
    obtain ⟨v, src, hv, hsrc, hc, rfl⟩ := infer_assign_eq_ok.mp h
    exact .assign (henv.resolve_iff.mp ⟨v, hv, rfl⟩) ((infer_hasType henv e hsrc).convert hc)
  | .call f args, e', h => by
    obtain ⟨s, args', hs, harity, hargs, rfl⟩ := infer_call_eq_ok.mp h
    exact .call (henv.lookupFunction_iff.mp hs) harity
      (inferArgs_hasType henv args s.params hargs)
  | .binary op left right, e', h => by
    obtain ⟨l, r, tys, hl, hr, htys, rfl⟩ := infer_binary_eq_ok.mp h
    obtain ⟨hop, hcl, hcr⟩ := operatorTypes_typed htys
    exact .binary hop ((infer_hasType henv left hl).convert hcl)
      ((infer_hasType henv right hr).convert hcr)
  | .step s x, e', h => by
    obtain ⟨v, hv, hn, rfl⟩ := infer_step_eq_ok.mp h
    exact .step (henv.resolve_iff.mp ⟨v, hv, rfl⟩) hn
  | .negate pos e, e', h => by
    obtain ⟨inner, hinner, hn, rfl⟩ := infer_negate_eq_ok.mp h
    have htyped := infer_hasType henv e hinner
    exact .negate htyped hn
  | .paren e, e', h => by
    simp only [infer] at h
    exact .paren (infer_hasType henv e h)

/-- Accepted arguments have the types of the parameters. -/
theorem inferArgs_hasType (henv : env.Knows funs Γ) :
    ∀ (es : List Surface.Expr) (tys : List Ty) {es' : List Expr},
      inferArgs env es tys = .ok es' → ∀ arg ∈ es.zip tys, HasType funs Γ arg.1 arg.2
  | [], _, _, _ => by simp
  | _ :: _, [], _, _ => by simp
  | e :: es, ty :: tys, es', h => by
    obtain ⟨arg, rest, harg, hc, hrest, rfl⟩ := inferArgs_cons_eq_ok.mp h
    simp only [List.zip_cons_cons, List.mem_cons, forall_eq_or_imp]
    exact ⟨(infer_hasType henv e harg).convert hc, inferArgs_hasType henv es tys hrest⟩

end

/-! ## Every derivation is found, at its least type -/

theorem convertsTo_refl (ty : Ty) : ty.convertsTo ty = true := convertsTo_iff.mpr (.inl rfl)

/-- Only numerical types convert to numerical ones. -/
theorem isNumerical_of_convertsTo {a b : Ty} (h : a.convertsTo b = true)
    (hb : b.isNumerical = true) : a.isNumerical = true := by
  rcases convertsTo_iff.mp h with rfl | ⟨rfl, rfl⟩
  · exact hb
  · rfl

/-- The type at which two numbers meet is the least one to which both convert. -/
theorem common_convertsTo {a b c : Ty} (ha : a.convertsTo c = true) (hb : b.convertsTo c = true) :
    (a.common b).convertsTo c = true := by
  unfold Ty.common
  split
  · next hdouble =>
    simp only [Bool.or_eq_true, decide_eq_true_eq] at hdouble
    rcases hdouble with rfl | rfl
    · exact ha
    · exact hb
  · exact ha

/-- Nothing else converts to a truth value. -/
theorem eq_bool_of_convertsTo {a : Ty} (h : a.convertsTo .bool = true) : a = .bool := by
  rcases convertsTo_iff.mp h with rfl | ⟨-, h⟩
  · rfl
  · cases h

theorem not_isArithmetic_of_isRelational {op : BinaryOp} (h : op.isRelational = true) :
    op.isArithmetic = false := by
  revert h
  cases op <;> decide

theorem not_isArithmetic_of_isLogical {op : BinaryOp} (h : op.isLogical = true) :
    op.isArithmetic = false ∧ op.isRelational = false := by
  revert h
  cases op <;> decide

/-- Operands whose types convert to what the operator takes are accepted, and the type of the result
converts to the operator's. -/
theorem operatorTypes_complete {op : Located BinaryOp} {operandTy ty left right : Ty}
    (hop : op.value.Typed operandTy ty) (hl : left.convertsTo operandTy = true)
    (hr : right.convertsTo operandTy = true) (leftPos rightPos : Pos) :
    ∃ tys, operatorTypes op leftPos rightPos left right = .ok tys ∧
      tys.2.convertsTo ty = true := by
  unfold operatorTypes
  cases hop with
  | arithmetic hop hn =>
    have hln := isNumerical_of_convertsTo hl hn
    have hrn := isNumerical_of_convertsTo hr hn
    refine ⟨(left.common right, left.common right), ?_, common_convertsTo hl hr⟩
    simp [hop, hln, hrn]
  | relational hop hty =>
    have harith := not_isArithmetic_of_isRelational hop
    rcases hty with hn | rfl
    -- numbers meet at a common type, bools are compared as they are
    · have hln := isNumerical_of_convertsTo hl hn
      have hrn := isNumerical_of_convertsTo hr hn
      refine ⟨(left.common right, .bool), ?_, rfl⟩
      simp [harith, hop, hln, hrn]
    · obtain rfl := eq_bool_of_convertsTo hl
      obtain rfl := eq_bool_of_convertsTo hr
      refine ⟨(.bool, .bool), ?_, rfl⟩
      simp [harith, hop, Ty.isNumerical]
  | logical hop =>
    obtain ⟨harith, hrel⟩ := not_isArithmetic_of_isLogical hop
    obtain rfl := eq_bool_of_convertsTo hl
    obtain rfl := eq_bool_of_convertsTo hr
    refine ⟨(.bool, .bool), ?_, rfl⟩
    simp [harith, hrel, hop]

/-- Arguments that are inferred one by one at types that convert to those of the parameters. -/
theorem inferArgs_complete : ∀ (es : List Surface.Expr) (tys : List Ty),
    (∀ arg ∈ es.zip tys, ∃ e', infer env arg.1 = .ok e' ∧ e'.ty.convertsTo arg.2 = true) →
      ∃ es', inferArgs env es tys = .ok es'
  | [], _, _ => ⟨[], by simp [inferArgs, pure_eq_ok]⟩
  | _ :: _, [], _ => ⟨[], by simp [inferArgs, pure_eq_ok]⟩
  | e :: es, ty :: tys, h => by
    simp only [List.zip_cons_cons, List.mem_cons, forall_eq_or_imp] at h
    obtain ⟨⟨e', he, hc⟩, hrest⟩ := h
    obtain ⟨es', hes⟩ := inferArgs_complete es tys hrest
    exact ⟨e'.widen ty :: es', inferArgs_cons_eq_ok.mpr ⟨e', es', he, hc, hes, rfl⟩⟩

/-- Whatever type an expression has, it is accepted, with a type that converts to it. -/
theorem infer_complete (henv : env.Knows funs Γ) {e : Surface.Expr} {ty : Ty}
    (h : HasType funs Γ e ty) : ∃ e', infer env e = .ok e' ∧ e'.ty.convertsTo ty = true := by
  induction h with
  | @const c => exact ⟨.const c.value, rfl, convertsTo_refl _⟩
  | var hx =>
    obtain ⟨v, hv, rfl⟩ := henv.resolve_iff.mpr hx
    exact ⟨.var v.id v.ty, infer_var_eq_ok.mpr ⟨v, hv, rfl⟩, convertsTo_refl _⟩
  | assign hx _ ih =>
    obtain ⟨v, hv, rfl⟩ := henv.resolve_iff.mpr hx
    obtain ⟨src, hsrc, hc⟩ := ih
    exact ⟨_, infer_assign_eq_ok.mpr ⟨v, src, hv, hsrc, hc, rfl⟩, convertsTo_refl _⟩
  | @call f args s hf harity _ ih =>
    obtain ⟨args', hargs⟩ := inferArgs_complete args s.params ih
    have hs := henv.lookupFunction_iff.mpr hf
    exact ⟨_, infer_call_eq_ok.mpr ⟨s, args', hs, harity, hargs, rfl⟩, convertsTo_refl _⟩
  | @binary op left right operandTy ty hop _ _ ihl ihr =>
    obtain ⟨l, hl, hcl⟩ := ihl
    obtain ⟨r, hr, hcr⟩ := ihr
    obtain ⟨tys, htys, hc⟩ := operatorTypes_complete hop hcl hcr left.pos right.pos
    exact ⟨_, infer_binary_eq_ok.mpr ⟨l, r, tys, hl, hr, htys, rfl⟩, hc⟩
  | step hx hn =>
    obtain ⟨v, hv, rfl⟩ := henv.resolve_iff.mpr hx
    exact ⟨_, infer_step_eq_ok.mpr ⟨v, hv, hn, rfl⟩, convertsTo_refl _⟩
  | negate _ hn ih =>
    obtain ⟨inner, hinner, hc⟩ := ih
    have hn' := isNumerical_of_convertsTo hc hn
    exact ⟨_, infer_negate_eq_ok.mpr ⟨inner, hinner, hn', rfl⟩, hc⟩
  | paren _ ih =>
    simp only [infer]
    exact ih
  | widen _ ih =>
    -- what converts to `int` is `int`, and converts to `double` as well
    obtain ⟨e', he, hc⟩ := ih
    rcases convertsTo_iff.mp hc with hint | ⟨-, hdouble⟩
    · exact ⟨e', he, convertsTo_iff.mpr (.inr ⟨hint, rfl⟩)⟩
    · cases hdouble

/-- The inferred type is the least one. -/
theorem infer_isLeastType (henv : env.Knows funs Γ) {e : Surface.Expr} {e' : Expr}
    (h : infer env e = .ok e') : IsLeastType funs Γ e e'.ty := by
  refine ⟨infer_hasType henv e h, fun ty hty => ?_⟩
  obtain ⟨other, hother, hc⟩ := infer_complete henv hty
  obtain rfl : e' = other := Except.ok.inj (h.symm.trans hother)
  exact hc

/-! ## Recorded types -/

/-- The expression without the cast around it. -/
def Expr.uncast : Expr → Expr
  | .cast _ e => e
  | e => e

mutual

/-- `e'` has the shape of `e`, parentheses and casts apart, and carries on every subexpression the
least type that it has in the scopes `Γ`. -/
def Recorded (funs : FunctionTypes) (Γ : Scopes) (e : Surface.Expr) (e' : Expr) : Prop :=
  IsLeastType funs Γ e e'.ty ∧
    match e, e' with
    | .const c, .const c' => c' = c.value
    | .var _, .var _ _ => True
    | .assign _ src, .assign _ src' _ => Recorded funs Γ src src'.uncast
    | .call f args, .call f' args' _ => f' = f.value ∧ ArgsRecorded funs Γ args args'
    | .binary op left right, .binary op' left' right' _ _ =>
      op' = op.value ∧ Recorded funs Γ left left'.uncast ∧ Recorded funs Γ right right'.uncast
    | .step s _, .step s' _ _ => s' = s
    | .negate _ inner, .negate inner' _ => Recorded funs Γ inner inner'.uncast
    -- parentheses leave no trace
    | .paren inner, e' => Recorded funs Γ inner e'
    | _, _ => False

def ArgsRecorded (funs : FunctionTypes) (Γ : Scopes) : List Surface.Expr → List Expr → Prop
  | [], [] => True
  | e :: es, e' :: es' => Recorded funs Γ e e'.uncast ∧ ArgsRecorded funs Γ es es'
  | _, _ => False

end

/-- No expression of the source is recorded as a cast, since the source has none. -/
theorem not_recorded_cast {target : Ty} {inner : Expr} :
    ∀ e : Surface.Expr, ¬Recorded funs Γ e (.cast target inner)
  | .paren e, h => not_recorded_cast e (by simpa only [Recorded] using h.2)
  | .const _, h | .var _, h | .assign _ _, h | .call _ _, h | .binary _ _ _, h | .step _ _, h
  | .negate _ _, h => by simp only [Recorded, and_false] at h

theorem Recorded.uncast {e : Surface.Expr} {e' : Expr} (h : Recorded funs Γ e e') :
    Recorded funs Γ e e'.uncast := by
  cases e' with
  | cast target inner => exact (not_recorded_cast e h).elim
  | _ => exact h

/-- Widening is undone by leaving the cast off. -/
theorem Recorded.widen {e : Surface.Expr} {e' : Expr} (h : Recorded funs Γ e e') (target : Ty) :
    Recorded funs Γ e (e'.widen target).uncast := by
  unfold Expr.widen
  split
  · exact h.uncast
  · exact h

mutual

/-- An accepted expression carries the least type of each of its parts. -/
theorem infer_recorded (henv : env.Knows funs Γ) :
    ∀ (e : Surface.Expr) {e' : Expr}, infer env e = .ok e' → Recorded funs Γ e e'
  | .const c, e', h => by
    have hleast := infer_isLeastType henv h
    simp only [infer, pure_eq_ok] at h
    subst h
    exact ⟨hleast, rfl⟩
  | .var x, e', h => by
    have hleast := infer_isLeastType henv h
    obtain ⟨v, hv, rfl⟩ := infer_var_eq_ok.mp h
    exact ⟨hleast, trivial⟩
  | .assign x e, e', h => by
    have hleast := infer_isLeastType henv h
    obtain ⟨v, src, hv, hsrc, hc, rfl⟩ := infer_assign_eq_ok.mp h
    exact ⟨hleast, (infer_recorded henv e hsrc).widen v.ty⟩
  | .call f args, e', h => by
    have hleast := infer_isLeastType henv h
    obtain ⟨s, args', hs, harity, hargs, rfl⟩ := infer_call_eq_ok.mp h
    exact ⟨hleast, rfl, inferArgs_recorded henv args s.params harity hargs⟩
  | .binary op left right, e', h => by
    have hleast := infer_isLeastType henv h
    obtain ⟨l, r, tys, hl, hr, htys, rfl⟩ := infer_binary_eq_ok.mp h
    exact ⟨hleast, rfl, (infer_recorded henv left hl).widen tys.1,
      (infer_recorded henv right hr).widen tys.1⟩
  | .step s x, e', h => by
    have hleast := infer_isLeastType henv h
    obtain ⟨v, hv, hn, rfl⟩ := infer_step_eq_ok.mp h
    exact ⟨hleast, rfl⟩
  | .negate pos e, e', h => by
    have hleast := infer_isLeastType henv h
    obtain ⟨inner, hinner, hn, rfl⟩ := infer_negate_eq_ok.mp h
    exact ⟨hleast, (infer_recorded henv e hinner).uncast⟩
  | .paren e, e', h => by
    have hleast := infer_isLeastType henv h
    simp only [infer] at h
    exact ⟨hleast, infer_recorded henv e h⟩

theorem inferArgs_recorded (henv : env.Knows funs Γ) :
    ∀ (es : List Surface.Expr) (tys : List Ty) {es' : List Expr}, es.length = tys.length →
      inferArgs env es tys = .ok es' → ArgsRecorded funs Γ es es'
  | [], [], es', _, h => by
    simp only [inferArgs, pure_eq_ok] at h
    subst h
    exact trivial
  | e :: es, ty :: tys, es', hlen, h => by
    obtain ⟨arg, rest, harg, hc, hrest, rfl⟩ := inferArgs_cons_eq_ok.mp h
    exact ⟨(infer_recorded henv e harg).widen ty,
      inferArgs_recorded henv es tys (by simpa using hlen) hrest⟩

end

end Core

end MiniC
