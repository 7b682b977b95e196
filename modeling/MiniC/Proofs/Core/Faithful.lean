import Mathlib.Data.List.Nodup
import MiniC.Proofs.Core.Decision
import MiniC.Proofs.Core.Occurrences

/-!
# Checking is faithful

What the checker gives says the same as what it was given, and every expression of it is what it
should be where it stands. The scopes of the environment are followed along the tree: at every point
they hold the declarations that are visible there, in the same order.
-/

namespace MiniC

open MiniC.Core (FunctionTypes VarDecl Visible)

/-! ## Environments and visible declarations -/

namespace Core

/-- The declaration as a scope holds it. -/
def VarDecl.entry (d : VarDecl) : String × Variable := (d.name, ⟨d.id, d.ty⟩)

end Core

namespace Environment

/-- The environment knows the functions `funs`, and its scopes hold the visible declarations, each
with the `name` of its variable. -/
structure Sees (env : Environment) (funs : FunctionTypes) (name : VarId → String) (Γ : Visible) :
    Prop where
  functions : (env.functions.lookup ·) = funs
  scopes : env.scopes = Γ.map (List.map VarDecl.entry)
  distinct : ∀ scope ∈ Γ, (scope.map VarDecl.name).Nodup
  names : ∀ scope ∈ Γ, ∀ d ∈ scope, name d.id = d.name
  noVoid : ∀ scope ∈ Γ, ∀ d ∈ scope, d.ty ≠ .void

variable {env env' : Environment} {funs : FunctionTypes} {name : VarId → String} {Γ : Visible}

theorem sees_enterFunction (h : (env.functions.lookup ·) = funs) :
    env.enterFunction.Sees funs name [[]] where
  functions := h
  scopes := rfl
  distinct := by simp
  names := by simp
  noVoid := by simp

theorem Sees.pushScope (h : env.Sees funs name Γ) : env.pushScope.Sees funs name ([] :: Γ) where
  functions := h.functions
  scopes := congrArg (List.cons []) h.scopes
  distinct := List.forall_mem_cons.mpr ⟨List.nodup_nil, h.distinct⟩
  names := List.forall_mem_cons.mpr ⟨by simp, h.names⟩
  noVoid := List.forall_mem_cons.mpr ⟨by simp, h.noVoid⟩

/-- Closing a scope gives back what was seen outside. -/
theorem Sees.popScope {Γ' : Visible} (h : env.Sees funs name Γ') (htail : Γ'.tail = Γ) :
    env.popScope.Sees funs name Γ where
  functions := h.functions
  scopes := by
    rw [← htail, List.map_tail, ← h.scopes]
    rfl
  distinct := fun scope hscope => h.distinct scope (List.mem_of_mem_tail (htail ▸ hscope))
  names := fun scope hscope => h.names scope (List.mem_of_mem_tail (htail ▸ hscope))
  noVoid := fun scope hscope => h.noVoid scope (List.mem_of_mem_tail (htail ▸ hscope))

/-- What a scope answers is declared in it. -/
theorem lookup_entries_eq_some {scope : List VarDecl} {x : String} {v : Variable}
    (h : (scope.map VarDecl.entry).lookup x = some v) : (⟨v.id, x, v.ty⟩ : VarDecl) ∈ scope := by
  obtain ⟨d, hd, heq⟩ := List.mem_map.mp (mem_of_lookup h)
  cases heq
  exact hd

theorem lookup_entries_eq_none {scope : List VarDecl} {x : String} :
    (scope.map VarDecl.entry).lookup x = none ↔ ∀ d ∈ scope, d.name ≠ x := by
  rw [List.lookup_eq_none_iff]
  simp [VarDecl.entry, @eq_comm _ x]

/-- Looking a name up from the inside finds its innermost declaration. -/
theorem innermost_of_findSome? {x : String} {v : Variable}
    (hdistinct : ∀ scope ∈ Γ, (scope.map VarDecl.name).Nodup)
    (h : (Γ.map (List.map VarDecl.entry)).findSome? (·.lookup x) = some v) :
    Γ.Innermost ⟨v.id, x, v.ty⟩ := by
  induction Γ with
  | nil => cases h
  | cons scope Γ ih =>
    rw [List.map_cons, List.findSome?_cons] at h
    split at h
    · next w hw =>
      cases h
      have hmem := lookup_entries_eq_some hw
      refine ⟨[], scope, Γ, rfl, by simp, hmem, fun e he heq => ?_⟩
      exact List.inj_on_of_nodup_map (hdistinct scope (by simp)) he hmem heq
    · next hnone =>
      obtain ⟨inner, found, outer, rfl, hinner, hfound⟩ :=
        ih (fun s hs => hdistinct s (by simp [hs])) h
      refine ⟨scope :: inner, found, outer, rfl, ?_, hfound⟩
      exact List.forall_mem_cons.mpr ⟨lookup_entries_eq_none.mp hnone, hinner⟩

/-- A resolved name is the name of its variable, and its declaration is the innermost one. -/
theorem Sees.resolve (h : env.Sees funs name Γ) {x : String} {v : Variable}
    (hr : env.resolve x = .ok v) :
    name v.id = x ∧ Γ.Innermost ⟨v.id, name v.id, v.ty⟩ ∧ v.ty ≠ .void := by
  have hfind := resolve_eq_ok.mp hr
  rw [h.scopes] at hfind
  have hinnermost := innermost_of_findSome? h.distinct hfind
  obtain ⟨inner, scope, outer, hΓ, -, hmem, -⟩ := hinnermost
  have hscope : scope ∈ Γ := by simp [hΓ]
  have hname : name v.id = x := h.names scope hscope _ hmem
  rw [hname]
  exact ⟨rfl, innermost_of_findSome? h.distinct hfind, h.noVoid scope hscope _ hmem⟩

/-- A declared variable is seen under its own name. -/
theorem Sees.declare (h : env.Sees funs name Γ) {ty : Ty} {x : String} {v : VarId}
    (hd : env.declare ty x = (.ok v, env')) (hname : name v = x) :
    env'.Sees funs name (Γ.declare ⟨v, x, ty⟩) := by
  obtain ⟨hty, scope, outer, hscopes, hnone, rfl, rfl⟩ := declare_eq_ok.mp hd
  cases Γ with
  | nil =>
    rw [h.scopes] at hscopes
    cases hscopes
  | cons decls Γ =>
    rw [h.scopes, List.map_cons] at hscopes
    obtain ⟨rfl, rfl⟩ := List.cons.inj hscopes
    obtain ⟨hdistinct, hdistincts⟩ := List.forall_mem_cons.mp h.distinct
    obtain ⟨hnames, hnamess⟩ := List.forall_mem_cons.mp h.names
    obtain ⟨hnoVoid, hnoVoids⟩ := List.forall_mem_cons.mp h.noVoid
    refine ⟨h.functions, rfl, ?_, ?_, ?_⟩
    · refine List.forall_mem_cons.mpr ⟨List.nodup_cons.mpr ⟨?_, hdistinct⟩, hdistincts⟩
      intro hmem
      obtain ⟨d, hd, heq⟩ := List.mem_map.mp hmem
      exact lookup_entries_eq_none.mp hnone d hd heq
    · exact List.forall_mem_cons.mpr ⟨List.forall_mem_cons.mpr ⟨hname, hnames⟩, hnamess⟩
    · exact List.forall_mem_cons.mpr ⟨List.forall_mem_cons.mpr ⟨hty, hnoVoid⟩, hnoVoids⟩

end Environment

/-- No operator takes void operands. -/
theorem BinaryOp.Typed.ne_void {op : BinaryOp} {operandTy ty : Ty} (h : op.Typed operandTy ty) :
    operandTy ≠ .void := by
  rintro rfl
  cases h with
  | arithmetic _ hn => cases hn
  | relational _ hn => rcases hn with hn | hn <;> cases hn

namespace Core

/-! ## Expressions -/

variable {env env' : Environment} {funs : FunctionTypes} {name : VarId → String} {result : Ty}
  {Γ : Visible}

/-- No function takes a `void`. -/
def NoVoidParams (funs : FunctionTypes) : Prop := ∀ f s, funs f = some s → .void ∉ s.params

/-- What inference gives: all but the place of the expression itself is known to be right. -/
structure Elaborated (funs : FunctionTypes) (name : VarId → String) (result : Ty) (Γ : Visible)
    (e : Surface.Expr) (e' : Expr) : Prop where
  outline : e'.outline name = e.outline
  plain : e'.isCast = false
  reference : ∀ v ty, e'.reference? = some (v, ty) → Γ.Innermost ⟨v, name v, ty⟩
  call : ∀ f args ty, e' = .call f args ty →
    ∃ s, funs f = some s ∧ args.length = s.arity ∧ ty = s.ret
  parts : ∀ o ∈ e'.parts Γ, o.Faithful funs name result

section Places

variable {e : Surface.Expr} {e' : Expr} {place : Place} {target : Ty}

/-- An expression as it was inferred, in a place for its type. -/
theorem Elaborated.occurrences (h : Elaborated funs name result Γ e e')
    (htakes : place.Takes funs result e'.ty)
    (hvoid : e'.ty = .void → place = .statement ∨ place = .forHead) :
    ∀ o ∈ e'.occurrences Γ place, o.Faithful funs name result := by
  refine List.forall_mem_cons.mpr ⟨⟨h.reference, h.call, ?_, htakes, hvoid⟩, h.parts⟩
  rintro target inner rfl
  cases h.plain

/-- Widening does not show in the outline. -/
theorem Expr.outline_widen (e : Expr) : (e.widen target).outline name = e.outline name := by
  unfold Expr.widen
  split <;> rfl

theorem Expr.isCast_widen (h : e'.isCast = false) (hty : e'.ty = target) :
    (e'.widen target).isCast = false := by
  rw [Expr.widen, if_pos hty]
  exact h

/-- An expression in a place for a type that it converts to. -/
theorem Elaborated.widen (h : Elaborated funs name result Γ e e')
    (hc : e'.ty.convertsTo target = true) (hplace : e'.ty ≠ target → place.AdmitsCast)
    (htakes : place.Takes funs result target) (hvoid : target ≠ .void) :
    ∀ o ∈ (e'.widen target).occurrences Γ place, o.Faithful funs name result := by
  unfold Expr.widen
  split
  · next heq => exact h.occurrences (heq ▸ htakes) fun hty => absurd (heq.symm.trans hty) hvoid
  · next hne =>
    rcases convertsTo_iff.mp hc with heq | ⟨hint, rfl⟩
    · exact absurd heq hne
    · have hinner : ∀ o ∈ e'.occurrences Γ .widened, o.Faithful funs name result :=
        h.occurrences trivial fun hty => absurd (hint.symm.trans hty) nofun
      refine List.forall_mem_cons.mpr ⟨⟨nofun, nofun, ?_, htakes, nofun⟩, hinner⟩
      rintro target inner heq
      cases heq
      exact ⟨rfl, hint, h.plain, hplace hne⟩

end Places

/-- An operator takes the type of one of its operands for both. -/
theorem operatorTypes_operand {op : Located BinaryOp} {leftPos rightPos : Pos} {left right : Ty}
    {tys : Ty × Ty} (h : operatorTypes op leftPos rightPos left right = .ok tys) :
    left = tys.1 ∨ right = tys.1 := by
  have hcommon : left = left.common right ∨ right = left.common right := by
    cases left <;> cases right <;> decide
  unfold operatorTypes at h
  split_ifs at h with _ _ _ _ _ hbool _ hbool
  · cases h
  · cases h
  · cases h
    exact hcommon
  · cases h
    exact hcommon
  · cases h
    rw [Bool.and_eq_true, decide_eq_true_eq] at hbool
    exact .inl hbool.1
  · cases h
  · cases h
    rw [Bool.and_eq_true, decide_eq_true_eq] at hbool
    exact .inl hbool.1
  · cases h

/-- A cast operand has no cast beside it, and belongs to an operator that widens. -/
theorem admitsCast_operand {op : Located BinaryOp} {ty operandTy otherTy : Ty} {other : Expr}
    (hop : op.value.Typed operandTy ty) (hc : otherTy.convertsTo operandTy = true)
    (hne : otherTy ≠ operandTy) (hty : other.ty = operandTy) (hplain : other.isCast = false) :
    (Place.operand op.value operandTy (other.widen operandTy)).AdmitsCast := by
  refine ⟨?_, Expr.isCast_widen hplain hty⟩
  cases hop with
  | arithmetic h _ => exact .inl h
  | relational h _ => exact .inr h
  | logical _ =>
    rcases convertsTo_iff.mp hc with heq | ⟨-, heq⟩
    · exact absurd heq hne
    · cases heq

mutual

/-- An accepted expression is elaborated from its source, by induction on the source. -/
theorem infer_elaborated (henv : env.Sees funs name Γ) (hfuns : NoVoidParams funs) :
    ∀ (e : Surface.Expr) {e' : Expr}, infer env e = .ok e' →
      Elaborated funs name result Γ e e'
  | .const c, e', h => by
    simp only [infer, pure_eq_ok] at h
    subst h
    exact ⟨rfl, rfl, nofun, nofun, nofun⟩
  | .var x, e', h => by
    obtain ⟨v, hv, rfl⟩ := infer_var_eq_ok.mp h
    obtain ⟨hname, hinnermost, -⟩ := henv.resolve hv
    refine ⟨congrArg Outline.Expr.var hname, rfl, ?_, nofun, nofun⟩
    rintro _ _ ⟨⟩
    exact hinnermost
  | .assign x e, e', h => by
    obtain ⟨v, src, hv, hsrc, hc, rfl⟩ := infer_assign_eq_ok.mp h
    obtain ⟨hname, hinnermost, hvoid⟩ := henv.resolve hv
    have helaborated := infer_elaborated henv hfuns e hsrc
    refine ⟨?_, rfl, ?_, nofun, helaborated.widen hc (fun _ => trivial) rfl hvoid⟩
    · rw [Expr.outline, Surface.Expr.outline, hname, src.outline_widen, helaborated.outline]
    · rintro _ _ ⟨⟩
      exact hinnermost
  | .call f args, e', h => by
    obtain ⟨s, args', hs, harity, hargs, rfl⟩ := infer_call_eq_ok.mp h
    have hf : funs f.value = some s := by
      rw [← henv.functions]
      exact Environment.lookupFunction_eq_ok.mp hs
    obtain ⟨houtline, hlen, hparts⟩ :=
      inferArgs_elaborated henv hfuns hf args (List.drop_zero).symm harity hargs
    refine ⟨?_, rfl, nofun, ?_, hparts⟩
    · rw [Expr.outline, Surface.Expr.outline, houtline]
    · rintro _ _ _ ⟨⟩
      exact ⟨s, hf, hlen.trans harity, rfl⟩
  | .binary op left right, e', h => by
    obtain ⟨l, r, tys, hl, hr, htys, rfl⟩ := infer_binary_eq_ok.mp h
    obtain ⟨hop, hcl, hcr⟩ := operatorTypes_typed htys
    have hleft := infer_elaborated henv hfuns left hl
    have hright := infer_elaborated henv hfuns right hr
    -- one operand has the common type already, so at most the other one is cast
    have hone := operatorTypes_operand htys
    have hlefts := hleft.widen hcl (fun hne => admitsCast_operand hop hcl hne
      (hone.resolve_left hne) hright.plain) rfl hop.ne_void
    have hrights := hright.widen hcr (fun hne => admitsCast_operand hop hcr hne
      (hone.resolve_right hne) hleft.plain) rfl hop.ne_void
    refine ⟨?_, rfl, nofun, nofun, ?_⟩
    · rw [Expr.outline, Surface.Expr.outline, l.outline_widen, r.outline_widen, hleft.outline,
        hright.outline]
    · exact List.forall_mem_append.mpr ⟨hlefts, hrights⟩
  | .step s x, e', h => by
    obtain ⟨v, hv, -, rfl⟩ := infer_step_eq_ok.mp h
    obtain ⟨hname, hinnermost, -⟩ := henv.resolve hv
    refine ⟨congrArg (Outline.Expr.step s) hname, rfl, ?_, nofun, nofun⟩
    rintro _ _ ⟨⟩
    exact hinnermost
  | .negate pos e, e', h => by
    obtain ⟨inner, hinner, hn, rfl⟩ := infer_negate_eq_ok.mp h
    have helaborated := infer_elaborated henv hfuns e hinner
    refine ⟨?_, rfl, nofun, nofun, helaborated.occurrences trivial fun hty => ?_⟩
    · rw [Expr.outline, Surface.Expr.outline, helaborated.outline]
    · rw [hty] at hn
      cases hn
  | .paren e, e', h => by
    simp only [infer] at h
    obtain ⟨houtline, hplain, hreference, hcall, hparts⟩ := infer_elaborated henv hfuns e h
    exact ⟨houtline, hplain, hreference, hcall, hparts⟩

/-- The arguments from the `i`-th on, for the parameters from the `i`-th on. -/
theorem inferArgs_elaborated (henv : env.Sees funs name Γ) (hfuns : NoVoidParams funs)
    {f : String} {s : Signature} (hf : funs f = some s) :
    ∀ (es : List Surface.Expr) {tys : List Ty} {i : Nat} {es' : List Expr}, tys = s.params.drop i →
      es.length = tys.length → inferArgs env es tys = .ok es' →
      outlineArgs name es' = Surface.outlineArgs es ∧ es'.length = es.length ∧
        ∀ o ∈ argOccurrences Γ f i es', o.Faithful funs name result
  | [], [], i, es', _, _, h => by
    simp only [inferArgs, pure_eq_ok] at h
    subst h
    exact ⟨rfl, rfl, nofun⟩
  | e :: es, ty :: tys, i, es', htys, hlen, h => by
    obtain ⟨arg, rest, harg, hc, hrest, rfl⟩ := inferArgs_cons_eq_ok.mp h
    have helaborated := infer_elaborated henv hfuns e harg
    have hty : s.params[i]? = some ty := by
      rw [← List.head?_drop, ← htys, List.head?_cons]
    have hvoid : ty ≠ .void := by
      rintro rfl
      exact hfuns f s hf (List.mem_of_getElem? hty)
    have htail : tys = s.params.drop (i + 1) := by
      rw [← List.tail_drop, ← htys, List.tail_cons]
    obtain ⟨houtline, hlength, hparts⟩ :=
      inferArgs_elaborated henv hfuns hf es htail (by simpa using hlen) hrest
    refine ⟨?_, by rw [List.length_cons, List.length_cons, hlength], ?_⟩
    · rw [outlineArgs, Surface.outlineArgs, arg.outline_widen, helaborated.outline, houtline]
    · exact List.forall_mem_append.mpr
        ⟨helaborated.widen hc (fun _ => trivial) ⟨s, hf, hty⟩ hvoid, hparts⟩

end

/-! ## Statements -/

/-- `e'` says what `e` says, and all of it is right in the place where it stands. -/
structure FaithfulAt (funs : FunctionTypes) (name : VarId → String) (result : Ty) (Γ : Visible)
    (place : Place) (e : Surface.Expr) (e' : Expr) : Prop where
  outline : e'.outline name = e.outline
  occurrences : ∀ o ∈ e'.occurrences Γ place, o.Faithful funs name result

section Places

variable {place : Place} {e : Surface.Expr} {e' : Expr}

theorem infer_faithfulAt (henv : env.Sees funs name Γ) (hfuns : NoVoidParams funs)
    (h : infer env e = .ok e') (hplace : place = .statement ∨ place = .forHead) :
    FaithfulAt funs name result Γ place e e' := by
  have helaborated : Elaborated funs name result Γ e e' := infer_elaborated henv hfuns e h
  refine ⟨helaborated.outline, helaborated.occurrences ?_ fun _ => hplace⟩
  rcases hplace with rfl | rfl <;> trivial

/-- An expression accepted at a type is faithful at a place that takes the type. -/
theorem checkExpr_faithfulAt (henv : env.Sees funs name Γ) (hfuns : NoVoidParams funs) {ty : Ty}
    (h : checkExpr env ty e = .ok e') (hplace : ty = .double → place.AdmitsCast)
    (htakes : place.Takes funs result ty) (hvoid : ty ≠ .void) :
    FaithfulAt funs name result Γ place e e' := by
  obtain ⟨inner, hinner, hc, rfl⟩ := checkExpr_eq_ok.mp h
  have helaborated : Elaborated funs name result Γ e inner := infer_elaborated henv hfuns e hinner
  refine ⟨inner.outline_widen.trans helaborated.outline, ?_⟩
  refine helaborated.widen hc (fun hne => ?_) htakes hvoid
  rcases convertsTo_iff.mp hc with heq | ⟨-, hdouble⟩
  · exact absurd heq hne
  · exact hplace hdouble

theorem condition_faithfulAt (henv : env.Sees funs name Γ) (hfuns : NoVoidParams funs)
    (h : checkExpr env .bool e = .ok e') :
    FaithfulAt funs name result Γ .condition e e' :=
  checkExpr_faithfulAt henv hfuns h nofun rfl nofun

theorem optionally_faithful {check : Surface.Expr → Checked Expr} {e : Option Surface.Expr}
    {e' : Option Expr}
    (hcheck : ∀ x x', check x = .ok x' → FaithfulAt funs name result Γ place x x')
    (h : optionally check e = .ok e') :
    e'.map (Expr.outline name) = e.map Surface.Expr.outline ∧
      ∀ o ∈ optionalOccurrences Γ place e', o.Faithful funs name result := by
  cases e with
  | none =>
    simp only [optionally, pure_eq_ok] at h
    subst h
    exact ⟨rfl, List.forall_mem_nil _⟩
  | some x =>
    simp only [optionally, bind_eq_ok, pure_eq_ok] at h
    obtain ⟨x', hx, rfl⟩ := h
    have hfaithful := hcheck x x' hx
    exact ⟨congrArg some hfaithful.outline, hfaithful.occurrences⟩

end Places

theorem checkReturn_faithful (henv : env.Sees funs name Γ) (hfuns : NoVoidParams funs)
    {pos : Pos} {value : Option Surface.Expr} {s' : Stmt}
    (h : checkReturn env result pos value = .ok s') :
    s'.outline name = (Surface.Stmt.ret pos value).outline ∧
      (∀ o ∈ s'.occurrences Γ, o.Faithful funs name result) ∧ Γ.after s' = Γ := by
  cases value with
  | none =>
    obtain ⟨-, rfl⟩ := checkReturn_none_eq_ok.mp h
    exact ⟨rfl, nofun, rfl⟩
  | some e =>
    obtain ⟨hvoid, e', he, rfl⟩ := checkReturn_some_eq_ok.mp h
    have hfaithful : FaithfulAt funs name result Γ .returned e e' :=
      checkExpr_faithfulAt henv hfuns he (fun _ => trivial) rfl hvoid
    refine ⟨?_, hfaithful.occurrences, rfl⟩
    rw [Stmt.outline, Surface.Stmt.outline, Option.map_some, Option.map_some, hfaithful.outline]

theorem declareVar_sees (henv : env.Sees funs name Γ) {ty : Ty} {x : Name} {v : VarDecl}
    (h : declareVar env ty x = .ok (v, env')) (hname : name v.id = v.name) :
    ty ≠ .void ∧ v.ty = ty ∧ v.name = x.value ∧ env'.Sees funs name (Γ.declare v) := by
  obtain ⟨id, hd, rfl⟩ := declareVar_eq_ok.mp h
  exact ⟨(Environment.declare_eq_ok.mp hd).1, rfl, rfl, henv.declare hd hname⟩

/-- Declared variables are seen under their own names, in the order of their declarations. -/
theorem declareAll_sees {xs : List (Ty × Name)} :
    ∀ {env env' : Environment} {Γ : Visible} {vs : List VarDecl},
      env.Sees funs name Γ → declareAll env xs = .ok (vs, env') →
      (∀ v ∈ vs, name v.id = v.name) →
      vs.map (fun v => (v.ty, v.name)) = xs.map (fun x => (x.1, x.2.value)) ∧
        env'.Sees funs name (Γ.declareAll vs) := by
  induction xs with
  | nil =>
    intro env env' Γ vs henv h _
    simp only [declareAll, pure_eq_ok, Prod.mk.injEq] at h
    obtain ⟨rfl, rfl⟩ := h
    exact ⟨rfl, henv⟩
  | cons x xs ih =>
    intro env env' Γ vs henv h hnames
    obtain ⟨ty, x⟩ := x
    simp only [declareAll, bind_eq_ok, pure_eq_ok, Prod.mk.injEq] at h
    obtain ⟨⟨v, env₁⟩, hv, ⟨ws, env₂⟩, hws, rfl, rfl⟩ := h
    obtain ⟨hname, hnames⟩ := List.forall_mem_cons.mp hnames
    obtain ⟨-, hty, hx, henv₁⟩ := declareVar_sees henv hv hname
    obtain ⟨hmap, henv₂⟩ := ih henv₁ hws hnames
    exact ⟨by rw [List.map_cons, List.map_cons, hty, hx, hmap], henv₂⟩

mutual

/-- Names are asked for only of what the statement declares; `Γ` has those of the declarations in
front of it. -/
theorem checkStmt_faithful (hfuns : NoVoidParams funs) :
    ∀ (s : Surface.Stmt) {env env' : Environment} {Γ : Visible} {s' : Stmt},
      env.Sees funs name Γ → checkStmt result env s = .ok (s', env') →
      (∀ v ∈ s'.declared, name v.id = v.name) →
      s'.outline name = s.outline ∧ (∀ o ∈ s'.occurrences Γ, o.Faithful funs name result) ∧
        env'.Sees funs name (Γ.after s')
  | .declare ty xs, env, env', Γ, s', henv, h, hnames => by
    simp only [checkStmt, bind_eq_ok, pure_eq_ok, Prod.mk.injEq] at h
    obtain ⟨⟨vs, env₁⟩, hvs, rfl, rfl⟩ := h
    obtain ⟨hmap, henv₁⟩ := declareAll_sees henv hvs hnames
    refine ⟨?_, nofun, henv₁⟩
    rw [Stmt.outline, Surface.Stmt.outline, hmap, List.map_map]
    rfl
  | .init ty x e, env, env', Γ, s', henv, h, hnames => by
    simp only [checkStmt, bind_eq_ok, pure_eq_ok, Prod.mk.injEq] at h
    obtain ⟨e', he, ⟨v, env₁⟩, hv, rfl, rfl⟩ := h
    obtain ⟨hvoid, hty, hx, henv₁⟩ :=
      declareVar_sees henv hv (hnames v (List.mem_singleton_self v))
    have hfaithful : FaithfulAt funs name result Γ (.initialiser v) e e' :=
      checkExpr_faithfulAt henv hfuns he (fun _ => trivial) hty.symm hvoid
    refine ⟨?_, hfaithful.occurrences, henv₁⟩
    rw [Stmt.outline, Surface.Stmt.outline, hty, hx, hfaithful.outline]
  | .expr e, env, env', Γ, s', henv, h, _ => by
    simp only [checkStmt, bind_eq_ok, pure_eq_ok, Prod.mk.injEq] at h
    obtain ⟨e', he, rfl, rfl⟩ := h
    obtain ⟨houtline, hfaithful⟩ := infer_faithfulAt henv hfuns he (.inl rfl)
    exact ⟨congrArg Outline.Stmt.expr houtline, hfaithful, henv⟩
  | .ret pos value, env, env', Γ, s', henv, h, _ => by
    simp only [checkStmt, bind_eq_ok, pure_eq_ok, Prod.mk.injEq] at h
    obtain ⟨r, hr, rfl, rfl⟩ := h
    obtain ⟨houtline, hfaithful, hafter⟩ := checkReturn_faithful henv hfuns hr
    exact ⟨houtline, hfaithful, hafter.symm ▸ henv⟩
  | .block body, env, env', Γ, s', henv, h, hnames => by
    simp only [checkStmt, bind_eq_ok, pure_eq_ok, Prod.mk.injEq] at h
    obtain ⟨⟨body', env₁⟩, hbody, rfl, rfl⟩ := h
    obtain ⟨houtline, hfaithful, Γ', htail, henv₁⟩ :=
      checkStmts_faithful hfuns body henv.pushScope hbody hnames
    exact ⟨congrArg Outline.Stmt.block houtline, hfaithful, henv₁.popScope htail⟩
  | .whileLoop c body, env, env', Γ, s', henv, h, hnames => by
    simp only [checkStmt, bind_eq_ok, pure_eq_ok, Prod.mk.injEq] at h
    obtain ⟨c', hc, ⟨body', env₁⟩, hbody, rfl, rfl⟩ := h
    obtain ⟨hcoutline, hcfaithful⟩ := condition_faithfulAt henv hfuns hc
    obtain ⟨houtline, hfaithful, henv₁⟩ := checkStmt_faithful hfuns body henv.pushScope hbody hnames
    refine ⟨?_, List.forall_mem_append.mpr ⟨hcfaithful, hfaithful⟩,
      henv₁.popScope (ScopeStack.tail_declareAll _ _)⟩
    rw [Stmt.outline, Surface.Stmt.outline, hcoutline, houtline]
  | .forLoop init c step body, env, env', Γ, s', henv, h, hnames => by
    simp only [checkStmt, bind_eq_ok, pure_eq_ok, Prod.mk.injEq] at h
    obtain ⟨init', hinit, c', hc, step', hstep, ⟨body', env₁⟩, hbody, rfl, rfl⟩ := h
    obtain ⟨hioutline, hifaithful⟩ :=
      optionally_faithful (fun _ _ he => infer_faithfulAt henv hfuns he (.inr rfl)) hinit
    obtain ⟨hcoutline, hcfaithful⟩ :=
      optionally_faithful (fun _ _ he => condition_faithfulAt henv hfuns he) hc
    obtain ⟨hsoutline, hsfaithful⟩ :=
      optionally_faithful (fun _ _ he => infer_faithfulAt henv hfuns he (.inr rfl)) hstep
    obtain ⟨houtline, hfaithful, henv₁⟩ := checkStmt_faithful hfuns body henv.pushScope hbody hnames
    refine ⟨?_, ?_, henv₁.popScope (ScopeStack.tail_declareAll _ _)⟩
    · rw [Stmt.outline, Surface.Stmt.outline, hioutline, hcoutline, hsoutline, houtline]
    · simp only [Stmt.occurrences, List.forall_mem_append]
      exact ⟨⟨⟨hifaithful, hcfaithful⟩, hsfaithful⟩, hfaithful⟩
  | .ifThen c thenBranch, env, env', Γ, s', henv, h, hnames => by
    simp only [checkStmt, bind_eq_ok, pure_eq_ok, Prod.mk.injEq] at h
    obtain ⟨c', hc, ⟨then', env₁⟩, hthen, rfl, rfl⟩ := h
    obtain ⟨hcoutline, hcfaithful⟩ := condition_faithfulAt henv hfuns hc
    obtain ⟨houtline, hfaithful, henv₁⟩ :=
      checkStmt_faithful hfuns thenBranch henv.pushScope hthen hnames
    refine ⟨?_, List.forall_mem_append.mpr ⟨hcfaithful, hfaithful⟩,
      henv₁.popScope (ScopeStack.tail_declareAll _ _)⟩
    rw [Stmt.outline, Surface.Stmt.outline, hcoutline, houtline]
  | .ifElse c thenBranch elseBranch, env, env', Γ, s', henv, h, hnames => by
    simp only [checkStmt, bind_eq_ok, pure_eq_ok, Prod.mk.injEq] at h
    obtain ⟨c', hc, ⟨then', env₁⟩, hthen, ⟨else', env₂⟩, helse, rfl, rfl⟩ := h
    obtain ⟨hthenNames, helseNames⟩ := List.forall_mem_append.mp hnames
    obtain ⟨hcoutline, hcfaithful⟩ := condition_faithfulAt henv hfuns hc
    obtain ⟨htoutline, htfaithful, henv₁⟩ :=
      checkStmt_faithful hfuns thenBranch henv.pushScope hthen hthenNames
    -- the second branch sees what the first one saw
    have hback := henv₁.popScope (ScopeStack.tail_declareAll _ _)
    obtain ⟨heoutline, hefaithful, henv₂⟩ :=
      checkStmt_faithful hfuns elseBranch hback.pushScope helse helseNames
    refine ⟨?_, ?_, henv₂.popScope (ScopeStack.tail_declareAll _ _)⟩
    · rw [Stmt.outline, Surface.Stmt.outline, hcoutline, htoutline, heoutline]
    · simp only [Stmt.occurrences, List.forall_mem_append]
      exact ⟨⟨hcfaithful, htfaithful⟩, hefaithful⟩

/-- The same for a block, whose statements see what the ones before them declare. -/
theorem checkStmts_faithful (hfuns : NoVoidParams funs) :
    ∀ (ss : List Surface.Stmt) {env env' : Environment} {Γ : Visible} {ss' : List Stmt},
      env.Sees funs name Γ → checkStmts result env ss = .ok (ss', env') →
      (∀ v ∈ declaredIn ss', name v.id = v.name) →
      outlineBlock name ss' = Surface.outlineBlock ss ∧
        (∀ o ∈ blockOccurrences Γ ss', o.Faithful funs name result) ∧
        ∃ Γ' : Visible, Γ'.tail = Γ.tail ∧ env'.Sees funs name Γ'
  | [], env, env', Γ, ss', henv, h, _ => by
    simp only [checkStmts, pure_eq_ok, Prod.mk.injEq] at h
    obtain ⟨rfl, rfl⟩ := h
    exact ⟨rfl, nofun, Γ, rfl, henv⟩
  | s :: ss, env, env', Γ, ss', henv, h, hnames => by
    simp only [checkStmts, bind_eq_ok, pure_eq_ok, Prod.mk.injEq] at h
    obtain ⟨⟨s', env₁⟩, hs, ⟨rest, env₂⟩, hss, rfl, rfl⟩ := h
    obtain ⟨hsNames, hrestNames⟩ := List.forall_mem_append.mp hnames
    obtain ⟨houtline, hfaithful, henv₁⟩ := checkStmt_faithful hfuns s henv hs hsNames
    obtain ⟨houtlines, hfaithfuls, Γ', htail, henv₂⟩ :=
      checkStmts_faithful hfuns ss henv₁ hss hrestNames
    refine ⟨?_, List.forall_mem_append.mpr ⟨hfaithful, hfaithfuls⟩, Γ',
      htail.trans (ScopeStack.tail_declareAll _ _), henv₂⟩
    rw [outlineBlock, Surface.outlineBlock, houtline, houtlines]

end

/-! ## Functions and programs -/

theorem Function.WellTyped.newVars {f : Function} (h : f.WellTyped funs) : NewVars [] f.vars :=
  h.params.append (BlockWellTyped.newVars f.body h.body)

/-- The variables of a function are numbered from zero on. -/
theorem Function.WellTyped.numbers {f : Function} (h : f.WellTyped funs) :
    f.vars.map (fun v => v.id.index) = List.range f.vars.length := by
  rw [h.newVars.1, List.range_eq_range']
  rfl

/-- No number is given twice, so that a variable goes by the name of its declaration. -/
theorem Function.WellTyped.nameOf {f : Function} (h : f.WellTyped funs) :
    ∀ v ∈ f.vars, f.nameOf v.id = v.name := by
  intro v hv
  have hnodup : (f.vars.map fun v => v.id.index).Nodup := by
    rw [h.numbers]
    exact List.nodup_range
  obtain ⟨d, hd⟩ : ∃ d, f.vars.find? (fun d => d.id = v.id) = some d :=
    Option.isSome_iff_exists.mp (List.find?_isSome.mpr ⟨v, hv, decide_eq_true rfl⟩)
  have hid : d.id = v.id := by simpa using List.find?_some hd
  have heq : d = v := List.inj_on_of_nodup_map hnodup (List.mem_of_find?_eq_some hd) hv
    (congrArg VarId.index hid)
  rw [Function.nameOf, hd, Option.map_some, Option.getD_some, heq]

/-- An accepted function has the outline of its source and is faithful throughout. -/
theorem checkFunction_faithful (hlookup : (env.functions.lookup ·) = funs)
    (hfuns : NoVoidParams funs) {f : Surface.Function} {f' : Function}
    (hf : f'.WellTyped funs) (hsig : f'.signature = f.signature)
    (h : checkFunction env f = .ok f') : f'.outline = f.outline ∧ f'.Faithful funs := by
  have hnames := List.forall_mem_append.mp hf.nameOf
  have hnumbers := hf.numbers
  have hparamTypes := hf.signature
  simp only [checkFunction, bind_eq_ok, named_eq_ok, pure_eq_ok] at h
  obtain ⟨⟨params, env₁⟩, hparams, ⟨body, env₂⟩, hbody, s, hs, rfl⟩ := h
  obtain ⟨hmap, henv₁⟩ :=
    declareAll_sees (Environment.sees_enterFunction hlookup) hparams hnames.1
  obtain ⟨houtline, hfaithful, -⟩ := checkStmts_faithful hfuns f.body henv₁ hbody hnames.2
  have hret : s.ret = f.ret := congrArg Signature.ret hsig
  refine ⟨?_, hnumbers, hparamTypes.symm, ?_⟩
  · rw [Function.outline, Surface.Function.outline, houtline, hmap, List.map_map, hret]
    rfl
  · rw [hret]
    exact hfaithful

/-- The same for all functions, one by one. -/
theorem checkFunctions_faithful (hlookup : (env.functions.lookup ·) = funs)
    (hfuns : NoVoidParams funs) {fs : List Surface.Function} :
    ∀ {fs' : Program}, (∀ f' ∈ fs', f'.WellTyped funs) →
      fs'.map Function.signature = fs.map Surface.Function.signature →
      checkFunctions env fs = .ok fs' →
      fs'.map Function.outline = fs.map Surface.Function.outline ∧
        ∀ f' ∈ fs', f'.Faithful funs := by
  induction fs with
  | nil =>
    intro fs' _ _ h
    simp only [checkFunctions, pure_eq_ok] at h
    subst h
    exact ⟨rfl, List.forall_mem_nil _⟩
  | cons f fs ih =>
    intro fs' hwell hsigs h
    simp only [checkFunctions, bind_eq_ok, pure_eq_ok] at h
    obtain ⟨f', hf, rest, hrest, rfl⟩ := h
    obtain ⟨hwell, hwells⟩ := List.forall_mem_cons.mp hwell
    obtain ⟨hsig, hsigs⟩ := List.cons.inj hsigs
    obtain ⟨houtline, hfaithful⟩ := checkFunction_faithful hlookup hfuns hwell hsig hf
    obtain ⟨houtlines, hfaithfuls⟩ := ih hwells hsigs hrest
    refine ⟨?_, List.forall_mem_cons.mpr ⟨hfaithful, hfaithfuls⟩⟩
    rw [List.map_cons, List.map_cons, houtline, houtlines]

/-- The functions of a program have been checked themselves, the later ones behind the calls to
them. -/
theorem ProgramWellTyped.noVoidParams {t : Program} (h : ProgramWellTyped t) :
    NoVoidParams (functionTypes t) := by
  intro f s hs
  rcases List.mem_append.mp (mem_of_lookup hs) with hbuiltin | hown
  · have hall : ∀ g ∈ Builtin.signatures, .void ∉ g.2.params := by decide
    exact hall _ hbuiltin
  · obtain ⟨g, hg, heq⟩ := List.mem_map.mp hown
    cases heq
    have hwell := h.functions g hg
    rw [← hwell.signature]
    intro hvoid
    obtain ⟨v, hv, hty⟩ := List.mem_map.mp hvoid
    exact hwell.params.2 v hv hty

/-- The functions of an accepted program are checked with the types of all of them at hand. -/
theorem checkProgram_checkFunctions {p : Surface.Program} {t : Program}
    (h : checkProgram p = .ok t) :
    ∃ env : Environment, (env.functions.lookup ·) = functionTypes t ∧
      t.map Function.signature = p.map Surface.Function.signature ∧
      checkFunctions env p = .ok t := by
  obtain ⟨-, hnames, -⟩ := checkProgram_wellTyped h
  simp only [checkProgram_eq, bind_eq_ok] at h
  obtain ⟨env, henv, h⟩ := h
  refine ⟨env, ?_, ?_, ?_⟩
  · rw [(addSignatures_builtin henv).2]
    funext f
    rw [Surface.functionTypes, functionTypes, Surface.functionsOf, functionsOf, hnames]
  · simpa [List.map_map, Function.comp_def] using congrArg (List.map Prod.snd) hnames
  · split at h
    · exact h
    · cases h

/-- A function of an accepted program and what it turns into. -/
theorem faithful_of_mem_zip {p : Surface.Program} {t : Program} (h : checkProgram p = .ok t)
    {f : Surface.Function} {f' : Function} (hf : (f, f') ∈ p.zip t) :
    f'.outline = f.outline ∧ f'.Faithful (functionTypes t) := by
  obtain ⟨hwell, -⟩ := checkProgram_wellTyped h
  obtain ⟨env, hlookup, hsigs, hcheck⟩ := checkProgram_checkFunctions h
  obtain ⟨houtlines, hfaithful⟩ :=
    checkFunctions_faithful hlookup hwell.noVoidParams hwell.functions hsigs hcheck
  refine ⟨?_, hfaithful f' (List.of_mem_zip hf).2⟩
  obtain ⟨i, hi⟩ := List.getElem?_of_mem hf
  obtain ⟨hp, ht⟩ := List.getElem?_zip_eq_some.mp hi
  have heq := congrArg (·[i]?) houtlines
  simpa [List.getElem?_map, hp, ht] using heq

/-- What an accepted program turns into says what the program says, and is faithful: variables are
numbered in order and refer to their innermost declarations, casts stand where they may and make
every type fit its place, and nothing without a value is used for one. -/
theorem checkProgram_faithful {p : Surface.Program} {t : Program} (h : checkProgram p = .ok t) :
    t.map Function.outline = p.map Surface.Function.outline ∧
      ∀ f ∈ t, f.Faithful (functionTypes t) := by
  obtain ⟨hwell, -⟩ := checkProgram_wellTyped h
  obtain ⟨env, hlookup, hsigs, hcheck⟩ := checkProgram_checkFunctions h
  exact checkFunctions_faithful hlookup hwell.noVoidParams hwell.functions hsigs hcheck

/-- Halves a number, while another variable has its name. -/
def halving : Surface.Program := [
  ⟨.void, ⟨"main", ⟨1, 6⟩⟩, [], [
    .init .double ⟨"n", ⟨2, 10⟩⟩ (.call ⟨"half", ⟨2, 14⟩⟩ [.const ⟨.int 3, ⟨2, 19⟩⟩]),
    .block [
      .init .int ⟨"n", ⟨4, 9⟩⟩ (.paren (.const ⟨.int 2, ⟨4, 14⟩⟩)),
      .expr (.step .postIncrement ⟨"n", ⟨5, 5⟩⟩),
      .expr (.call ⟨"printDouble", ⟨6, 5⟩⟩ [.var ⟨"n", ⟨6, 17⟩⟩])],
    .expr (.assign ⟨"n", ⟨8, 3⟩⟩ (.const ⟨.int 1, ⟨8, 7⟩⟩))]⟩,
  ⟨.double, ⟨"half", ⟨10, 8⟩⟩, [⟨.double, ⟨"x", ⟨10, 20⟩⟩⟩], [
    .ret ⟨11, 3⟩ (some (.binary ⟨.div, ⟨11, 12⟩⟩ (.var ⟨"x", ⟨11, 10⟩⟩)
      (.const ⟨.int 2, ⟨11, 14⟩⟩)))]⟩]

def halvingCore : Program := [
  ⟨"main", ⟨.void, []⟩, [], [
    .init ⟨⟨0⟩, "n", .double⟩ (.call "half" [.cast .double (.const (.int 3))] .double),
    .block [
      .init ⟨⟨1⟩, "n", .int⟩ (.const (.int 2)),
      .expr (.step .postIncrement ⟨1⟩ .int),
      .expr (.call "printDouble" [.cast .double (.var ⟨1⟩ .int)] .void)],
    .expr (.assign ⟨0⟩ (.cast .double (.const (.int 1))) .double)]⟩,
  ⟨"half", ⟨.double, [.double]⟩, [⟨⟨0⟩, "x", .double⟩], [
    .ret (some (.binary .div (.var ⟨0⟩ .double) (.cast .double (.const (.int 2))) .double
      .double))]⟩]

theorem checkProgram_faithful_halving :
    checkProgram halving = .ok halvingCore ∧
      halvingCore.map Function.outline = halving.map Surface.Function.outline ∧
      ∀ f ∈ halvingCore, f.Faithful (functionTypes halvingCore) := by
  have h : checkProgram halving = .ok halvingCore := rfl
  exact ⟨h, checkProgram_faithful h⟩

end Core

end MiniC
