import MiniC.Proofs.Core.CodeVariables

/-!
# The operand stack in the code of well-typed trees

The code of a well-typed expression puts a value of the expression's type on top of any stack, and
the code of a statement leaves the stack as it was. All jumps stay inside the piece and arrive with
the stack that their label expects, whether the jump can be reached or not.
-/

namespace MiniC.Core

open Jvm

variable {calls : CallTable} {funs : FunctionTypes} {sigs : MethodTypes} {vars : VarTypes}
  {slot : VarId → Nat} {out : List (Label × StackTy)} {σ : StackTy}

/-- A value that is not void takes one cell. -/
theorem cells_of_ne_void {ty : Ty} (h : ty ≠ .void) : ∃ c, ty.cell? = some c ∧ ty.cells = [c] := by
  cases ty <;> first | exact ⟨_, rfl, rfl⟩ | exact absurd rfl h

theorem ne_void_of_isNumerical {ty : Ty} (h : ty.isNumerical = true) : ty ≠ .void := by
  rintro rfl
  cases h

/-- The instructions of `ops` lead from the stack type `σ` to `τ`. -/
abbrev Leads (sigs : MethodTypes) (slot : VarId → Nat) (out : List (Label × StackTy))
    (σ : StackTy) (ops : List Op) (τ : StackTy) : Prop :=
  Consistent sigs out σ (lower slot ops) τ

/-- Code leads on from where the code in front of it leads to. -/
theorem Leads.append {as bs : List Op} {ρ τ : StackTy} (ha : Leads sigs slot out σ as ρ)
    (hb : Leads sigs slot out ρ bs τ) : Leads sigs slot out σ (as ++ bs) τ := by
  unfold Leads
  rw [lower_append]
  exact Consistent.append ha hb

/-- The label `l` between two pieces of code, which may both jump to it. -/
theorem Leads.place {as bs : List Op} {ρ τ : StackTy} {l : Label}
    (ha : Leads sigs slot ([(l, ρ)] ++ out) σ as ρ)
    (hb : Leads sigs slot ([(l, ρ)] ++ out) ρ bs τ) :
    Leads sigs slot out σ (as ++ [.emit (.label l)] ++ bs) τ := by
  have hlabel : Leads sigs slot ([(l, ρ)] ++ out) ρ [.emit (.label l)] ρ :=
    Consistent.straight (.label l) [] [] rfl rfl
  refine Consistent.close ((Leads.append ha hlabel).append hb) ?_
  intro x hx
  obtain rfl := List.mem_singleton.mp hx
  rw [lower_append, lower_append, List.append_assoc]
  exact mem_placements_append ha.flow

/-! ## Single operations -/

theorem leads_constant (c : Constant) :
    Leads sigs slot out σ [.emit (constant c)] (c.ty.cells ++ σ) := by
  cases c with
  | bool b => exact Consistent.straight (.iconst _) [] [.int] rfl rfl
  | int i => exact Consistent.straight (.iconst _) [] [.int] rfl rfl
  | double d => exact Consistent.straight (.dconst _) [] [.double] rfl rfl
  | string s => exact Consistent.straight (.sconst _) [] [.string] rfl rfl

section OneCell

variable {ty : Ty} (h : ty ≠ .void)
include h

theorem leads_load (v : VarId) : Leads sigs slot out σ [.load ty v] (ty.cells ++ σ) := by
  obtain ⟨c, hc, hcells⟩ := cells_of_ne_void h
  rw [hcells]
  exact Consistent.straight (.load ty (slot v)) [] [c] (by simp [Instruction.typing?, hc]) rfl

theorem leads_store (v : VarId) : Leads sigs slot out (ty.cells ++ σ) [.store ty v] σ := by
  obtain ⟨c, hc, hcells⟩ := cells_of_ne_void h
  rw [hcells]
  exact Consistent.straight (.store ty (slot v)) [c] [] (by simp [Instruction.typing?, hc]) rfl

theorem leads_dup : Leads sigs slot out (ty.cells ++ σ) [.emit (.dup ty)]
    (ty.cells ++ (ty.cells ++ σ)) := by
  obtain ⟨c, hc, hcells⟩ := cells_of_ne_void h
  rw [hcells]
  exact Consistent.straight (.dup ty) [c] [c, c] (by simp [Instruction.typing?, hc]) rfl

theorem leads_pop : Leads sigs slot out (ty.cells ++ σ) [.emit (.pop ty)] σ := by
  obtain ⟨c, hc, hcells⟩ := cells_of_ne_void h
  rw [hcells]
  exact Consistent.straight (.pop ty) [c] [] (by simp [Instruction.typing?, hc]) rfl

end OneCell

theorem leads_ret (ty : Ty) : Leads sigs slot out (ty.cells ++ σ) [.emit (.ret ty)] σ :=
  Consistent.straight (.ret ty) ty.cells [] rfl rfl

/-- A jump needs the stack its target is listed with; what follows it is typed as if it were
reached. -/
theorem leads_goto {l : Label} (h : (l, σ) ∈ out) : Leads sigs slot out σ [.emit (.goto l)] σ :=
  Consistent.jump (.goto l) [] [] rfl rfl h

/-- A conditional branch takes its condition, and needs the target listed with what is left. -/
theorem leads_ifZero {cond : Cond} {l : Label} (h : (l, σ) ∈ out) :
    Leads sigs slot out (.int :: σ) [.emit (.ifZero cond l)] σ :=
  Consistent.jump (.ifZero cond l) [.int] [] rfl rfl h

/-- Arithmetic takes two operands of a numerical type and leaves one. -/
theorem leads_arith {a : Arith} {ty : Ty} (ha : a ≠ .and) (ho : a ≠ .or)
    (h : ty.isNumerical = true) :
    Leads sigs slot out (ty.cells ++ (ty.cells ++ σ)) [.emit (.arith a ty)] (ty.cells ++ σ) := by
  have hcell : Instruction.arithCell? a ty = ty.cell? := by
    cases ty <;> simp [Ty.isNumerical] at h <;> simp [Instruction.arithCell?, Ty.cell?, ha, ho]
  obtain ⟨c, hc, hcells⟩ := cells_of_ne_void (ne_void_of_isNumerical h)
  rw [hcells]
  exact Consistent.straight (.arith a ty) [c, c] [c] (by simp [Instruction.typing?, hcell, hc]) rfl

theorem leads_neg {ty : Ty} (h : ty.isNumerical = true) :
    Leads sigs slot out (ty.cells ++ σ) [.emit (.neg ty)] (ty.cells ++ σ) := by
  have hcell : Instruction.negCell? ty = ty.cell? := by
    cases ty <;> simp [Ty.isNumerical] at h <;> rfl
  obtain ⟨c, hc, hcells⟩ := cells_of_ne_void (ne_void_of_isNumerical h)
  rw [hcells]
  exact Consistent.straight (.neg ty) [c] [c] (by simp [Instruction.typing?, hcell, hc]) rfl

/-- The one conversion the program has is from integers to doubles. -/
theorem leads_convert {source target : Ty} (hs : source = .int) (ht : target = .double) :
    Leads sigs slot out (source.cells ++ σ) [convert source target] (target.cells ++ σ) := by
  subst hs ht
  exact Consistent.straight .i2d [.int] [.double] rfl rfl

/-- A call takes the cells of its arguments and leaves those of its result. -/
theorem leads_invoke (hcalls : CallsFit calls funs sigs) {f : String} {s : Signature}
    (hf : funs f = some s) :
    Leads sigs slot out (s.argCells ++ σ) [invoke calls f] (s.ret.cells ++ σ) := by
  obtain ⟨c, hc, hargs, hret, hsig⟩ := hcalls f s hf
  simp only [invoke, hc]
  exact Consistent.straight (.invoke c.method c.args c.ret.words) s.argCells s.ret.cells
    (by simp [Instruction.typing?, hsig, hargs, hret]) rfl

/-! ## Pieces of code -/

/-- Every kind of step leaves one value of the variable's type. -/
theorem leads_stepCode {s : Step} {v : VarId} {ty : Ty} (h : ty.isNumerical = true) :
    Leads sigs slot out σ (stepCode s v ty) (ty.cells ++ σ) := by
  have hvoid := ne_void_of_isNumerical h
  have hchange : ∀ ρ : StackTy, Leads sigs slot out (ty.cells ++ ρ)
      [.emit (if ty = .double then .dconst .one else .iconst 1),
        .emit (.arith (if s.isIncrement then .add else .sub) ty)] (ty.cells ++ ρ) := by
    intro ρ
    have hone : Leads sigs slot out (ty.cells ++ ρ)
        [.emit (if ty = .double then .dconst .one else .iconst 1)]
        (ty.cells ++ (ty.cells ++ ρ)) := by
      cases ty <;> simp [Ty.isNumerical] at h
      · exact Consistent.straight (.iconst 1) [] [.int] rfl rfl
      · exact Consistent.straight (.dconst .one) [] [.double] rfl rfl
    exact hone.append (leads_arith (by split <;> decide) (by split <;> decide) h)
  unfold stepCode
  cases hpost : s.isPost with
  | true =>
    exact ((((leads_load hvoid v).append (leads_dup hvoid)).append (hchange _)).append
      Consistent.nil).append (leads_store hvoid v)
  | false =>
    exact ((((leads_load hvoid v).append Consistent.nil).append (hchange _)).append
      (leads_dup hvoid)).append (leads_store hvoid v)

/-- A test that falls through or jumps to `done`, with the `true` below it untouched. -/
theorem leads_truth {done : Label} {test : List Op}
    (h : Leads sigs slot ([(done, .int :: σ)] ++ out) (.int :: σ) test (.int :: σ)) :
    Leads sigs slot out σ (truth done test) (.int :: σ) := by
  have hpush : ∀ (i : Int32) (ρ : StackTy),
      Leads sigs slot ([(done, .int :: σ)] ++ out) ρ [.emit (.iconst i)] (.int :: ρ) :=
    fun i _ => Consistent.straight (.iconst i) [] [.int] rfl rfl
  have hpop : Leads sigs slot ([(done, .int :: σ)] ++ out) (.int :: σ) [.emit (.pop .bool)] σ :=
    Consistent.straight (.pop .bool) [.int] [] rfl rfl
  have hcode : truth done test = [Op.emit (.iconst 1)] ++ test ++
      ([Op.emit (.pop .bool)] ++ [Op.emit (.iconst 0)]) ++ [Op.emit (.label done)] ++ [] := by
    simp [truth]
  rw [hcode]
  exact Leads.place (((hpush 1 σ).append h).append (hpop.append (hpush 0 σ))) Consistent.nil

/-- A comparison takes both operands, on the branch as on the way through. -/
theorem leads_compare {cond : Cond} {ty : Ty} {l : Label}
    (hty : ty.isNumerical = true ∨ ty = .bool) (hl : (l, σ) ∈ out) :
    Leads sigs slot out (ty.cells ++ (ty.cells ++ σ)) (Jvm.compare cond ty l) σ := by
  unfold Jvm.compare
  split
  · next hdouble =>
    subst hdouble
    have hcmp : Leads sigs slot out (.double :: .double :: σ)
        [.emit (if cond = .lt ∨ cond = .le then .dcmpg else .dcmpl)] (.int :: σ) := by
      split
      · exact Consistent.straight .dcmpg [.double, .double] [.int] rfl rfl
      · exact Consistent.straight .dcmpl [.double, .double] [.int] rfl rfl
    exact hcmp.append (leads_ifZero hl)
  · next hdouble =>
    have hcells : ty.cells = [.int] := by
      revert hty hdouble
      cases ty <;> decide
    rw [hcells]
    exact Consistent.jump (.ifCompare cond l) [.int, .int] [] rfl rfl hl

/-! ## Expressions -/

mutual

/-- The code of an expression leaves its value on top of the stack and the rest as it was. -/
theorem Expr.code_leads (hcalls : CallsFit calls funs sigs) (hvars : NoVoid vars) :
    ∀ (e : Expr) (n : Nat) {out : List (Label × StackTy)} {σ : StackTy}, e.WellTyped funs vars →
      Leads sigs slot out σ (e.code calls n) (e.ty.cells ++ σ)
  | .const c, n, out, σ, _ => by
    rw [Expr.code]
    exact leads_constant c
  | .var v ty, n, out, σ, h => by
    rw [Expr.code]
    exact leads_load (hvars.ne_void h) v
  | .assign v e ty, n, out, σ, ⟨hv, hty, he⟩ => by
    have hvoid := hvars.ne_void hv
    subst hty
    rw [Expr.code]
    exact (e.code_leads hcalls hvars n he).append ((leads_dup hvoid).append (leads_store hvoid v))
  | .call f args ty, n, out, σ, ⟨s, hs, hret, htys, hargs⟩ => by
    subst hret
    rw [Expr.code]
    refine Leads.append (ρ := s.argCells ++ σ) ?_ (leads_invoke hcalls hs)
    unfold Signature.argCells
    rw [← htys]
    exact codeOfArgs_leads hcalls hvars args n hargs
  | .binary op left right operandTy ty, n, out, σ, ⟨hop, hlty, hrty, hl, hr⟩ => by
    have hleft : ∀ m out ρ, Leads sigs slot out ρ (left.code calls m) (operandTy.cells ++ ρ) := by
      intro m out ρ
      rw [← hlty]
      exact left.code_leads hcalls hvars m hl
    have hright : ∀ m out ρ, Leads sigs slot out ρ (right.code calls m) (operandTy.cells ++ ρ) := by
      intro m out ρ
      rw [← hrty]
      exact right.code_leads hcalls hvars m hr
    cases hop with
    | arithmetic hop hnum =>
      obtain ⟨a, -, hand, hor, hcode⟩ := code_arithmetic hop
      rw [hcode]
      exact ((hleft _ _ _).append (hright _ _ _)).append (leads_arith hand hor hnum)
    | relational hop hoperand =>
      obtain ⟨cond, -, hcode⟩ := code_relational hop
      rw [hcode]
      exact leads_truth (((hleft _ _ _).append (hright _ _ _)).append
        (leads_compare hoperand (by simp)))
    | logical hop =>
      obtain ⟨a, -, hcode⟩ := code_logical hop
      rw [hcode]
      have harith : Leads sigs slot ([(⟨n⟩, .int :: σ)] ++ out) (.int :: .int :: .int :: σ)
          [.emit (.arith a .int)] (.int :: .int :: σ) :=
        Consistent.straight (.arith a .int) [.int, .int] [.int] rfl rfl
      exact leads_truth (((hleft _ _ _).append (hright _ _ _)).append
        (harith.append (leads_ifZero (by simp))))
  | .step s v ty, n, out, σ, ⟨_, hnum⟩ => by
    rw [Expr.code]
    exact leads_stepCode hnum
  | .negate e ty, n, out, σ, ⟨hty, hnum, he⟩ => by
    subst hty
    rw [Expr.code]
    exact (e.code_leads hcalls hvars n he).append (leads_neg hnum)
  | .cast target e, n, out, σ, ⟨htarget, hty, he⟩ => by
    rw [Expr.code]
    exact (e.code_leads hcalls hvars n he).append (leads_convert hty htarget)

/-- The code of arguments leaves their values, the last one on top. -/
theorem codeOfArgs_leads (hcalls : CallsFit calls funs sigs) (hvars : NoVoid vars) :
    ∀ (es : List Expr) (n : Nat) {out : List (Label × StackTy)} {σ : StackTy},
      ArgsWellTyped funs vars es →
      Leads sigs slot out σ (codeOfArgs calls n es)
        ((es.map Expr.ty).reverse.flatMap Ty.cells ++ σ)
  | [], n, out, σ, _ => by
    rw [codeOfArgs]
    exact Consistent.nil
  | e :: es, n, out, σ, ⟨he, hes⟩ => by
    rw [codeOfArgs]
    have hcells : ((e :: es).map Expr.ty).reverse.flatMap Ty.cells ++ σ =
        (es.map Expr.ty).reverse.flatMap Ty.cells ++ (e.ty.cells ++ σ) := by
      simp
    rw [hcells]
    exact (e.code_leads hcalls hvars n he).append (codeOfArgs_leads hcalls hvars es _ hes)

end

/-! ## Statements -/

/-- Reserving slots does not touch the stack. -/
theorem leads_reserve (vs : List VarDecl) :
    Leads sigs slot out σ (vs.map fun v => .reserve v.id v.ty) σ := by
  unfold Leads
  rw [lower_reserve]
  exact Consistent.nil

/-- A discarded expression leaves the stack as it was: a value is popped, and a void call leaves
none. -/
theorem Expr.discarded_leads (hcalls : CallsFit calls funs sigs) (hvars : NoVoid vars) (e : Expr)
    (n : Nat) (h : e.WellTyped funs vars) : Leads sigs slot out σ (e.discarded calls n) σ := by
  unfold Expr.discarded
  refine (e.code_leads hcalls hvars n h).append ?_
  split
  · next hvoid =>
    rw [hvoid]
    exact Consistent.nil
  · next hvoid => exact leads_pop hvoid

/-- A condition leaves the stack as it was, whether or not the branch is taken. -/
theorem Expr.branchIfFalse_leads (hcalls : CallsFit calls funs sigs) (hvars : NoVoid vars)
    (e : Expr) (n : Nat) {l : Label} (h : e.WellTyped funs vars) (hty : e.ty = .bool)
    (hl : (l, σ) ∈ out) : Leads sigs slot out σ (e.branchIfFalse calls n l) σ := by
  have hcells : e.ty.cells ++ σ = .int :: σ := by
    rw [hty]
    rfl
  refine Leads.append (e.code_leads hcalls hvars n h) ?_
  rw [hcells]
  exact leads_ifZero hl

theorem optionalDiscarded_leads (hcalls : CallsFit calls funs sigs) (hvars : NoVoid vars)
    {e : Option Expr} (n : Nat) (h : OptionalWellTyped funs vars e) :
    Leads sigs slot out σ (optionalCode (Expr.discarded calls n) e) σ := by
  cases e with
  | none => exact Consistent.nil
  | some x => exact x.discarded_leads hcalls hvars n h

theorem optionalBranch_leads (hcalls : CallsFit calls funs sigs) (hvars : NoVoid vars)
    {e : Option Expr} (n : Nat) {l : Label} (h : ConditionWellTyped funs vars e)
    (hl : (l, σ) ∈ out) :
    Leads sigs slot out σ (optionalCode (Expr.branchIfFalse calls n l) e) σ := by
  cases e with
  | none => exact Consistent.nil
  | some x => exact x.branchIfFalse_leads hcalls hvars n h.1 h.2 hl

/-- A loop with its two labels. Both the test and the body may jump to either of them. -/
theorem leads_loop {test done : Label} {condition body : List Op}
    (hc : Leads sigs slot ([(done, σ)] ++ ([(test, σ)] ++ out)) σ condition σ)
    (hb : Leads sigs slot ([(done, σ)] ++ ([(test, σ)] ++ out)) σ body σ) :
    Leads sigs slot out σ ([Op.emit (.label test)] ++ condition ++ body ++
      [Op.emit (.goto test), .emit (.label done)]) σ := by
  have hcode : [Op.emit (.label test)] ++ condition ++ body ++
      [Op.emit (.goto test), .emit (.label done)] =
      [] ++ [Op.emit (.label test)] ++ (condition ++ body ++ [Op.emit (.goto test)] ++
        [Op.emit (.label done)] ++ []) := by
    simp
  rw [hcode]
  exact Leads.place Consistent.nil
    (Leads.place ((hc.append hb).append (leads_goto (by simp))) Consistent.nil)

mutual

/-- The code of a statement leaves the stack as it was, by induction on the statement. -/
theorem Stmt.code_leads (hcalls : CallsFit calls funs sigs) {result : Ty} :
    ∀ (s : Stmt) (n : Nat) {vars : VarTypes} {out : List (Label × StackTy)} {σ : StackTy},
      NoVoid vars → s.WellTyped funs result vars → Leads sigs slot out σ (s.code calls n) σ
  | .declare vs, n, vars, out, σ, _, _ => by
    rw [Stmt.code]
    exact leads_reserve vs
  | .init v e, n, vars, out, σ, hvars, ⟨hnew, hty, he⟩ => by
    rw [Stmt.code]
    have hstore :
        Leads sigs slot out (e.ty.cells ++ σ) [.reserve v.id v.ty, .store v.ty v.id] σ := by
      rw [hty]
      exact leads_store (hnew.2 v (by simp)) v.id
    exact (e.code_leads hcalls hvars n he).append hstore
  | .expr e, n, vars, out, σ, hvars, h => by
    rw [Stmt.code]
    exact e.discarded_leads hcalls hvars n h
  | .ret none, n, vars, out, σ, _, _ => by
    rw [Stmt.code]
    exact leads_ret .void
  | .ret (some e), n, vars, out, σ, hvars, ⟨_, _, he⟩ => by
    rw [Stmt.code]
    exact (e.code_leads hcalls hvars n he).append (leads_ret e.ty)
  | .block body, n, vars, out, σ, hvars, h => by
    rw [Stmt.code]
    exact codeOfBlock_leads hcalls body n hvars h
  | .whileLoop c body, n, vars, out, σ, hvars, ⟨hc, hty, hbody⟩ => by
    rw [Stmt.code]
    exact leads_loop (c.branchIfFalse_leads hcalls hvars _ hc hty (by simp))
      (body.code_leads hcalls _ hvars hbody)
  | .forLoop init c step body, n, vars, out, σ, hvars, ⟨hinit, hc, hstep, hbody⟩ => by
    -- the step belongs to the body here: nothing stands between the two
    have hloop : ∀ k m m', Leads sigs slot out σ ([Op.emit (.label ⟨k⟩)] ++
        optionalCode (Expr.branchIfFalse calls (k + 2) ⟨k + 1⟩) c ++
        (body.code calls m ++ optionalCode (Expr.discarded calls m') step) ++
        [Op.emit (.goto ⟨k⟩), Op.emit (.label ⟨k + 1⟩)]) σ := fun k m m' =>
      leads_loop (optionalBranch_leads hcalls hvars _ hc (by simp))
        (Leads.append (body.code_leads hcalls m hvars hbody)
          (optionalDiscarded_leads hcalls hvars m' hstep))
    rw [Stmt.code]
    simp only [List.append_assoc] at hloop ⊢
    exact (optionalDiscarded_leads hcalls hvars n hinit).append (hloop _ _ _)
  | .ifThen c thenBranch, n, vars, out, σ, hvars, ⟨hc, hty, hthen⟩ => by
    rw [Stmt.code, ← List.append_nil (_ ++ [Op.emit _])]
    exact Leads.place ((c.branchIfFalse_leads hcalls hvars _ hc hty (by simp)).append
      (thenBranch.code_leads hcalls _ hvars hthen)) Consistent.nil
  | .ifElse c thenBranch elseBranch, n, vars, out, σ, hvars, ⟨hc, hty, hthen, helse⟩ => by
    have hvars' := hvars.extend (Stmt.WellTyped.newVars thenBranch hthen)
    rw [Stmt.code, ← List.append_nil (_ ++ [Op.emit _])]
    refine Leads.place (ρ := σ) (Leads.place (ρ := σ) ?_ ?_) Consistent.nil
    · refine ((c.branchIfFalse_leads hcalls hvars _ hc hty (by simp)).append
        (thenBranch.code_leads hcalls _ hvars hthen)).append ?_
      split
      · exact Consistent.nil
      · exact leads_goto (by simp)
    · exact elseBranch.code_leads hcalls _ hvars' helse

/-- The same for a block. -/
theorem codeOfBlock_leads (hcalls : CallsFit calls funs sigs) {result : Ty} :
    ∀ (ss : List Stmt) (n : Nat) {vars : VarTypes} {out : List (Label × StackTy)} {σ : StackTy},
      NoVoid vars → BlockWellTyped funs result vars ss →
      Leads sigs slot out σ (codeOfBlock calls n ss) σ
  | [], n, vars, out, σ, _, _ => by
    rw [codeOfBlock]
    exact Consistent.nil
  | s :: ss, n, vars, out, σ, hvars, ⟨hs, hss⟩ => by
    have hvars' := hvars.extend (Stmt.WellTyped.newVars s hs)
    rw [codeOfBlock]
    exact (s.code_leads hcalls n hvars hs).append (codeOfBlock_leads hcalls ss _ hvars' hss)

end

end MiniC.Core
