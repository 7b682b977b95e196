import MiniC.Proofs.Core.Faithful
import MiniC.Proofs.Core.OperandStack
import MiniC.Proofs.Jvm.ControlFlow
import MiniC.Proofs.Semantics.Returns

/-!
# Where methods end

Some statements never complete: control that enters them returns to the caller or stays in them
forever. A method whose body contains such a statement at the top level never runs off the end of
its code, and neither does one that ends in a `return` of its own.
-/

namespace MiniC

namespace Outline

/-- A `return`, a block with such a statement in it, a choice between two of them, or a `for`
without a condition. -/
inductive Stmt.NonCompleting : Stmt → Prop where
  | ret {value : Option Expr} : NonCompleting (.ret value)
  | block {body : List Stmt} {s : Stmt} : s ∈ body → NonCompleting s → NonCompleting (.block body)
  | ifElse {c : Expr} {thenBranch elseBranch : Stmt} : NonCompleting thenBranch →
      NonCompleting elseBranch → NonCompleting (.ifElse c thenBranch elseBranch)
  | forLoop {init step : Option Expr} {body : Stmt} : NonCompleting (.forLoop init none step body)

/-- The function gives no result, or some statement at the top level of its body never completes. -/
def Function.Concludes (f : Function) : Prop := f.ret = .void ∨ ∃ s ∈ f.body, s.NonCompleting

end Outline

namespace Core

open Jvm

variable {calls : CallTable} {funs : FunctionTypes} {slot : VarId → Nat}

/-! ## Returns in the code -/

/-- Whatever returns gives a result of the type `ty`. -/
def ReturnsOnly (ty : Ty) (c : List Instruction) : Prop :=
  ∀ ins ∈ c, ins.isReturn = true → ins = .ret ty

/-- Control goes on behind every instruction. -/
def FallsThrough (c : List Instruction) : Prop := ∀ ins ∈ c, ins.falls = true

/-- Code without returns is made of parts without returns. -/
theorem FallsThrough.append {c d : List Instruction} (hc : FallsThrough c) (hd : FallsThrough d) :
    FallsThrough (c ++ d) :=
  List.forall_mem_append.mpr ⟨hc, hd⟩

theorem ReturnsOnly.append {ty : Ty} {c d : List Instruction} (hc : ReturnsOnly ty c)
    (hd : ReturnsOnly ty d) : ReturnsOnly ty (c ++ d) :=
  List.forall_mem_append.mpr ⟨hc, hd⟩

/-- Code without returns has no return of a wrong type. -/
theorem FallsThrough.returnsOnly {c : List Instruction} (h : FallsThrough c) (ty : Ty) :
    ReturnsOnly ty c := by
  intro ins hins hret
  cases ins with
  | ret t => cases h _ hins
  | _ => cases hret

theorem fallsThrough_truth {done : Label} {test : List Op} (h : FallsThrough (lower slot test)) :
    FallsThrough (lower slot (truth done test)) := by
  rw [truth, lower_append, lower_append]
  refine (FallsThrough.append ?_ h).append ?_ <;> simp [FallsThrough, Op.lower, Instruction.falls]

mutual

/-- No expression returns. -/
theorem Expr.code_fallsThrough :
    ∀ (e : Expr) (n : Nat), FallsThrough (lower slot (e.code calls n))
  | .const c, n => by
    rw [Expr.code]
    cases c <;> simp [FallsThrough, Op.lower, constant, Instruction.falls]
  | .var v ty, n => by
    rw [Expr.code]
    simp [FallsThrough, Op.lower, Instruction.falls]
  | .assign v e ty, n => by
    rw [Expr.code, lower_append]
    exact (e.code_fallsThrough n).append (by simp [FallsThrough, Op.lower, Instruction.falls])
  | .call f args ty, n => by
    rw [Expr.code, lower_append, invoke]
    refine (codeOfArgs_fallsThrough args n).append ?_
    split <;> simp [FallsThrough, Op.lower, Instruction.falls]
  | .binary op left right operandTy ty, n => by
    have hoperands : ∀ j k, FallsThrough (lower slot (left.code calls j ++ right.code calls k)) :=
      fun j k => lower_append slot _ _ ▸
        (left.code_fallsThrough j).append (right.code_fallsThrough k)
    rw [Expr.code]
    split
    · refine fallsThrough_truth (lower_append slot _ _ ▸ (hoperands _ _).append ?_)
      unfold Jvm.compare
      split
      · split <;> simp [FallsThrough, Op.lower, Instruction.falls]
      · simp [FallsThrough, Op.lower, Instruction.falls]
    · split
      · refine fallsThrough_truth (lower_append slot _ _ ▸ (hoperands _ _).append ?_)
        simp [FallsThrough, Op.lower, Instruction.falls]
      · refine lower_append slot _ _ ▸ (hoperands _ _).append ?_
        simp [FallsThrough, Op.lower, Instruction.falls]
    · simp [FallsThrough, Op.lower]
  | .step s v ty, n => by
    rw [Expr.code, stepCode]
    split_ifs <;> simp [FallsThrough, Op.lower, Instruction.falls]
  | .negate e ty, n => by
    rw [Expr.code, lower_append]
    exact (e.code_fallsThrough n).append (by simp [FallsThrough, Op.lower, Instruction.falls])
  | .cast target e, n => by
    rw [Expr.code, lower_append, convert]
    refine (e.code_fallsThrough n).append ?_
    split <;> simp [FallsThrough, Op.lower, Instruction.falls]

theorem codeOfArgs_fallsThrough :
    ∀ (es : List Expr) (n : Nat), FallsThrough (lower slot (codeOfArgs calls n es))
  | [], n => by
    rw [codeOfArgs]
    simp [FallsThrough]
  | e :: es, n => by
    rw [codeOfArgs, lower_append]
    exact (e.code_fallsThrough n).append (codeOfArgs_fallsThrough es _)

end

theorem Expr.discarded_returnsOnly (e : Expr) (n : Nat) (ty : Ty) :
    ReturnsOnly ty (lower slot (e.discarded calls n)) := by
  unfold Expr.discarded
  rw [lower_append]
  refine ((e.code_fallsThrough n).append ?_).returnsOnly ty
  split <;> simp [FallsThrough, Op.lower, Instruction.falls]

theorem Expr.branchIfFalse_returnsOnly (e : Expr) (n : Nat) (l : Label) (ty : Ty) :
    ReturnsOnly ty (lower slot (e.branchIfFalse calls n l)) := by
  unfold Expr.branchIfFalse
  rw [lower_append]
  refine ((e.code_fallsThrough n).append ?_).returnsOnly ty
  simp [FallsThrough, Op.lower, Instruction.falls]

theorem optionalCode_returnsOnly {code : Expr → List Op} {ty : Ty}
    (h : ∀ e, ReturnsOnly ty (lower slot (code e))) (e : Option Expr) :
    ReturnsOnly ty (lower slot (optionalCode code e)) := by
  cases e with
  | none => simp [optionalCode, ReturnsOnly]
  | some e => exact h e

theorem returnsOnly_label (ty : Ty) (l : Label) :
    ReturnsOnly ty (lower slot [.emit (.label l)]) := by
  simp [ReturnsOnly, Op.lower, Instruction.isReturn]

mutual

/-- A statement returns only what its function gives. -/
theorem Stmt.code_returnsOnly {result : Ty} :
    ∀ (s : Stmt) (n : Nat) {vars : VarTypes}, s.WellTyped funs result vars →
      ReturnsOnly result (lower slot (s.code calls n))
  | .declare vs, n, vars, _ => by
    rw [Stmt.code, lower_reserve]
    simp [ReturnsOnly]
  | .init v e, n, vars, _ => by
    rw [Stmt.code, lower_append]
    refine ((e.code_fallsThrough n).append ?_).returnsOnly result
    simp [FallsThrough, Op.lower, Instruction.falls]
  | .expr e, n, vars, _ => by
    rw [Stmt.code]
    exact e.discarded_returnsOnly n result
  | .ret none, n, vars, h => by
    rw [Stmt.code, show result = .void from h]
    simp [ReturnsOnly, Op.lower]
  | .ret (some e), n, vars, ⟨_, hty, _⟩ => by
    rw [Stmt.code, lower_append, ← hty]
    refine ((e.code_fallsThrough n).returnsOnly _).append ?_
    simp [ReturnsOnly, Op.lower]
  | .block body, n, vars, h => by
    rw [Stmt.code]
    exact codeOfBlock_returnsOnly body n h
  | .whileLoop c body, n, vars, ⟨_, _, hbody⟩ => by
    rw [Stmt.code]
    simp only [lower_append]
    refine (((returnsOnly_label _ _).append (c.branchIfFalse_returnsOnly _ _ _)).append
      (body.code_returnsOnly _ hbody)).append ?_
    simp [ReturnsOnly, Op.lower, Instruction.isReturn]
  | .forLoop init c step body, n, vars, ⟨_, _, _, hbody⟩ => by
    have hdiscarded : ∀ m e, ReturnsOnly result
        (lower slot (optionalCode (Expr.discarded calls m) e)) :=
      fun m e => optionalCode_returnsOnly (fun e => e.discarded_returnsOnly m result) e
    rw [Stmt.code]
    simp only [lower_append]
    refine (((((hdiscarded _ _).append (returnsOnly_label _ _)).append
      (optionalCode_returnsOnly (fun e => e.branchIfFalse_returnsOnly _ _ _) c)).append
      (body.code_returnsOnly _ hbody)).append (hdiscarded _ _)).append ?_
    simp [ReturnsOnly, Op.lower, Instruction.isReturn]
  | .ifThen c thenBranch, n, vars, ⟨_, _, hthen⟩ => by
    rw [Stmt.code, lower_append, lower_append]
    refine ((c.branchIfFalse_returnsOnly _ _ _).append
      (thenBranch.code_returnsOnly _ hthen)).append (returnsOnly_label _ _)
  | .ifElse c thenBranch elseBranch, n, vars, ⟨_, _, hthen, helse⟩ => by
    rw [Stmt.code]
    simp only [lower_append]
    refine (((((c.branchIfFalse_returnsOnly _ _ _).append
      (thenBranch.code_returnsOnly _ hthen)).append ?_).append (returnsOnly_label _ _)).append
      (elseBranch.code_returnsOnly _ helse)).append (returnsOnly_label _ _)
    split <;> simp [ReturnsOnly, Op.lower, Instruction.isReturn]

/-- A well-typed block returns values of the result type only. -/
theorem codeOfBlock_returnsOnly {result : Ty} :
    ∀ (ss : List Stmt) (n : Nat) {vars : VarTypes}, BlockWellTyped funs result vars ss →
      ReturnsOnly result (lower slot (codeOfBlock calls n ss))
  | [], n, vars, _ => by
    rw [codeOfBlock]
    simp [ReturnsOnly]
  | s :: ss, n, vars, ⟨hs, hss⟩ => by
    rw [codeOfBlock, lower_append]
    exact (s.code_returnsOnly n hs).append (codeOfBlock_returnsOnly ss _ hss)

end

end Core

/-! ## Confined control -/

namespace Jvm

open MiniC.Core

variable {sigs : MethodTypes} {slot : VarId → Nat} {code : List Instruction} {a b : Nat}

/-- Code that is consistent without outside labels branches to its own labels only. -/
theorem Consistent.targetsOwn {σ τ : StackTy} {c : List Instruction}
    (h : Consistent sigs [] σ c τ) : TargetsOwn c := by
  intro ins hins l hl
  obtain ⟨i, hi⟩ := List.getElem?_of_mem hins
  rcases h.jumps _ (mem_jumps h.flow hi hl) with hplaced | hout
  · obtain ⟨j, hj, -⟩ := exists_of_mem_placements hplaced
    exact List.mem_of_getElem? hj
  · cases hout

/-- Where no label is placed twice, control leaves such code only at its end. -/
theorem Consistent.enclosed {σ τ : StackTy} {c : List Instruction} (h : Consistent sigs [] σ c τ)
    (hat : CodeAt code a c) (hlabels : (labelsIn code).Nodup) : Enclosed code a (a + c.length) :=
  h.targetsOwn.enclosed hat hlabels

/-- Code that ends in a return does so as instructions too. -/
theorem lower_of_endsInReturn {ops : List Op} (h : endsInReturn ops = true) :
    ∃ c ty, lower slot ops = c ++ [Instruction.ret ty] := by
  induction ops using List.reverseRecOn with
  | nil => cases h
  | append_singleton ops op ih =>
    rw [lower_append]
    -- a reservation leaves the question to the operations before it, all others decide
    cases op with
    | reserve v ty =>
      rcases endsInReturn_append h with h | h
      · simpa [Op.lower] using ih h
      · cases h
    | emit ins =>
      rw [endsInReturn_append_right _ _ (List.mem_singleton.mpr rfl) (by simp)] at h
      cases ins with
      | ret ty => exact ⟨_, ty, rfl⟩
      | _ => cases h
    | _ =>
      rw [endsInReturn_append_right _ _ (List.mem_singleton.mpr rfl) (by simp)] at h
      cases h

/-- A loop without a way out. -/
theorem confined_loop {test done : Label} {ops : List Op} (hlabels : (labelsIn code).Nodup)
    (hops : Leads sigs slot [] [] ops [])
    (hat : CodeAt code a (lower slot ([Op.emit (.label test)] ++ ops ++
      [Op.emit (.goto test), Op.emit (.label done)]))) :
    Confined code a (a + (lower slot ([Op.emit (.label test)] ++ ops ++
      [Op.emit (.goto test), Op.emit (.label done)])).length) := by
  rw [List.append_assoc, lower_append, lower_append] at hat ⊢
  have hlabel : code[a]? = some (.label test) := hat.left.head
  have hround : Enclosed code (a + 1) (a + 1 + (lower slot ops).length) :=
    hops.enclosed hat.right.left hlabels
  have hgoto : code[a + 1 + (lower slot ops).length]? = some (.goto test) := hat.right.right.head
  refine Confined.mono (b := a + 1 + (lower slot ops).length + 1) ?_ (by simp [Op.lower]; omega)
  refine confined_of_closed (by omega) fun i j hai hib hnext => ?_
  -- the label, the way round and the jump back
  rcases Nat.lt_trichotomy i (a + 1 + (lower slot ops).length) with hlt | rfl | hgt
  · rcases Nat.eq_or_lt_of_le hai with rfl | hlt'
    · rcases hnext.cases_at hlabel with ⟨-, rfl⟩ | ⟨l, hl, -⟩
      · omega
      · cases hl
    · have := hround i j hlt' hlt hnext
      omega
  · rcases hnext.cases_at hgoto with ⟨hfalls, -⟩ | ⟨l, hl, hj⟩
    · cases hfalls
    · cases hl
      rw [index_unique hlabels hj hlabel]
      omega
  · omega

end Jvm

namespace Core

open Jvm

variable {calls : CallTable} {funs : FunctionTypes} {sigs : MethodTypes} {slot : VarId → Nat}
  {code : List Instruction} {result : Ty}

/-! ### Statements by their outlines -/

section Outline

variable {name : VarId → String} {s : Stmt}

theorem mem_outlineBlock {ss : List Stmt} {o : Outline.Stmt} :
    o ∈ outlineBlock name ss ↔ ∃ s ∈ ss, s.outline name = o := by
  induction ss with
  | nil => simp [outlineBlock]
  | cons s ss ih => simp [outlineBlock, ih, eq_comm]

/-- The outline of a statement shows a return. -/
theorem Stmt.eq_ret_of_outline {value : Option Outline.Expr} (h : s.outline name = .ret value) :
    ∃ value', s = .ret value' := by
  cases s <;> simp [Stmt.outline] at h ⊢

theorem Stmt.eq_block_of_outline {body : List Outline.Stmt} (h : s.outline name = .block body) :
    ∃ body', s = .block body' ∧ outlineBlock name body' = body := by
  cases s <;> simp_all [Stmt.outline]

theorem Stmt.eq_ifElse_of_outline {c : Outline.Expr} {thenBranch elseBranch : Outline.Stmt}
    (h : s.outline name = .ifElse c thenBranch elseBranch) :
    ∃ c' thenBranch' elseBranch', s = .ifElse c' thenBranch' elseBranch' ∧
      thenBranch'.outline name = thenBranch ∧ elseBranch'.outline name = elseBranch := by
  cases s <;> simp_all [Stmt.outline]

/-- The outline of a statement shows a loop without a condition. -/
theorem Stmt.eq_endless_of_outline {init step : Option Outline.Expr} {body : Outline.Stmt}
    (h : s.outline name = .forLoop init none step body) :
    ∃ init' step' body', s = .forLoop init' none step' body' := by
  cases s <;> simp_all [Stmt.outline]

end Outline

/-- The code of a block is made of that of its parts, the second labelled on from the first. -/
theorem codeOfBlock_append (calls : CallTable) (ss ss' : List Stmt) (n : Nat) :
    codeOfBlock calls n (ss ++ ss') =
      codeOfBlock calls n ss ++ codeOfBlock calls (n + labelsOfBlock ss) ss' := by
  induction ss generalizing n with
  | nil => rw [codeOfBlock, labelsOfBlock]; rfl
  | cons s ss ih =>
    rw [List.cons_append, codeOfBlock, codeOfBlock, labelsOfBlock, ih, List.append_assoc,
      Nat.add_assoc]

/-- The second part of a well-typed block is well typed behind what the first declares. -/
theorem BlockWellTyped.append {ss ss' : List Stmt} {vars : VarTypes}
    (h : BlockWellTyped funs result vars (ss ++ ss')) :
    BlockWellTyped funs result vars ss ∧
      BlockWellTyped funs result (vars.extend (declaredIn ss)) ss' := by
  induction ss generalizing vars with
  | nil =>
    rw [declaredIn, VarTypes.extend, List.map_nil, List.append_nil]
    exact ⟨trivial, h⟩
  | cons s ss ih =>
    obtain ⟨hs, hss⟩ := h
    obtain ⟨hss, hss'⟩ := ih hss
    rw [declaredIn, VarTypes.extend_append]
    exact ⟨⟨hs, hss⟩, hss'⟩

/-- The statements in front of one that never completes do not matter, nor do those behind it. -/
theorem codeOfBlock_confined (hcalls : CallsFit calls funs sigs) (hlabels : (labelsIn code).Nodup)
    {ss : List Stmt} {s : Stmt} (hs : s ∈ ss)
    (hconfined : ∀ {n pc : Nat} {vars : VarTypes}, NoVoid vars → s.WellTyped funs result vars →
      CodeAt code pc (lower slot (s.code calls n)) →
      Confined code pc (pc + (lower slot (s.code calls n)).length))
    {n pc : Nat} {vars : VarTypes} (hvars : NoVoid vars) (hss : BlockWellTyped funs result vars ss)
    (hat : CodeAt code pc (lower slot (codeOfBlock calls n ss))) :
    Confined code pc (pc + (lower slot (codeOfBlock calls n ss)).length) := by
  obtain ⟨front, back, rfl⟩ := List.append_of_mem hs
  obtain ⟨hfront, hback⟩ := BlockWellTyped.append hss
  have hvars' := hvars.extend (BlockWellTyped.newVars front hfront)
  rw [codeOfBlock_append, codeOfBlock, lower_append, lower_append] at hat ⊢
  have hleads : Leads sigs slot [] [] (codeOfBlock calls n front) [] :=
    codeOfBlock_leads hcalls front n hvars hfront
  refine (hleads.enclosed hat.left hlabels).confined (by omega) ?_
  refine (hconfined hvars' hback.1 hat.right.left).mono ?_
  simp only [List.length_append]
  omega

/-- A loop without a condition has no branch of its own to the label behind it. -/
theorem Stmt.code_endless (init step : Option Expr) (body : Stmt) (n : Nat) :
    (Stmt.forLoop init none step body).code calls n =
      optionalCode (Expr.discarded calls n) init ++
        ([Op.emit (.label ⟨n + optionalLabels init⟩)] ++
          (body.code calls (n + optionalLabels init + 2) ++
            optionalCode (Expr.discarded calls (n + optionalLabels init + 2 + body.labels)) step) ++
          [Op.emit (.goto ⟨n + optionalLabels init⟩),
            Op.emit (.label ⟨n + optionalLabels init + 1⟩)]) := by
  rw [Stmt.code, show optionalLabels none = 0 from rfl, show optionalCode _ none = [] from rfl]
  simp only [List.append_nil, List.append_assoc, Nat.add_zero]

/-- Control that enters a statement which never completes does not get behind its code. -/
theorem Stmt.confined (hcalls : CallsFit calls funs sigs) (hlabels : (labelsIn code).Nodup)
    {name : VarId → String} {o : Outline.Stmt} (h : o.NonCompleting) :
    ∀ {s : Stmt} {n pc : Nat} {vars : VarTypes}, s.outline name = o → NoVoid vars →
      s.WellTyped funs result vars → CodeAt code pc (lower slot (s.code calls n)) →
      Confined code pc (pc + (lower slot (s.code calls n)).length) := by
  -- The text says what never completes, so the induction is on the outline, and each case looks for
  -- the checked statement that has it.
  induction h with
  | ret =>
    intro s n pc vars heq hvars hs hat
    obtain ⟨value, rfl⟩ := Stmt.eq_ret_of_outline heq
    cases value with
    | none =>
      rw [Stmt.code] at hat ⊢
      exact confined_ret hat.head (by simp [Op.lower])
    | some e =>
      rw [Stmt.code, lower_append] at hat ⊢
      have hleads : Leads sigs slot [] [] (e.code calls n) (e.ty.cells ++ []) :=
        e.code_leads hcalls hvars n hs.2.2
      refine (hleads.enclosed hat.left hlabels).confined (by omega) ?_
      exact confined_ret hat.right.head (by simp [Op.lower])
  | block hmem _ ih =>
    intro s n pc vars heq hvars hs hat
    obtain ⟨body, rfl, rfl⟩ := Stmt.eq_block_of_outline heq
    obtain ⟨s, hs', rfl⟩ := mem_outlineBlock.mp hmem
    rw [Stmt.code] at hat ⊢
    exact codeOfBlock_confined hcalls hlabels hs' (ih rfl) hvars hs hat
  | ifElse _ _ ihthen ihelse =>
    intro s n pc vars heq hvars hs hat
    obtain ⟨c, thenBranch, elseBranch, rfl, rfl, rfl⟩ := Stmt.eq_ifElse_of_outline heq
    obtain ⟨hc, -, hthen, helse⟩ := hs
    have hvars' := hvars.extend (Stmt.WellTyped.newVars thenBranch hthen)
    have hleads : Leads sigs slot [] [] (c.code calls (n + 2)) (c.ty.cells ++ []) :=
      c.code_leads hcalls hvars _ hc
    rw [Stmt.code] at hat ⊢
    simp only [Expr.branchIfFalse, lower_append, List.append_assoc] at hat ⊢
    simp only [List.length_append]
    have hbranch := hat.right
    have hfirst := hbranch.right
    have hotherwise := hfirst.right.right
    -- behind the condition, both ways lead into a part that control cannot leave
    refine (hleads.enclosed hat.left hlabels).confined (by omega) ?_
    refine confined_ifZero hlabels hbranch.left.head hotherwise.left.head ?_ ?_
    · exact (ihthen rfl hvars hthen hfirst.left).mono (by simp [Op.lower]; omega)
    · refine confined_label hotherwise.left.head ?_
      exact (ihelse rfl hvars' helse hotherwise.right.left).mono (by simp [Op.lower]; omega)
  | forLoop =>
    intro s n pc vars heq hvars hs hat
    obtain ⟨init, step, body, rfl⟩ := Stmt.eq_endless_of_outline heq
    obtain ⟨hinit, -, hstep, hbody⟩ := hs
    have hleads : Leads sigs slot [] [] (optionalCode (Expr.discarded calls n) init) [] :=
      optionalDiscarded_leads hcalls hvars n hinit
    rw [Stmt.code_endless, lower_append] at hat ⊢
    rw [List.length_append, ← Nat.add_assoc]
    refine (hleads.enclosed hat.left hlabels).confined (by omega) ?_
    exact confined_loop hlabels (Leads.append (body.code_leads hcalls _ hvars hbody)
      (optionalDiscarded_leads hcalls hvars _ hstep)) hat.right

/-! ## Methods -/

/-- A function returns values of its result type only. -/
theorem Function.code_returnsOnly {f : Function} (hf : f.WellTyped funs) :
    ReturnsOnly f.signature.ret (lower slot (f.code calls)) := by
  unfold Function.code
  rw [lower_append, lower_append, lower_reserve, List.nil_append]
  refine (codeOfBlock_returnsOnly f.body 0 hf.body).append ?_
  split
  · next h =>
    simp only [Bool.and_eq_true, decide_eq_true_eq] at h
    simp [ReturnsOnly, Op.lower, h.1]
  · simp [ReturnsOnly]

/-- A void function ends in a return, its own or the one put behind its body. -/
theorem Function.ends_in_ret {f : Function} (hvoid : f.signature.ret = .void) :
    ∃ c ty, f.instructions calls = c ++ [Instruction.ret ty] := by
  rw [Function.instructions_eq]
  split
  · exact ⟨_, .void, rfl⟩
  · next h =>
    have hends : endsInReturn (codeOfBlock calls 0 f.body) = true := by simpa [hvoid] using h
    rw [List.append_nil]
    exact lower_of_endsInReturn hends

/-- Control does not get behind the last instruction of the function. -/
theorem Function.confined (hcalls : CallsFit calls funs sigs) {f : Function}
    (hf : f.WellTyped funs) (h : f.outline.Concludes) :
    Confined (f.instructions calls) 0 (f.instructions calls).length := by
  rcases h with hvoid | ⟨o, ho, hnon⟩
  · obtain ⟨c, ty, hcode⟩ := Function.ends_in_ret hvoid
    rw [hcode]
    exact confined_of_ends_in_ret c ty
  · obtain ⟨s, hs, rfl⟩ := mem_outlineBlock.mp ho
    have hlabels : (labelsIn (f.instructions calls)).Nodup := (Function.code_labels hf).nodup
    have hat := codeAt_all (f.instructions calls)
    conv at hat => enter [3]; rw [Function.instructions_eq]
    refine (codeOfBlock_confined hcalls hlabels hs (Stmt.confined hcalls hlabels hnon rfl)
      hf.noVoid_params hf.body hat.left).mono ?_
    rw [Function.instructions_eq, List.length_append]
    omega

/-- In a method that concludes, control never runs off the end: every way through it comes to an
instruction each time, and if it cannot go on from there, that is a return of the method's type. -/
theorem method_never_runs_off {p : Surface.Program} {t : Program} {className : String}
    {calls : CallTable} {f : Surface.Function} {f' : Function} {m : Method}
    (hcheck : checkProgram p = .ok t) (hcalls : callTable className t = .ok calls)
    (hf : (f, f') ∈ p.zip t) (hm : f'.method calls = .ok m) (hends : f.outline.Concludes) :
    ∀ i, Reaches m.body.toList 0 i →
      i < m.body.size ∧
        ((∀ j, ¬ Next m.body.toList i j) → m.body.toList[i]? = some (.ret f.ret)) := by
  obtain ⟨htyped, -⟩ := checkProgram_wellTyped hcheck
  have hfit := callsFit htyped.names hcalls
  have hft := htyped.functions f' (List.of_mem_zip hf).2
  obtain ⟨houtline, -⟩ := faithful_of_mem_zip hcheck hf
  have hret : f'.signature.ret = f.ret := congrArg Outline.Function.ret houtline
  have hleads : Leads (methodTypes className t) (slotIn f'.varTypes) [] [] (f'.code calls) [] :=
    f'.code_leads hfit hft
  rw [← Array.length_toList, Function.method_body hfit hft hm]
  intro i hi
  have hlt := Function.confined hfit hft (houtline ▸ hends) i hi
  refine ⟨hlt, fun hstuck => ?_⟩
  rw [List.getElem?_eq_getElem hlt, ← hret]
  exact congrArg some (Function.code_returnsOnly hft _ (List.getElem_mem hlt)
    (isReturn_of_stuck hleads.targetsOwn hlt hstuck))

/-- `int root(int n) { if (n < 1) { return 0; } else { for (; ; n--) if (n * n < 50) return n; } }`
and a `main` that does nothing. The code of `root` has no instruction behind its last labels. -/
def rootProgram : Surface.Program :=
  let n : Name := ⟨"n", .nowhere⟩
  let int (k : Int32) : Surface.Expr := .const ⟨.int k, .nowhere⟩
  [{ ret := .int
     name := ⟨"root", .nowhere⟩
     params := [⟨.int, n⟩]
     body := [
       .ifElse (.binary ⟨.lt, .nowhere⟩ (.var n) (int 1))
         (.block [.ret .nowhere (some (int 0))])
         (.block [
           .forLoop none none (some (.step .postDecrement n))
             (.ifThen
               (.binary ⟨.lt, .nowhere⟩ (.binary ⟨.mul, .nowhere⟩ (.var n) (.var n)) (int 50))
               (.ret .nowhere (some (.var n))))])] },
   { ret := .void, name := ⟨"main", .nowhere⟩, params := [], body := [] }]

def rootCore : Program := [
  ⟨"root", ⟨.int, [.int]⟩, [⟨⟨0⟩, "n", .int⟩], [
    .ifElse (.binary .lt (.var ⟨0⟩ .int) (.const (.int 1)) .int .bool)
      (.block [.ret (some (.const (.int 0)))])
      (.block [
        .forLoop none none (some (.step .postDecrement ⟨0⟩ .int))
          (.ifThen
            (.binary .lt (.binary .mul (.var ⟨0⟩ .int) (.var ⟨0⟩ .int) .int .int)
              (.const (.int 50)) .int .bool)
            (.ret (some (.var ⟨0⟩ .int))))])]⟩,
  ⟨"main", ⟨.void, []⟩, [], []⟩]

theorem method_never_runs_off_root :
    ∃ calls f f' m, checkProgram rootProgram = .ok rootCore ∧
      callTable "Root" rootCore = .ok calls ∧ (f, f') ∈ rootProgram.zip rootCore ∧
      f'.method calls = .ok m ∧ f.outline.Concludes ∧
      f.ret = .int ∧ m.body.toList.getLast? = some (.label ⟨1⟩) ∧
      ∀ i, Reaches m.body.toList 0 i →
        i < m.body.size ∧
          ((∀ j, ¬ Next m.body.toList i j) → m.body.toList[i]? = some (.ret f.ret)) := by
  have hends : (rootProgram.head (by decide)).outline.Concludes :=
    .inr ⟨_, List.mem_singleton.mpr rfl,
      .ifElse (.block (List.mem_singleton.mpr rfl) .ret)
        (.block (List.mem_singleton.mpr rfl) .forLoop)⟩
  refine ⟨_, _, _, _, rfl, rfl, List.mem_cons_self, (Function.method_eq _ _).trans rfl, hends, rfl,
    rfl, ?_⟩
  exact @method_never_runs_off rootProgram rootCore "Root" _ _ _ _ rfl rfl List.mem_cons_self
    ((Function.method_eq _ _).trans rfl) hends

end Core

end MiniC
