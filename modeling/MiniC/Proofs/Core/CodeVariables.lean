import MiniC.Proofs.Core.Code
import MiniC.Proofs.Core.Typing
import MiniC.Proofs.Jvm.Lowering

/-!
# Variables in the code of well-typed trees

The code of a piece of a well-typed core tree reserves the variables that the piece declares, uses
only variables that were reserved before, and has no fault.
-/

namespace MiniC.Core

open Jvm

/-! ## The three kinds of operators -/

/-- An arithmetic operator is one operation of the machine. -/
theorem code_arithmetic {op : BinaryOp} (h : op.isArithmetic = true) :
    ∃ a, arith? op = some a ∧ a ≠ .and ∧ a ≠ .or ∧
      ∀ (calls : CallTable) (n : Nat) (left right : Expr) (operandTy ty : Ty),
        (Expr.binary op left right operandTy ty).code calls n =
          left.code calls n ++ right.code calls (n + left.labels) ++
            [.emit (.arith a operandTy)] := by
  cases op <;> simp [BinaryOp.isArithmetic] at h <;>
    exact ⟨_, rfl, by decide, by decide, by
      intros
      simp [Expr.code, cond?, arith?, BinaryOp.isLogical]⟩

/-- A relational operator is a test of a condition. -/
theorem code_relational {op : BinaryOp} (h : op.isRelational = true) :
    ∃ cond, cond? op = some cond ∧
      ∀ (calls : CallTable) (n : Nat) (left right : Expr) (operandTy ty : Ty),
        (Expr.binary op left right operandTy ty).code calls n =
          truth ⟨n⟩ (left.code calls (n + 1) ++ right.code calls (n + 1 + left.labels) ++
            Jvm.compare cond operandTy ⟨n⟩) := by
  cases op <;> simp [BinaryOp.isRelational] at h <;>
    exact ⟨_, rfl, by
      intros
      simp [Expr.code, cond?]⟩

/-- A logical operator combines both operands, and tests the result. -/
theorem code_logical {op : BinaryOp} (h : op.isLogical = true) :
    ∃ a, arith? op = some a ∧
      ∀ (calls : CallTable) (n : Nat) (left right : Expr) (operandTy ty : Ty),
        (Expr.binary op left right operandTy ty).code calls n =
          truth ⟨n⟩ (left.code calls (n + 1) ++ right.code calls (n + 1 + left.labels) ++
            [.emit (.arith a .int), .emit (.ifZero .ne ⟨n⟩)]) := by
  cases op <;> simp [BinaryOp.isLogical] at h <;>
    exact ⟨_, rfl, by
      intros
      simp [Expr.code, cond?, arith?, BinaryOp.isLogical]⟩

/-- Arithmetic takes no label of its own. -/
theorem labels_arithmetic {op : BinaryOp} (h : op.isArithmetic = true) (left right : Expr)
    (operandTy ty : Ty) :
    (Expr.binary op left right operandTy ty).labels = left.labels + right.labels := by
  cases op <;> simp [BinaryOp.isArithmetic] at h <;>
    simp [Expr.labels, BinaryOp.isRelational, BinaryOp.isLogical]

/-- Operations with a truth value take one label of their own. -/
theorem labels_boolean {op : BinaryOp} (h : op.isRelational = true ∨ op.isLogical = true)
    (left right : Expr) (operandTy ty : Ty) :
    (Expr.binary op left right operandTy ty).labels = 1 + left.labels + right.labels := by
  rw [Expr.labels, if_pos (by simpa using h)]

/-! ## Variables -/

/-- Every function that may be called has an entry in the call table, and the method it names has
the function's signature. -/
def CallsFit (calls : CallTable) (funs : FunctionTypes) (sigs : MethodTypes) : Prop :=
  ∀ f s, funs f = some s → ∃ c, calls.lookup f = some c ∧ c.args = s.paramWords ∧
    c.ret = s.ret ∧ sigs c.method = some s

variable {calls : CallTable} {funs : FunctionTypes} {sigs : MethodTypes} {vars : VarTypes}

/-- The code uses reserved variables and reserves none. -/
def Uses (vars : VarTypes) (ops : List Op) : Prop := Placed vars ops ∧ reserved ops = []

/-- Parts that use reserved variables make up code that does. -/
theorem Uses.append {as bs : List Op} (ha : Uses vars as) (hb : Uses vars bs) :
    Uses vars (as ++ bs) := by
  refine ⟨placed_append.mpr ⟨ha.1, ?_⟩, by simp [ha.2, hb.2]⟩
  rw [ha.2, List.append_nil]
  exact hb.1

/-- An instruction that is emitted as it is names no variable. -/
theorem uses_emit (i : Instruction) : Uses vars [.emit i] := ⟨trivial, rfl⟩

theorem uses_store {v : VarId} {ty : Ty} (h : vars[v.index]? = some ty) :
    Uses vars [.store ty v] := ⟨⟨h, trivial⟩, rfl⟩

/-- Making a truth value of a test adds no variable. -/
theorem uses_truth {done : Label} {test : List Op} (h : Uses vars test) :
    Uses vars (truth done test) :=
  ((uses_emit _).append h).append ⟨trivial, rfl⟩

theorem uses_compare (cond : Cond) (operandTy : Ty) (l : Label) :
    Uses vars (Jvm.compare cond operandTy l) := by
  unfold Jvm.compare
  split
  · exact ⟨trivial, rfl⟩
  · exact ⟨trivial, rfl⟩

/-- A step uses its own variable only. -/
theorem uses_stepCode {s : Step} {v : VarId} {ty : Ty} (h : vars[v.index]? = some ty) :
    Uses vars (stepCode s v ty) := by
  cases s <;> exact ⟨⟨h, h, trivial⟩, rfl⟩

/-- A call that fits is emitted, and names no variable. -/
theorem uses_invoke (hcalls : CallsFit calls funs sigs) {f : String} {s : Signature}
    (hf : funs f = some s) : Uses vars [invoke calls f] := by
  obtain ⟨c, hc, -⟩ := hcalls f s hf
  simp only [invoke, hc]
  exact uses_emit _

mutual

/-- The code of a well-typed expression uses variables that are reserved for their types. -/
theorem Expr.code_uses (hcalls : CallsFit calls funs sigs) :
    ∀ (e : Expr) (n : Nat), e.WellTyped funs vars → Uses vars (e.code calls n)
  | .const c, n, _ => by
    rw [Expr.code]
    exact uses_emit _
  | .var v ty, n, h => by
    rw [Expr.code]
    exact ⟨⟨h, trivial⟩, rfl⟩
  | .assign v e ty, n, ⟨hv, _, he⟩ => by
    rw [Expr.code]
    exact (e.code_uses hcalls n he).append ((uses_emit _).append (uses_store hv))
  | .call f args ty, n, ⟨s, hs, _, _, hargs⟩ => by
    rw [Expr.code]
    exact (codeOfArgs_uses hcalls args n hargs).append (uses_invoke hcalls hs)
  | .binary op left right operandTy ty, n, ⟨hop, _, _, hl, hr⟩ => by
    cases hop with
    | arithmetic hop _ =>
      obtain ⟨a, -, -, -, hcode⟩ := code_arithmetic hop
      rw [hcode]
      exact ((left.code_uses hcalls _ hl).append (right.code_uses hcalls _ hr)).append (uses_emit _)
    | relational hop _ =>
      obtain ⟨cond, -, hcode⟩ := code_relational hop
      rw [hcode]
      exact uses_truth (((left.code_uses hcalls _ hl).append
        (right.code_uses hcalls _ hr)).append (uses_compare _ _ _))
    | logical hop =>
      obtain ⟨a, -, hcode⟩ := code_logical hop
      rw [hcode]
      exact uses_truth (((left.code_uses hcalls _ hl).append
        (right.code_uses hcalls _ hr)).append ((uses_emit _).append (uses_emit _)))
  | .step s v ty, n, ⟨hv, _⟩ => by
    rw [Expr.code]
    exact uses_stepCode hv
  | .negate e ty, n, ⟨_, _, he⟩ => by
    rw [Expr.code]
    exact (e.code_uses hcalls n he).append (uses_emit _)
  | .cast target e, n, ⟨htarget, hty, he⟩ => by
    rw [Expr.code]
    refine (e.code_uses hcalls n he).append ?_
    rw [convert, if_pos ⟨hty, htarget⟩]
    exact uses_emit _

theorem codeOfArgs_uses (hcalls : CallsFit calls funs sigs) :
    ∀ (es : List Expr) (n : Nat), ArgsWellTyped funs vars es → Uses vars (codeOfArgs calls n es)
  | [], n, _ => by
    rw [codeOfArgs]
    exact ⟨trivial, rfl⟩
  | e :: es, n, ⟨he, hes⟩ => by
    rw [codeOfArgs]
    exact (e.code_uses hcalls n he).append (codeOfArgs_uses hcalls es _ hes)

end

/-- The code reserves variables of the types `tys` behind `vars`, and uses only reserved ones. -/
def Declares (vars : VarTypes) (ops : List Op) (tys : List Ty) : Prop :=
  Placed vars ops ∧ reserved ops = tys

/-- What the second part reserves comes behind what the first part reserves. -/
theorem Declares.append {as bs : List Op} {tys tys' : List Ty} (ha : Declares vars as tys)
    (hb : Declares (vars ++ tys) bs tys') : Declares vars (as ++ bs) (tys ++ tys') := by
  refine ⟨placed_append.mpr ⟨ha.1, ?_⟩, by simp [ha.2, hb.2]⟩
  rw [ha.2]
  exact hb.1

/-- Code that reserves nothing may stand in front. -/
theorem Uses.append_declares {as bs : List Op} {tys : List Ty} (ha : Uses vars as)
    (hb : Declares vars bs tys) : Declares vars (as ++ bs) tys := by
  have hempty : Declares vars as [] := ha
  exact hempty.append (by rwa [List.append_nil])

theorem Uses.mono {ops : List Op} (h : Uses vars ops) (more : List Ty) :
    Uses (vars ++ more) ops := by
  refine ⟨?_, h.2⟩
  obtain ⟨hp, hr⟩ := h
  induction ops with
  | nil => trivial
  | cons op ops ih =>
    cases op with
    | emit i => exact ih hp hr
    | load ty v | store ty v =>
      refine ⟨?_, ih hp.2 hr⟩
      rw [List.getElem?_append_left (List.getElem?_eq_some_iff.mp hp.1).1]
      exact hp.1
    | reserve v ty => cases hr
    | fault f => exact hp

/-- Code that reserves nothing may stand behind. -/
theorem Declares.append_uses {as bs : List Op} {tys : List Ty} (ha : Declares vars as tys)
    (hb : Uses vars bs) : Declares vars (as ++ bs) tys := by
  have h := ha.append (hb.mono tys)
  rwa [List.append_nil] at h

/-- Declared variables are reserved under their own numbers. -/
theorem declares_reserve {vs : List VarDecl} (h : NewVars vars vs) :
    Declares vars (vs.map fun v => .reserve v.id v.ty) (vs.map VarDecl.ty) := by
  induction vs generalizing vars with
  | nil => exact ⟨trivial, rfl⟩
  | cons v vs ih =>
    obtain ⟨hid, hrest⟩ := h.tail
    obtain ⟨hp, hr⟩ := ih hrest
    exact ⟨⟨hid, hp⟩, by simp [reserved, hr]⟩

theorem Expr.discarded_uses (hcalls : CallsFit calls funs sigs) (e : Expr) (n : Nat)
    (h : e.WellTyped funs vars) : Uses vars (e.discarded calls n) := by
  unfold Expr.discarded
  refine (e.code_uses hcalls n h).append ?_
  split
  · exact ⟨trivial, rfl⟩
  · exact uses_emit _

theorem Expr.branchIfFalse_uses (hcalls : CallsFit calls funs sigs) (e : Expr) (n : Nat)
    (l : Label) (h : e.WellTyped funs vars) : Uses vars (e.branchIfFalse calls n l) :=
  (e.code_uses hcalls n h).append (uses_emit _)

theorem optionalDiscarded_uses (hcalls : CallsFit calls funs sigs) {e : Option Expr} (n : Nat)
    (h : OptionalWellTyped funs vars e) :
    Uses vars (optionalCode (Expr.discarded calls n) e) := by
  cases e with
  | none => exact ⟨trivial, rfl⟩
  | some x => exact x.discarded_uses hcalls n h

theorem optionalBranch_uses (hcalls : CallsFit calls funs sigs) {e : Option Expr} (n : Nat)
    (l : Label) (h : ConditionWellTyped funs vars e) :
    Uses vars (optionalCode (Expr.branchIfFalse calls n l) e) := by
  cases e with
  | none => exact ⟨trivial, rfl⟩
  | some x => exact x.branchIfFalse_uses hcalls n l h.1

mutual

/-- The code of a well-typed statement reserves the variables it declares, in order, and uses only
reserved ones. -/
theorem Stmt.code_declares (hcalls : CallsFit calls funs sigs) {result : Ty} :
    ∀ (s : Stmt) (n : Nat) {vars : VarTypes}, s.WellTyped funs result vars →
      Declares vars (s.code calls n) (s.declared.map VarDecl.ty)
  | .declare vs, n, vars, h => by
    rw [Stmt.code, Stmt.declared]
    exact declares_reserve h
  | .init v e, n, vars, ⟨hnew, _, he⟩ => by
    rw [Stmt.code, Stmt.declared]
    refine (e.code_uses hcalls n he).append_declares ?_
    have hid := hnew.tail.1
    exact ⟨⟨hid, by simp [hid], trivial⟩, rfl⟩
  | .expr e, n, vars, h => by
    rw [Stmt.code, Stmt.declared]
    exact e.discarded_uses hcalls n h
  | .ret none, n, vars, _ => by
    rw [Stmt.code, Stmt.declared]
    exact ⟨trivial, rfl⟩
  | .ret (some e), n, vars, ⟨_, _, he⟩ => by
    rw [Stmt.code, Stmt.declared]
    exact (e.code_uses hcalls n he).append (uses_emit _)
  | .block body, n, vars, h => by
    rw [Stmt.code, Stmt.declared]
    exact codeOfBlock_declares hcalls body n h
  | .whileLoop c body, n, vars, ⟨hc, _, hbody⟩ => by
    rw [Stmt.code, Stmt.declared]
    exact (((uses_emit _).append (c.branchIfFalse_uses hcalls _ _ hc)).append_declares
      (body.code_declares hcalls _ hbody)).append_uses ⟨trivial, rfl⟩
  | .forLoop init c step body, n, vars, ⟨hinit, hc, hstep, hbody⟩ => by
    rw [Stmt.code, Stmt.declared]
    refine Declares.append_uses ?_ ⟨trivial, rfl⟩
    refine Declares.append_uses (Uses.append_declares ?_ (body.code_declares hcalls _ hbody)) ?_
    · refine (Uses.append ?_ (uses_emit _)).append ?_
      · exact optionalDiscarded_uses hcalls _ hinit
      · exact optionalBranch_uses hcalls _ _ hc
    · exact optionalDiscarded_uses hcalls _ hstep
  | .ifThen c thenBranch, n, vars, ⟨hc, _, hthen⟩ => by
    rw [Stmt.code, Stmt.declared]
    exact ((c.branchIfFalse_uses hcalls _ _ hc).append_declares
      (thenBranch.code_declares hcalls _ hthen)).append_uses (uses_emit _)
  | .ifElse c thenBranch elseBranch, n, vars, ⟨hc, _, hthen, helse⟩ => by
    rw [Stmt.code, Stmt.declared, List.map_append]
    refine Declares.append_uses ?_ (uses_emit _)
    refine Declares.append ?_ (elseBranch.code_declares hcalls _ helse)
    refine (((c.branchIfFalse_uses hcalls _ _ hc).append_declares
      (thenBranch.code_declares hcalls _ hthen)).append_uses ?_).append_uses (uses_emit _)
    split
    · exact ⟨trivial, rfl⟩
    · exact uses_emit _

/-- The same for a block. -/
theorem codeOfBlock_declares (hcalls : CallsFit calls funs sigs) {result : Ty} :
    ∀ (ss : List Stmt) (n : Nat) {vars : VarTypes}, BlockWellTyped funs result vars ss →
      Declares vars (codeOfBlock calls n ss) ((declaredIn ss).map VarDecl.ty)
  | [], n, vars, _ => by
    rw [codeOfBlock]
    exact ⟨trivial, rfl⟩
  | s :: ss, n, vars, ⟨hs, hss⟩ => by
    rw [codeOfBlock, declaredIn, List.map_append]
    exact (s.code_declares hcalls n hs).append (codeOfBlock_declares hcalls ss _ hss)

end

end MiniC.Core
