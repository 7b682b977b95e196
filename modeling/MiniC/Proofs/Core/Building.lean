import Mathlib.Data.List.Induction
import MiniC.Proofs.Core.Code
import MiniC.Proofs.Except

/-!
# What is built is the code

A function is turned into a method in one walk that asks for labels on its way and looks at the
method so far. Its code is a list of operations, in which all labels are numbered beforehand and the
returns are found by looking at the list. The two agree: the walk performs just these operations,
and it takes just as many labels as `labels` counts.
-/

namespace MiniC

namespace Jvm

namespace Method

variable {m m' : Method} {i : Instruction} {n k : Nat}

/-! ## What operations do to a method -/

/-- The method with the labels below `n` given away. -/
def relabel (m : Method) (n : Nat) : Method := { m with nextLabel := n }

/-- What an instruction leaves behind. -/
theorem emit_ok (h : m.emit i = .ok m') :
    m'.body = m.body.push i ∧ m'.slots = m.slots ∧ m'.nextLabel = m.nextLabel := by
  simp only [emit] at h
  split at h
  · cases h
  · cases h
    exact ⟨rfl, rfl, rfl⟩

/-- An instruction that takes nothing from the stack can always be emitted. -/
theorem emit_of_nonneg (m : Method) (h : 0 ≤ i.effect) : ∃ m', m.emit i = .ok m' := by
  simp only [emit]
  rw [if_neg (by omega)]
  exact ⟨_, rfl⟩

/-- What a reservation leaves behind. -/
theorem reserve_ok {v : VarId} {ty : Ty} (h : m.reserve v ty = .ok (n, m')) :
    m'.body = m.body ∧ m'.slot? v = some n ∧ m'.nextLabel = m.nextLabel := by
  unfold reserve at h
  split at h
  · cases h
    exact ⟨rfl, by simp [slot?], rfl⟩
  · cases h

theorem emitAt_of_slot {v : VarId} (m : Method) (h : m.slot? v = some n) (i : Nat → Instruction) :
    m.emitAt v i = m.emit (i n) := by
  simp [emitAt, h]

/-- A variable without a slot cannot be loaded. -/
theorem run_load_of_none {v : VarId} {ty : Ty} (m : Method) (h : m.slot? v = none)
    (ops : List Op) : m.run (.load ty v :: ops) = .error (.unreservedSlot v) := by
  simp only [run, perform, emitAt, h]
  rfl

theorem emit_relabel (m : Method) (i : Instruction) (n : Nat) :
    (m.relabel n).emit i = (m.emit i).map (relabel · n) := by
  by_cases h : (m.depth : Int) + i.effect < 0 <;> simp [emit, relabel, h, Except.map]

theorem emitAt_relabel (m : Method) (v : VarId) (i : Nat → Instruction) (n : Nat) :
    (m.relabel n).emitAt v i = (m.emitAt v i).map (relabel · n) := by
  unfold emitAt
  rw [show (m.relabel n).slot? v = m.slot? v from rfl]
  split
  · exact emit_relabel m _ n
  · rfl

/-- Operations neither give labels away nor look at their number. -/
theorem perform_relabel (m : Method) (op : Op) (n : Nat) :
    (m.relabel n).perform op = (m.perform op).map (relabel · n) := by
  cases op with
  | emit i => exact emit_relabel m i n
  | load ty v | store ty v => exact emitAt_relabel m v _ n
  | reserve v ty =>
    by_cases h : m.locals + ty.words ≤ maxLocals <;>
      simp [perform, reserve, relabel, h, Except.map]
  | fault f => rfl

theorem run_relabel (m : Method) (ops : List Op) (n : Nat) :
    (m.relabel n).run ops = (m.run ops).map (relabel · n) := by
  induction ops generalizing m with
  | nil => rfl
  | cons op ops ih =>
    simp only [run, perform_relabel]
    cases m.perform op with
    | error f => rfl
    | ok m => exact ih m

theorem run_singleton (m : Method) (op : Op) : m.run [op] = m.perform op := by
  simp only [run]
  cases m.perform op <;> rfl

theorem endsInReturn_of_emit (h : m.emit i = .ok m') : m'.endsInReturn = i.isReturn := by
  simp [endsInReturn, (emit_ok h).1]

theorem endsInReturn_of_perform {op : Op} (h : m.perform op = .ok m') :
    m'.endsInReturn = op.endsInReturn m.endsInReturn := by
  have hat : ∀ {v : VarId} {i : Nat → Instruction}, (∀ s, (i s).isReturn = false) →
      m.emitAt v i = .ok m' → m'.endsInReturn = false := by
    intro v i hi h
    unfold emitAt at h
    split at h
    · exact (endsInReturn_of_emit h).trans (hi _)
    · cases h
  cases op with
  | emit i => exact endsInReturn_of_emit h
  | load ty v | store ty v => exact hat (fun _ => rfl) h
  | reserve v ty =>
    obtain ⟨r, hr, rfl⟩ := map_eq_ok.mp h
    simp [endsInReturn, Op.endsInReturn, (reserve_ok hr).1]
  | fault f => cases h

/-- Behind operations that start where no return stands, a return is the last instruction just if it
is the last one of the operations. -/
theorem endsInReturn_of_run {ops : List Op} (hm : m.endsInReturn = false)
    (h : m.run ops = .ok m') : m'.endsInReturn = Jvm.endsInReturn ops := by
  induction ops using List.reverseRecOn generalizing m' with
  | nil =>
    cases h
    exact hm
  | append_singleton ops op ih =>
    rw [run_append] at h
    obtain ⟨m₁, hops, hop⟩ := bind_eq_ok.mp h
    rw [run_singleton] at hop
    rw [endsInReturn_concat, endsInReturn_of_perform hop, ih hops]

/-- Behind operations that end with an instruction, that instruction is the last one. -/
theorem endsInReturn_of_run_emit {ops : List Op} (h : m.run (ops ++ [.emit i]) = .ok m') :
    m'.endsInReturn = i.isReturn := by
  rw [run_append] at h
  obtain ⟨m₁, -, hi⟩ := bind_eq_ok.mp h
  rw [run_singleton] at hi
  exact endsInReturn_of_emit hi

end Method

namespace Build

variable {m : Method} {x y : Build Unit} {as bs ops : List Op} {op : Op} {i : Instruction}
  {v : VarId} {ty : Ty} {n k l : Nat}

/-! ## Steps that perform operations -/

/-- From `m` on, where `n` is the next label, the step `x` performs `ops` and takes `k` labels. -/
def Performs (m : Method) (n : Nat) (x : Build Unit) (k : Nat) (ops : List Op) : Prop :=
  m.nextLabel = n → x m = (m.run ops).map fun m' => ((), m'.relabel (n + k))

theorem Performs.cast (h : Performs m n x k as) (hk : k = l) (hops : as = bs) :
    Performs m n x l bs :=
  hk ▸ hops ▸ h

theorem performs_nil (m : Method) : Performs m n (pure ()) 0 [] := by
  rintro rfl
  rfl

theorem performs_fault (m : Method) (f : Fault) : Performs m n (fault f) k [.fault f] :=
  fun _ => rfl

/-- One step after the other. -/
theorem Performs.bind (hx : Performs m n x k as)
    (hy : ∀ m', m.run as = .ok m' → Performs (m'.relabel (n + k)) (n + k) y l bs) :
    Performs m n (do x; y) (k + l) (as ++ bs) := by
  intro hn
  have hstep : (do x; y : Build Unit) m = (x m).bind fun p => y p.2 := rfl
  rw [hstep, hx hn, Method.run_append]
  cases hm : m.run as with
  | error f => rfl
  | ok m' =>
    refine (hy m' hm rfl).trans ?_
    rw [Method.run_relabel]
    show _ = (m'.run bs).map _
    cases m'.run bs with
    | error f => rfl
    | ok m'' => simp [Except.map, Method.relabel, Nat.add_assoc]

/-- A step that asks for a label first. -/
theorem Performs.newLabel {f : Label → Build Unit}
    (h : Performs (m.relabel (n + 1)) (n + 1) (f ⟨n⟩) k ops) :
    Performs m n (do f (← Build.newLabel)) (1 + k) ops := by
  rintro rfl
  have hstep : (do f (← Build.newLabel)) m = f ⟨m.nextLabel⟩ (m.relabel (m.nextLabel + 1)) := rfl
  rw [hstep, h rfl, Method.run_relabel]
  cases m.run ops with
  | error f => rfl
  | ok m' => simp [Except.map, Method.relabel, Nat.add_assoc]

/-- The instruction of an operation. -/
theorem performs_singleton (hop : m.perform op = m.emit i) :
    Performs m n (Build.emit i) 0 [op] := by
  rintro rfl
  unfold Build.emit
  rw [Method.run_singleton, hop]
  cases h : m.emit i with
  | error f => rfl
  | ok m' =>
    have hlabel : m'.relabel m.nextLabel = m' := by
      rw [← (Method.emit_ok h).2.2]
      rfl
    exact congrArg (fun m => Except.ok ((), m)) hlabel.symm

/-- The instruction of an operation, and then the rest. The slots are still known there. -/
theorem Performs.cons (hop : m.perform op = m.emit i)
    (hy : ∀ m' : Method, m'.slots = m.slots → Performs m' n y k ops) :
    Performs m n (do Build.emit i; y) k (op :: ops) := by
  refine ((performs_singleton hop).bind fun m' hm' => hy (m'.relabel n) ?_).cast
    (Nat.zero_add k) rfl
  rw [Method.run_singleton, hop] at hm'
  exact (Method.emit_ok hm').2.1

theorem performs_emit (m : Method) (n : Nat) (i : Instruction) :
    Performs m n (Build.emit i) 0 [.emit i] :=
  performs_singleton rfl

theorem Performs.emit (hy : ∀ m' : Method, m'.slots = m.slots → Performs m' n y k ops) :
    Performs m n (do Build.emit i; y) k (.emit i :: ops) :=
  Performs.cons rfl hy

theorem performs_store {slot : Nat} (h : m.slot? v = some slot) :
    Performs m n (Build.emit (.store ty slot)) 0 [.store ty v] :=
  performs_singleton (m.emitAt_of_slot h _)

/-- A step that looks for a slot first. -/
theorem Performs.slot {f : Nat → Build Unit}
    (hsome : ∀ s, m.slot? v = some s → Performs m n (f s) k ops)
    (hnone : m.slot? v = none → m.run ops = .error (.unreservedSlot v)) :
    Performs m n (do f (← Build.slot v)) k ops := by
  intro hn
  cases hv : m.slot? v with
  | some s =>
    have hstep : (do f (← Build.slot v)) m = f s m := by
      simp [Bind.bind, StateT.bind, Build.slot, hv, Except.bind]
    exact hstep.trans (hsome s hv hn)
  | none =>
    have hstep : (do f (← Build.slot v)) m = .error (.unreservedSlot v) := by
      simp [Bind.bind, StateT.bind, Build.slot, hv, Except.bind]
    rw [hstep, hnone hv]
    rfl

/-- A step that reserves a slot first. -/
theorem Performs.reserve {f : Nat → Build Unit}
    (h : ∀ (s : Nat) (m' : Method), m'.slot? v = some s → Performs m' n (f s) k ops) :
    Performs m n (do f (← Build.reserve v ty)) k (.reserve v ty :: ops) := by
  intro hn
  have hstep : (do f (← Build.reserve v ty)) m = (m.reserve v ty).bind fun p => f p.1 p.2 := rfl
  have hrun : m.run (.reserve v ty :: ops) = (m.reserve v ty).bind fun p => p.2.run ops := by
    simp only [Method.run, Method.perform]
    cases m.reserve v ty <;> rfl
  rw [hstep, hrun]
  cases hr : m.reserve v ty with
  | error f => rfl
  | ok r =>
    obtain ⟨-, hslot, hlabel⟩ := Method.reserve_ok hr
    exact h r.1 r.2 hslot (hlabel.trans hn)

/-- An instruction that is left out behind a return. -/
theorem performs_unlessReturned {b : Bool} (h : m.endsInReturn = b) :
    Performs m n (emitUnlessReturned i) 0 (if b then [] else [.emit i]) := by
  cases b with
  | true =>
    rintro rfl
    have hstep : emitUnlessReturned i m = .ok ((), m) := if_pos h
    exact hstep
  | false =>
    intro hn
    have hstep : emitUnlessReturned i m = Build.emit i m := if_neg (by simp [h])
    exact hstep.trans (performs_emit m n i hn)

end Build

/-! ## The parts of expressions -/

open Build

variable {m : Method} {n : Nat}

/-- A test and what stands around it. -/
theorem performs_boolean {test : Label → Build Unit} {k : Nat} {ops : List Op}
    (h : ∀ m', Performs m' (n + 1) (test ⟨n⟩) k ops) :
    Performs m n (boolean test) (1 + k) (truth ⟨n⟩ ops) := by
  refine Performs.newLabel (Performs.emit fun m₁ _ => ?_)
  exact ((h m₁).bind fun _ _ => Performs.emit fun _ _ => Performs.emit fun _ _ =>
    performs_emit _ _ _).cast (Nat.add_zero k) rfl

theorem performs_compare (cond : Cond) (operandTy : Ty) (target : Label) :
    Performs m n (buildCompare cond operandTy target) 0 (compare cond operandTy target) := by
  unfold buildCompare compare
  split
  · exact Performs.emit fun _ _ => performs_emit _ _ _
  · exact performs_emit _ _ _

/-- The slot is looked for once, before the first of the two uses. -/
theorem performs_step (s : Step) (v : VarId) (ty : Ty) :
    Performs m n (buildStep s v ty) 0 (stepCode s v ty) := by
  refine Performs.slot (fun slot hslot => ?_) fun hslot => m.run_load_of_none hslot _
  have hload : m.perform (.load ty v) = m.emit (.load ty slot) := m.emitAt_of_slot hslot _
  unfold stepCode
  cases s.isPost with
  | true | false =>
    refine Performs.cons hload fun m₁ h₁ => Performs.emit fun m₂ h₂ =>
      Performs.emit fun m₃ h₃ => Performs.emit fun m₄ h₄ => performs_store ?_
    rw [Method.slot?, h₄, h₃, h₂, h₁]
    exact hslot

/-- The slot is looked for before the value is doubled, which cannot fail. -/
theorem performs_assign (v : VarId) (ty : Ty) :
    Performs m n (do let slot ← Build.slot v; Build.emit (.dup ty); Build.emit (.store ty slot)) 0
      [.emit (.dup ty), .store ty v] := by
  refine Performs.slot (fun slot hslot => ?_) fun hslot => ?_
  · refine Performs.emit fun m₁ h₁ => performs_store ?_
    rw [Method.slot?, h₁]
    exact hslot
  · obtain ⟨m₁, hm₁⟩ := m.emit_of_nonneg (i := .dup ty) (by cases ty <;> decide)
    have hslot₁ : m₁.slot? v = none := by
      rw [Method.slot?, (Method.emit_ok hm₁).2.1]
      exact hslot
    have hrun : m.run [.emit (.dup ty), .store ty v] = (m.emit (.dup ty)).bind fun m' =>
        m'.run [.store ty v] := rfl
    rw [hrun, hm₁]
    show m₁.run [.store ty v] = _
    simp [Method.run_singleton, Method.perform, Method.emitAt, hslot₁]

theorem performs_call (calls : CallTable) (f : String) :
    Performs m n (buildCall calls f) 0 [invoke calls f] := by
  unfold buildCall invoke
  cases calls.lookup f with
  | some c => exact performs_emit _ _ _
  | none => exact performs_fault m _

theorem performs_convert (source target : Ty) :
    Performs m n (buildConvert source target) 0 [convert source target] := by
  unfold buildConvert convert
  split
  · exact performs_emit _ _ _
  · exact performs_fault m _

end Jvm

namespace Core

open Jvm Jvm.Build

variable {calls : CallTable}

/-! ## Expressions -/

mutual

/-- What is built from an expression is its code. -/
theorem Expr.performs (e : Expr) (m : Method) (n : Nat) :
    Performs m n (e.build calls) e.labels (e.code calls n) := by
  cases e with
  | const c => exact performs_emit _ _ _
  | var v ty =>
    refine Performs.slot (fun slot hslot => ?_) fun hslot => m.run_load_of_none hslot _
    exact performs_singleton (m.emitAt_of_slot hslot _)
  | assign v e ty => exact (e.performs m n).bind fun _ _ => performs_assign v ty
  | call f args ty => exact (performs_args args m n).bind fun _ _ => performs_call calls f
  | binary op left right operandTy ty =>
    simp only [Expr.build, Expr.code, Expr.labels]
    cases hcond : cond? op with
    | some cond =>
      have hop : op.isRelational = true := by cases op <;> simp_all [cond?, BinaryOp.isRelational]
      refine (performs_boolean fun m₁ => (left.performs m₁ _).bind fun m₂ _ =>
        (right.performs _ _).bind fun m₃ _ => performs_compare cond operandTy _).cast ?_ ?_
      · simp only [hop, Bool.true_or, if_true]
        omega
      · simp
    | none =>
      have hop : op.isRelational = false := by cases op <;> simp_all [cond?, BinaryOp.isRelational]
      cases arith? op with
      | none => exact performs_fault m _
      | some a =>
        dsimp only
        split
        · next hlogical =>
          refine (performs_boolean fun m₁ => (left.performs m₁ _).bind fun m₂ _ =>
            (right.performs _ _).bind fun m₃ _ => Performs.emit fun m₄ _ =>
              performs_emit _ _ _).cast ?_ ?_
          · simp only [hlogical, Bool.or_true, if_true]
            omega
          · simp
        · next hlogical =>
          refine ((left.performs m n).bind fun m₁ _ => (right.performs _ _).bind fun m₂ _ =>
            performs_emit _ _ _).cast ?_ ?_
          · simp [hop, hlogical]
          · simp
  | step s v ty => exact performs_step s v ty
  | negate e ty => exact (e.performs m n).bind fun _ _ => performs_emit _ _ _
  | cast target e => exact (e.performs m n).bind fun _ _ => performs_convert e.ty target

theorem performs_args (args : List Expr) (m : Method) (n : Nat) :
    Performs m n (buildArgs calls args) (labelsOfArgs args) (codeOfArgs calls n args) := by
  cases args with
  | nil => exact performs_nil m
  | cons e es => exact (e.performs m n).bind fun m₁ _ => performs_args es _ _

end

/-! ## Statements -/

theorem Expr.performs_discarded (e : Expr) (m : Method) (n : Nat) :
    Performs m n (e.buildDiscarded calls) e.labels (e.discarded calls n) := by
  unfold Expr.buildDiscarded Expr.discarded
  refine ((e.performs m n).bind fun m₁ _ => ?_).cast (Nat.add_zero _) rfl
  by_cases hty : e.ty = .void
  · rw [if_neg (by simp [hty]), if_pos hty]
    exact performs_nil _
  · rw [if_pos hty, if_neg hty]
    exact performs_emit _ _ _

theorem Expr.performs_branch (e : Expr) (target : Label) (m : Method) (n : Nat) :
    Performs m n (e.buildBranch calls target) e.labels (e.branchIfFalse calls n target) :=
  (e.performs m n).bind fun _ _ => performs_emit _ _ _

theorem performs_optional {build : Expr → Build Unit} {code : Expr → List Op} {m : Method}
    {n : Nat} (h : ∀ e, Performs m n (build e) e.labels (code e)) (e : Option Expr) :
    Performs m n (buildOptional build e) (optionalLabels e) (optionalCode code e) := by
  cases e with
  | none => exact performs_nil m
  | some e => exact h e

theorem performs_reserves (vars : List VarDecl) (m : Method) (n : Nat) :
    Performs m n (buildReserves vars) 0 (vars.map fun v => .reserve v.id v.ty) := by
  induction vars generalizing m with
  | nil => exact performs_nil m
  | cons v vs ih => exact Performs.reserve fun _ m₁ _ => ih m₁

mutual

/-- What is built from a statement is its code. -/
theorem Stmt.performs (s : Stmt) (m : Method) (n : Nat) :
    Performs m n (s.build calls) s.labels (s.code calls n) := by
  cases s with
  | declare vars => exact performs_reserves vars m n
  | init v e =>
    exact ((e.performs m n).bind fun _ _ => Performs.reserve fun _ _ hslot =>
      performs_store hslot).cast (Nat.add_zero _) rfl
  | expr e => exact e.performs_discarded m n
  | ret value =>
    cases value with
    | none => exact performs_emit _ _ _
    | some e => exact (e.performs m n).bind fun _ _ => performs_emit _ _ _
  | block body => exact performs_block body m n
  | whileLoop c body =>
    refine (Performs.newLabel <| Performs.newLabel <| Performs.emit fun m₁ _ =>
      (c.performs_branch _ m₁ _).bind fun m₂ _ => (body.performs _ _).bind fun m₃ _ =>
        Performs.emit fun m₄ _ => performs_emit _ _ _).cast ?_ ?_
    · simp only [Stmt.labels]
      omega
    · simp [Stmt.code]
  | forLoop init c step body =>
    refine ((performs_optional (fun e => e.performs_discarded m n) init).bind fun m₁ _ =>
      Performs.newLabel <| Performs.newLabel <| Performs.emit fun m₂ _ =>
      (performs_optional (fun e => e.performs_branch _ m₂ _) c).bind fun m₃ _ =>
      (body.performs _ _).bind fun m₄ _ =>
      (performs_optional (fun e => e.performs_discarded _ _) step).bind fun m₅ _ =>
        Performs.emit fun m₆ _ => performs_emit _ _ _).cast ?_ ?_
    · simp only [Stmt.labels]
      omega
    · simp [Stmt.code]
  | ifThen c thenBranch =>
    refine (Performs.newLabel <| (c.performs_branch _ _ _).bind fun m₁ _ =>
      (thenBranch.performs _ _).bind fun m₂ _ => performs_emit _ _ _).cast ?_ ?_
    · simp only [Stmt.labels]
      omega
    · simp [Stmt.code]
  | ifElse c thenBranch elseBranch =>
    refine (Performs.newLabel <| Performs.newLabel <| (c.performs_branch _ _ _).bind fun m₁ h₁ =>
      (thenBranch.performs _ _).bind fun m₂ h₂ => (performs_unlessReturned
        (b := endsInReturn (thenBranch.code calls (n + 1 + 1 + c.labels))) ?_).bind fun m₃ _ =>
      Performs.emit fun m₄ _ => (elseBranch.performs m₄ _).bind fun m₅ _ =>
        performs_emit _ _ _).cast ?_ ?_
    · -- right before the branch stands a jump, so a return behind the branch is its own
      have hjump : (m₁.relabel (n + 1 + 1 + c.labels)).endsInReturn = false :=
        (Method.endsInReturn_of_run_emit h₁ :)
      exact (Method.endsInReturn_of_run hjump h₂ :)
    · simp only [Stmt.labels]
      omega
    · simp [Stmt.code]

theorem performs_block (body : List Stmt) (m : Method) (n : Nat) :
    Performs m n (buildBlock calls body) (labelsOfBlock body) (codeOfBlock calls n body) := by
  cases body with
  | nil => exact performs_nil m
  | cons s ss => exact (s.performs m n).bind fun m₁ _ => performs_block ss _ _

end

/-! ## Functions -/

namespace Function

theorem performs (f : Function) (calls : CallTable) :
    Performs (Method.empty f.spec) 0 (f.build calls) (labelsOfBlock f.body) (f.code calls) := by
  unfold Function.build Function.code
  refine ((performs_reserves f.params _ 0).bind fun m₁ h₁ => (performs_block f.body _ _).bind
    fun m₂ h₂ => (?_ : Performs _ _ _ 0 (if f.signature.ret = .void &&
      !endsInReturn (codeOfBlock calls 0 f.body) then [.emit (.ret .void)] else []))).cast ?_ ?_
  · -- parameters are reserved without an instruction
    have hparams : (m₁.relabel (0 + 0)).endsInReturn = false :=
      (Method.endsInReturn_of_run rfl h₁ :).trans
        (endsInReturn_reserve f.params fun v => (v.id, v.ty))
    have hbody : (m₂.relabel (0 + 0 + labelsOfBlock f.body)).endsInReturn =
        endsInReturn (codeOfBlock calls 0 f.body) := (Method.endsInReturn_of_run hparams h₂ :)
    by_cases hret : f.signature.ret = .void
    · rw [if_pos hret]
      refine (performs_unlessReturned hbody).cast rfl ?_
      cases endsInReturn (codeOfBlock calls 0 f.body) <;> simp [hret]
    · rw [if_neg hret]
      exact (performs_nil _).cast rfl (by simp [hret])
  · simp
  · simp

/-- The method of a function performs its code, and has given away the labels that are counted in
its tree. -/
theorem method_eq (f : Function) (calls : CallTable) :
    f.method calls = ((Method.empty f.spec).run (f.code calls)).map
      fun m => m.relabel (labelsOfBlock f.body) := by
  unfold method
  rw [performs f calls rfl, Nat.zero_add]
  cases (Method.empty f.spec).run (f.code calls) <;> rfl

end Function

end Core

end MiniC
