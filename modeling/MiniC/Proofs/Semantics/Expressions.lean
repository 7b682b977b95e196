import MiniC.Proofs.Semantics.Operators

/-!
# The code of expressions mirrors their evaluation

Everything is proved by induction on the fuel of the evaluator. `Mirrored` says what is known of all
runs with a given fuel: the code of a piece of a program, wherever it stands in a method and
whatever is on the stack, does what the evaluator does. This module makes the step to the next fuel
for expressions and arguments.
-/

namespace MiniC.Jvm

open MiniC.Core

variable {P : Platform} {t : Program} {m : Module} {calls : CallTable} {n : Nat}

/-- The module has the code of the program, and each method is found by its name. -/
structure Linked (t : Program) (m : Module) (calls : CallTable) : Prop where
  typed : ProgramWellTyped t
  table : callTable m.className t = .ok calls
  own : ∀ f ∈ t, ∃ x, m.find? (methodName m.className f.name f.signature) = some x ∧
    x.body.toList = f.instructions calls
  builtin : ∀ e ∈ Builtin.signatures, m.find? (methodName m.className e.1 e.2) = none ∧
    m.builtin? (methodName m.className e.1 e.2) = some e

/-- The code of a loop, from its condition on. -/
def loopCode (calls : CallTable) (inCondition inBody inStep : Nat) (test done : Label)
    (c step : Option Expr) (body : Stmt) : List Op :=
  [Op.emit (.label test)] ++ optionalCode (Expr.branchIfFalse calls inCondition done) c ++
    body.code calls inBody ++ optionalCode (Expr.discarded calls inStep) step ++
    [Op.emit (.goto test), .emit (.label done)]

/-- A statement ended: the machine is behind its code, or has returned to the caller. -/
def Activation.Completed (a : Activation P) (pc : Nat) (stack : List (Word P)) (result : Ty)
    (completion : Completion P) (s : Core.State P) (c : Config P) : Prop :=
  match completion with
  | .next => a.Reached pc [] stack s c
  | .returned x => x.ty = result ∧ c = .resume x.words a.callers s.world

section Goals

variable (P : Platform) (t : Program) (m : Module) (calls : CallTable) (n : Nat)

/-- The code of an expression pushes its value. -/
def ExprMirrored (e : Expr) : Prop :=
  ∀ (a : Activation P) (k pc : Nat) (stack : List (Word P)) (locals : Locals P)
    (s : Core.State P), e.WellTyped (functionTypes t) a.vars →
    CodeAt a.code pc (a.instrs (e.code calls k)) → Agrees a.vars s.store locals →
    Mirrors m (a.conf pc stack locals s.world)
      (a.Pushed (pc + (a.instrs (e.code calls k)).length) stack e.ty) (evalExpr t n e s)

/-- The code of arguments pushes their values, one behind the other. -/
def ArgsMirrored (es : List Expr) : Prop :=
  ∀ (a : Activation P) (k pc : Nat) (stack : List (Word P)) (locals : Locals P)
    (s : Core.State P), ArgsWellTyped (functionTypes t) a.vars es →
    CodeAt a.code pc (a.instrs (codeOfArgs calls k es)) → Agrees a.vars s.store locals →
    Mirrors m (a.conf pc stack locals s.world)
      (fun xs s' c => xs.map Value.ty = es.map Expr.ty ∧
        a.Reached (pc + (a.instrs (codeOfArgs calls k es)).length) (xs.flatMap Value.words) stack
          s' c)
      (evalArgs t n es s)

/-- A call replaces the arguments on the stack by the result. -/
def CallMirrored (f : String) (xs : List (Value P)) : Prop :=
  ∀ (a : Activation P) (sig : Signature) (pc : Nat) (stack : List (Word P)) (locals : Locals P)
    (s : Core.State P), functionTypes t f = some sig → xs.map Value.ty = sig.params →
    a.code[pc]? = some (.invoke (methodName m.className f sig) sig.paramWords sig.ret.words) →
    Mirrors m (a.conf pc ((xs.flatMap Value.words).reverse ++ stack) locals s.world)
      (fun x s' c => x.ty = sig.ret ∧ s'.store = s.store ∧
        c = a.conf (pc + 1) (x.words.reverse ++ stack) locals s'.world)
      (Core.call t n f xs s)

def StmtMirrored (st : Stmt) : Prop :=
  ∀ (a : Activation P) (k : Nat) (vars : VarTypes) (result : Ty) (pc : Nat)
    (stack : List (Word P)) (locals : Locals P) (s : Core.State P),
    st.WellTyped (functionTypes t) result vars → vars.extend st.declared <+: a.vars →
    CodeAt a.code pc (a.instrs (st.code calls k)) → Agrees a.vars s.store locals →
    Mirrors m (a.conf pc stack locals s.world)
      (a.Completed (pc + (a.instrs (st.code calls k)).length) stack result) (execStmt t n st s)

def BlockMirrored (ss : List Stmt) : Prop :=
  ∀ (a : Activation P) (k : Nat) (vars : VarTypes) (result : Ty) (pc : Nat)
    (stack : List (Word P)) (locals : Locals P) (s : Core.State P),
    BlockWellTyped (functionTypes t) result vars ss → vars.extend (declaredIn ss) <+: a.vars →
    CodeAt a.code pc (a.instrs (codeOfBlock calls k ss)) → Agrees a.vars s.store locals →
    Mirrors m (a.conf pc stack locals s.world)
      (a.Completed (pc + (a.instrs (codeOfBlock calls k ss)).length) stack result)
      (execBlock t n ss s)

def LoopMirrored (c step : Option Expr) (body : Stmt) : Prop :=
  ∀ (a : Activation P) (i j k : Nat) (test done : Label) (vars : VarTypes) (result : Ty)
    (pc : Nat) (stack : List (Word P)) (locals : Locals P) (s : Core.State P),
    ConditionWellTyped (functionTypes t) vars c → OptionalWellTyped (functionTypes t) vars step →
    body.WellTyped (functionTypes t) result vars → vars.extend body.declared <+: a.vars →
    CodeAt a.code pc (a.instrs (loopCode calls i j k test done c step body)) →
    Agrees a.vars s.store locals →
    Mirrors m (a.conf pc stack locals s.world)
      (a.Completed (pc + (a.instrs (loopCode calls i j k test done c step body)).length) stack
        result)
      (Core.loop t n c step body s)

/-- Runs with the fuel `n` are mirrored. -/
structure Mirrored : Prop where
  expr : ∀ e, ExprMirrored P t m calls n e
  args : ∀ es, ArgsMirrored P t m calls n es
  call : ∀ f xs, CallMirrored P t m n f xs
  stmt : ∀ st, StmtMirrored P t m calls n st
  block : ∀ ss, BlockMirrored P t m calls n ss
  loop : ∀ c step body, LoopMirrored P t m calls n c step body

end Goals

/-! ## Instructions of operations -/

namespace Activation

variable (a : Activation P)

@[simp] theorem instrs_nil : a.instrs [] = [] := rfl

/-- The instructions of two parts are those of each. -/
@[simp] theorem instrs_append (as bs : List Op) :
    a.instrs (as ++ bs) = a.instrs as ++ a.instrs bs :=
  Jvm.lower_append _ as bs

/-- The index behind code that follows other code. -/
theorem behind_append (pc : Nat) (as bs : List Op) :
    pc + (a.instrs (as ++ bs)).length = pc + (a.instrs as).length + (a.instrs bs).length := by
  rw [instrs_append, List.length_append, Nat.add_assoc]

@[simp] theorem instrs_emit (i : Instruction) (ops : List Op) :
    a.instrs (.emit i :: ops) = i :: a.instrs ops := rfl

@[simp] theorem instrs_load (ty : Ty) (v : VarId) (ops : List Op) :
    a.instrs (.load ty v :: ops) = .load ty (slotIn a.vars v) :: a.instrs ops := rfl

@[simp] theorem instrs_store (ty : Ty) (v : VarId) (ops : List Op) :
    a.instrs (.store ty v :: ops) = .store ty (slotIn a.vars v) :: a.instrs ops := rfl

/-- Reserving a slot is no instruction. -/
@[simp] theorem instrs_reserve (v : VarId) (ty : Ty) (ops : List Op) :
    a.instrs (.reserve v ty :: ops) = a.instrs ops := rfl

end Activation

/-! ## Expressions -/

section Expressions

open Activation

variable {a : Activation P} {k pc : Nat} {stack : List (Word P)} {locals : Locals P}
  {s : Core.State P}

/-- Reading a variable is a load of its slot. -/
theorem mirrors_var (v : VarId) (ty : Ty) : ExprMirrored P t m calls (n + 1) (.var v ty) := by
  intro a k pc stack locals s hv hcode hag
  rw [Expr.code, instrs_load] at hcode
  rw [evalExpr, Eval.read]
  cases hx : s.store v with
  | none => trivial
  | some x =>
    obtain ⟨hxv, hfetch⟩ := hag v x hx
    obtain rfl : x.ty = ty := Option.some.inj (hxv.symm.trans hv)
    exact ⟨_, steps_load hcode.head hfetch, rfl, locals, rfl, hag⟩

/-- The value assigned is kept on the stack as well as stored. -/
theorem Mirrored.assign (h : Mirrored P t m calls n) (v : VarId) (e : Expr) (ty : Ty) :
    ExprMirrored P t m calls (n + 1) (.assign v e ty) := by
  rintro a k pc stack locals s ⟨hv, rfl, he⟩ hcode hag
  rw [Expr.code, instrs_append] at hcode
  rw [evalExpr, Expr.code, behind_append]
  refine (h.expr e a k pc stack locals s he hcode.left hag).bind ?_
  rintro x s' c ⟨hx, locals', rfl, hag'⟩
  have hops := hcode.right
  rw [← hx] at hops hv
  refine ⟨_, (steps_dup hops.head (a.noVoid.ne_void hv)).trans (steps_store hops.tail.head), hx,
    _, ?_, hag'.write hv⟩
  rfl

theorem Mirrored.negate (h : Mirrored P t m calls n) (e : Expr) (ty : Ty) :
    ExprMirrored P t m calls (n + 1) (.negate e ty) := by
  rintro a k pc stack locals s ⟨rfl, -, he⟩ hcode hag
  rw [Expr.code, instrs_append] at hcode
  rw [evalExpr, Expr.code, behind_append]
  refine (h.expr e a k pc stack locals s he hcode.left hag).bind ?_
  rintro x s' c ⟨hx, locals', rfl, hag'⟩
  rw [Expr.ty, ← hx]
  exact mirrors_negate (hx ▸ hcode.right.head) hag'

theorem Mirrored.cast (h : Mirrored P t m calls n) (target : Ty) (e : Expr) :
    ExprMirrored P t m calls (n + 1) (.cast target e) := by
  rintro a k pc stack locals s ⟨rfl, hint, he⟩ hcode hag
  have hi2d : convert e.ty .double = .emit .i2d := if_pos ⟨hint, rfl⟩
  rw [Expr.code, instrs_append, hi2d] at hcode
  rw [evalExpr, Expr.code, behind_append, hi2d]
  refine (h.expr e a k pc stack locals s he hcode.left hag).bind ?_
  rintro x s' c ⟨hx, locals', rfl, hag'⟩
  exact mirrors_widen hcode.right.head hag'

/-- Both operands are evaluated, the left one first. -/
theorem Mirrored.operands (h : Mirrored P t m calls n) {left right : Expr} {k' : Nat}
    {goal : Value P → Core.State P → Config P → Prop} {f : Value P → Value P → Eval P (Value P)}
    (hleft : left.WellTyped (functionTypes t) a.vars)
    (hright : right.WellTyped (functionTypes t) a.vars)
    (hcode : CodeAt a.code pc (a.instrs (left.code calls k ++ right.code calls k')))
    (hag : Agrees a.vars s.store locals)
    (hf : ∀ (x y : Value P) (s' : Core.State P) (locals' : Locals P), x.ty = left.ty →
      y.ty = right.ty → Agrees a.vars s'.store locals' →
      Mirrors m (a.conf (pc + (a.instrs (left.code calls k ++ right.code calls k')).length)
        (y.words.reverse ++ (x.words.reverse ++ stack)) locals' s'.world) goal (f x y s')) :
    Mirrors m (a.conf pc stack locals s.world) goal
      ((do let x ← evalExpr t n left; let y ← evalExpr t n right; f x y : Eval P _) s) := by
  rw [instrs_append] at hcode
  refine (h.expr left a k pc stack locals s hleft hcode.left hag).bind ?_
  rintro x s₁ c ⟨hx, locals₁, rfl, hag₁⟩
  refine (h.expr right a k' _ _ locals₁ s₁ hright hcode.right hag₁).bind ?_
  rintro y s₂ c ⟨hy, locals₂, rfl, hag₂⟩
  rw [← behind_append]
  exact hf x y s₂ locals₂ hx hy hag₂

/-- Both operands are on the stack, the right one on top, when the operation is done. -/
theorem Mirrored.arithmetic (h : Mirrored P t m calls n) {op : BinaryOp} (left right : Expr)
    {operandTy : Ty} (hop : op.isArithmetic = true) (hnum : operandTy.isNumerical = true) :
    ExprMirrored P t m calls (n + 1) (.binary op left right operandTy operandTy) := by
  rintro a k pc stack locals s ⟨-, hl, hr, hleft, hright⟩ hcode hag
  obtain ⟨ar, har, -, -, heq⟩ := code_arithmetic hop
  rw [heq, instrs_append] at hcode
  rw [evalExpr, heq, behind_append]
  refine h.operands hleft hright hcode.left hag fun x y s' locals' hx hy hag' => ?_
  obtain rfl : x.ty = operandTy := hx.trans hl
  exact mirrors_arithmetic hop har hnum (hy.trans hr) hcode.right.head hag'

theorem truth_parts {l : Label} {test : List Op}
    (hcode : CodeAt a.code pc (a.instrs (truth l test))) :
    a.code[pc]? = some (.iconst 1) ∧ CodeAt a.code (pc + 1) (a.instrs test) ∧
      CodeAt a.code (pc + 1 + (a.instrs test).length) [.pop .bool, .iconst 0, .label l] := by
  rw [truth, instrs_append, instrs_append, List.append_assoc] at hcode
  exact ⟨hcode.left.head, hcode.right.left, hcode.right.right⟩

/-- What follows a test with the outcome `b`. -/
theorem mirrors_truth {l : Label} {test : List Op} {b : Bool}
    (hcode : CodeAt a.code pc (a.instrs (truth l test)))
    (hag : Agrees a.vars s.store locals) :
    Mirrors m (a.conf (if b then pc + 1 + (a.instrs test).length + 2
        else pc + 1 + (a.instrs test).length) (.int 1 :: stack) locals s.world)
      (a.Pushed (pc + (a.instrs (truth l test)).length) stack .bool)
      (Eval.ofExcept (.ok (.bool b)) s) := by
  obtain ⟨-, -, hend⟩ := truth_parts hcode
  rw [truth, behind_append, behind_append]
  exact ⟨_, steps_truth hend, rfl, locals, rfl, hag⟩

/-- An operator that tests its operands: `last` jumps to the label if the operator holds. -/
theorem Mirrored.tested (h : Mirrored P t m calls n) {op : BinaryOp} {left right : Expr}
    {k' : Nat} {l : Label} {last : List Op} (hleft : left.WellTyped (functionTypes t) a.vars)
    (hright : right.WellTyped (functionTypes t) a.vars)
    (hcode : CodeAt a.code pc
      (a.instrs (truth l (left.code calls k ++ right.code calls k' ++ last))))
    (hag : Agrees a.vars s.store locals)
    (hlast : ∀ (x y : Value P) (i j : Nat) (locals' : Locals P) (w : World P), x.ty = left.ty →
      y.ty = right.ty → CodeAt a.code i (a.instrs last) → a.code[j]? = some (.label l) →
      ∃ b, Value.binary op x y = .ok (.bool b) ∧
        Steps m (a.conf i (y.words.reverse ++ (x.words.reverse ++ .int 1 :: stack)) locals' w)
          (a.conf (if b then j else i + (a.instrs last).length) (.int 1 :: stack) locals' w)) :
    Mirrors m (a.conf pc stack locals s.world)
      (a.Pushed (pc + (a.instrs (truth l (left.code calls k ++ right.code calls k' ++
        last))).length) stack .bool)
      ((do
        let x ← evalExpr t n left
        let y ← evalExpr t n right
        Eval.ofExcept (Value.binary op x y) : Eval P _) s) := by
  obtain ⟨hone, htest, hend⟩ := truth_parts hcode
  rw [instrs_append] at htest
  refine Mirrors.of_steps (steps_one hone rfl) ?_
  change Mirrors m (a.conf (pc + 1) (.int 1 :: stack) locals s.world) _ _
  refine h.operands hleft hright htest.left hag fun x y s' locals' hx hy hag' => ?_
  obtain ⟨b, hb, hsteps⟩ := hlast x y _ _ locals' s'.world hx hy htest.right hend.tail.tail.head
  rw [hb]
  refine Mirrors.of_steps hsteps ?_
  rw [← behind_append]
  exact mirrors_truth hcode hag'

/-- A comparison leaves its truth value, by a branch over the constant for falsehood. -/
theorem Mirrored.relational (h : Mirrored P t m calls n) {op : BinaryOp} (left right : Expr)
    {operandTy : Ty} (hop : op.isRelational = true)
    (hty : operandTy.isNumerical = true ∨ operandTy = .bool) :
    ExprMirrored P t m calls (n + 1) (.binary op left right operandTy .bool) := by
  rintro a k pc stack locals s ⟨-, hl, hr, hleft, hright⟩ hcode hag
  obtain ⟨cond, hcond, heq⟩ := code_relational hop
  rw [heq] at hcode ⊢
  rw [evalExpr]
  refine h.tested hleft hright hcode hag fun x y i j locals' w hx hy hlast hj => ?_
  obtain rfl : x.ty = operandTy := hx.trans hl
  exact steps_compare hcond hty (hy.trans hr) hlast hj

/-- Both operands of a logical operation are evaluated. -/
theorem Mirrored.logical (h : Mirrored P t m calls n) {op : BinaryOp} (left right : Expr)
    (hop : op.isLogical = true) :
    ExprMirrored P t m calls (n + 1) (.binary op left right .bool .bool) := by
  rintro a k pc stack locals s ⟨-, hl, hr, hleft, hright⟩ hcode hag
  obtain ⟨ar, har, heq⟩ := code_logical hop
  rw [heq] at hcode ⊢
  rw [evalExpr]
  refine h.tested hleft hright hcode hag fun x y i j locals' w hx hy hlast hj => ?_
  exact steps_logical hop har (hx.trans hl) (hy.trans hr) hlast hj

/-- A step stores the changed value, and leaves the one before or behind the change. -/
theorem mirrors_step (st : Step) (v : VarId) (ty : Ty) :
    ExprMirrored P t m calls (n + 1) (.step st v ty) := by
  rintro a k pc stack locals s ⟨hv, hnum⟩ hcode hag
  rw [evalExpr]
  change Mirrors m _ _ (EStateM.bind (Eval.read v) _ s)
  unfold EStateM.bind Eval.read
  cases hx : s.store v with
  | none => trivial
  | some x =>
    obtain ⟨hxv, hfetch⟩ := hag v x hx
    obtain rfl : x.ty = ty := Option.some.inj (hxv.symm.trans hv)
    have hvoid := a.noVoid.ne_void hv
    rw [Expr.code] at hcode ⊢
    by_cases hpost : st.isPost = true
    · -- the old value is kept below the new one
      have hcode' : CodeAt a.code pc ([Instruction.load x.ty (slotIn a.vars v), .dup x.ty] ++
          [if x.ty = .double then Instruction.dconst .one else .iconst 1,
            .arith (if st.isIncrement then .add else .sub) x.ty] ++
          [Instruction.store x.ty (slotIn a.vars v)]) := by
        simpa [stepCode, hpost] using hcode
      obtain ⟨z, hz, hzty, hsteps⟩ := steps_stepped m (x.words.reverse ++ stack) locals s.world hnum
        hcode'.left.right
      have hstore := hzty ▸ hcode'.right.head
      simp only [hz, hpost, if_true]
      refine ⟨_, ((steps_load hcode'.head hfetch).trans (steps_dup hcode'.tail.head hvoid)).trans
        (hsteps.trans (steps_store hstore)), rfl, _, ?_, hag.write (hzty ▸ hv)⟩
      simp [stepCode, hpost]
    · -- the new value is copied before it is stored
      have hcode' : CodeAt a.code pc ([Instruction.load x.ty (slotIn a.vars v)] ++
          [if x.ty = .double then Instruction.dconst .one else .iconst 1,
            .arith (if st.isIncrement then .add else .sub) x.ty] ++
          [Instruction.dup x.ty, .store x.ty (slotIn a.vars v)]) := by
        simpa [stepCode, hpost] using hcode
      obtain ⟨z, hz, hzty, hsteps⟩ := steps_stepped m stack locals s.world hnum hcode'.left.right
      have hlast := hzty ▸ hcode'.right
      simp only [hz, hpost]
      refine ⟨_, (steps_load hcode'.head hfetch).trans (hsteps.trans
        ((steps_dup hlast.head (hzty ▸ hvoid)).trans (steps_store hlast.tail.head))), hzty, _, ?_,
        hag.write (hzty ▸ hv)⟩
      simp [stepCode, hpost]

/-- A call runs the method its function was linked to. -/
theorem Mirrored.callExpr (hl : Linked t m calls) (h : Mirrored P t m calls n) (f : String)
    (args : List Expr) (ty : Ty) : ExprMirrored P t m calls (n + 1) (.call f args ty) := by
  rintro a k pc stack locals s ⟨sig, hsig, rfl, htys, hargs⟩ hcode hag
  have hinvoke : invoke calls f =
      .emit (.invoke (methodName m.className f sig) sig.paramWords sig.ret.words) := by
    rw [invoke, lookup_callTable hl.typed.names hl.table hsig]
  rw [Expr.code, instrs_append, hinvoke] at hcode
  rw [evalExpr, Expr.code, behind_append, hinvoke]
  refine (h.args args a k pc stack locals s hargs hcode.left hag).bind ?_
  rintro xs s' c ⟨hxs, locals', rfl, hag'⟩
  refine (h.call f xs a sig _ stack locals' s' hsig (hxs.trans htys) hcode.right.head).mono ?_
  rintro x s'' c ⟨hx, hstore, rfl⟩
  exact ⟨hx, locals', rfl, hstore ▸ hag'⟩

/-- One more round of the evaluator, for expressions. -/
theorem Mirrored.expr_succ (hl : Linked t m calls) (h : Mirrored P t m calls n) (e : Expr) :
    ExprMirrored P t m calls (n + 1) e := by
  cases e with
  | const c =>
    intro a k pc stack locals s _ hcode hag
    exact ⟨_, steps_const c hcode.head, Value.ty_ofConstant c, locals, rfl, hag⟩
  | var v ty => exact mirrors_var v ty
  | assign v e ty => exact h.assign v e ty
  | call f args ty => exact h.callExpr hl f args ty
  | binary op left right operandTy ty =>
    intro a k pc stack locals s htyped
    obtain ⟨hop, -⟩ := id htyped
    cases hop with
    | arithmetic hop hnum => exact h.arithmetic left right hop hnum a k pc stack locals s htyped
    | relational hop hty => exact h.relational left right hop hty a k pc stack locals s htyped
    | logical hop => exact h.logical left right hop a k pc stack locals s htyped
  | step st v ty => exact mirrors_step st v ty
  | negate e ty => exact h.negate e ty
  | cast target e => exact h.cast target e

/-- Arguments are left on the stack from left to right. -/
theorem Mirrored.args_succ (h : Mirrored P t m calls n) (es : List Expr) :
    ArgsMirrored P t m calls (n + 1) es := by
  cases es with
  | nil =>
    intro a k pc stack locals s _ _ hag
    exact Mirrors.pure ⟨rfl, locals, rfl, hag⟩
  | cons e es =>
    rintro a k pc stack locals s ⟨he, hes⟩ hcode hag
    rw [codeOfArgs, instrs_append] at hcode
    rw [evalArgs, codeOfArgs, behind_append]
    refine (h.expr e a k pc stack locals s he hcode.left hag).bind ?_
    rintro x s₁ c ⟨hx, locals₁, rfl, hag₁⟩
    refine (h.args es a _ _ _ locals₁ s₁ hes hcode.right hag₁).bind ?_
    rintro xs s₂ c ⟨hxs, locals₂, rfl, hag₂⟩
    refine Mirrors.pure ⟨by simp [hx, hxs], locals₂, ?_, hag₂⟩
    simp

end Expressions

end MiniC.Jvm
