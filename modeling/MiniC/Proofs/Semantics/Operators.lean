import MiniC.Proofs.Semantics.Mirror

/-!
# Operators on the machine

The instructions of an operator do to the words of its operands what the operator does to their
values. A comparison of doubles first leaves an int; the choice between the two instructions for it
makes an unordered pair satisfy no relational operator but `!=`.
-/

namespace MiniC.Jvm.Activation

open MiniC.Core

variable {P : Platform} {m : Module} {a : Activation P} {pc : Nat} {stack : List (Word P)}
  {locals : Locals P} {w : World P} {x y : Value P}

/-! ## Arithmetic -/

theorem intArithmetic_eq {op : BinaryOp} {ar : Arith} (hop : op.isArithmetic = true)
    (har : arith? op = some ar) (i j : Int32) :
    Value.intArithmetic op i j = match ar.onInts i j with
      | some k => .ok k
      | none => .error .trap := by
  cases op <;> cases hop <;> cases har <;> simp only [Value.intArithmetic, Arith.onInts] <;>
    split <;> rfl

theorem doubleArithmetic_eq {op : BinaryOp} {ar : Arith} (hop : op.isArithmetic = true)
    (har : arith? op = some ar) (d e : P.Real) :
    ∃ z, ar.onDoubles d e = some z ∧ Value.doubleArithmetic op d e = .ok z := by
  cases op <;> cases hop <;> cases har <;> exact ⟨_, rfl, rfl⟩

/-- An arithmetic operator gives a value of the type of its operands, or traps. -/
theorem mirrors_arithmetic {op : BinaryOp} {ar : Arith} {s : Core.State P}
    (hop : op.isArithmetic = true) (har : arith? op = some ar) (hx : x.ty.isNumerical = true)
    (hy : y.ty = x.ty) (hcode : a.code[pc]? = some (.arith ar x.ty))
    (hag : Agrees a.vars s.store locals) :
    Mirrors m (a.conf pc (y.words.reverse ++ (x.words.reverse ++ stack)) locals s.world)
      (a.Pushed (pc + 1) stack x.ty) (Eval.ofExcept (Value.binary op x y) s) := by
  have hrel : op.isRelational = false := by
    revert hop
    cases op <;> decide
  cases x <;> cases hx <;> cases y <;> cases hy
  · next i j =>
    rw [Value.binary, hrel, intArithmetic_eq hop har]
    cases hk : ar.onInts i j with
    | some k =>
      refine ⟨_, steps_one hcode ?_, rfl, locals, rfl, hag⟩
      simp only [execute, Value.ty, Value.words, List.reverse_singleton, List.singleton_append, hk]
      rfl
    | none =>
      refine steps_one hcode ?_
      simp only [execute, Value.ty, Value.words, List.reverse_singleton, List.singleton_append, hk]
  · next d e =>
    obtain ⟨z, hz, hvalue⟩ := doubleArithmetic_eq hop har d e
    rw [Value.binary, hrel, hvalue]
    refine ⟨_, steps_one (c := a.conf (pc + 1) ((Value.double z : Value P).words.reverse ++ stack)
      locals s.world) hcode ?_, rfl, locals, rfl, hag⟩
    simp only [execute, Value.ty, Value.words, List.reverse_cons, List.reverse_nil,
      List.nil_append, List.cons_append, hz, Option.bind_some]
    rfl

theorem mirrors_negate {s : Core.State P} (hcode : a.code[pc]? = some (.neg x.ty))
    (hag : Agrees a.vars s.store locals) :
    Mirrors m (a.conf pc (x.words.reverse ++ stack) locals s.world)
      (a.Pushed (pc + 1) stack x.ty) (Eval.ofExcept x.negated s) := by
  cases x
  case int i => exact ⟨_, steps_one hcode rfl, rfl, locals, rfl, hag⟩
  case double d => exact ⟨_, steps_one hcode rfl, rfl, locals, rfl, hag⟩
  all_goals trivial

theorem mirrors_widen {s : Core.State P} (hcode : a.code[pc]? = some .i2d)
    (hag : Agrees a.vars s.store locals) :
    Mirrors m (a.conf pc (x.words.reverse ++ stack) locals s.world)
      (a.Pushed (pc + 1) stack .double) (Eval.ofExcept x.widened s) := by
  cases x
  case int i => exact ⟨_, steps_one hcode rfl, rfl, locals, rfl, hag⟩
  all_goals trivial

/-- One is added to a number, or subtracted from it. -/
theorem steps_stepped (m : Module) (stack : List (Word P)) (locals : Locals P) (w : World P)
    {st : Step} (hx : x.ty.isNumerical = true)
    (hcode : CodeAt a.code pc [if x.ty = .double then .dconst .one else .iconst 1,
      .arith (if st.isIncrement then .add else .sub) x.ty]) :
    ∃ z, x.stepped st = .ok z ∧ z.ty = x.ty ∧
      Steps m (a.conf pc (x.words.reverse ++ stack) locals w)
        (a.conf (pc + 2) (z.words.reverse ++ stack) locals w) := by
  cases x <;> cases hx
  · refine ⟨_, rfl, rfl, (steps_one hcode.head rfl).trans (steps_one hcode.tail.head ?_)⟩
    cases st <;> rfl
  · refine ⟨_, rfl, rfl, (steps_one hcode.head rfl).trans (steps_one hcode.tail.head ?_)⟩
    cases st <;> rfl

/-! ## Comparisons -/

theorem test_ofOrder {op : BinaryOp} {cond : Cond} (h : cond? op = some cond) (i j : Int32) :
    cond.test i j = (Comparison.ofOrder i j).satisfies op := by
  have hlt : i < j ↔ i.toInt < j.toInt := Int32.lt_iff_toInt_lt
  have hgt : j < i ↔ j.toInt < i.toInt := Int32.lt_iff_toInt_lt
  have hle : i ≤ j ↔ i.toInt ≤ j.toInt := Int32.le_iff_toInt_le
  have hge : j ≤ i ↔ j.toInt ≤ i.toInt := Int32.le_iff_toInt_le
  have heq : i = j ↔ i.toInt = j.toInt := Int32.toInt_inj.symm
  unfold Comparison.ofOrder
  cases op <;> cases h <;> simp only [Cond.test, Comparison.satisfies, hlt, hgt, hle, hge, heq,
    ne_eq, decide_eq_decide] <;> split <;> (try split) <;> simp <;> omega

theorem test_ofOrder_bool {op : BinaryOp} {cond : Cond} (h : cond? op = some cond) (b c : Bool) :
    cond.test (if b then 1 else 0) (if c then 1 else 0) =
      (Comparison.ofOrder b c).satisfies op := by
  cases op <;> cases h <;> cases b <;> cases c <;> decide

/-- The int that stands for a comparison of doubles compares with zero as the doubles do. -/
theorem test_comparisonInt {op : BinaryOp} {cond : Cond} (h : cond? op = some cond)
    (c : Comparison) :
    cond.test (comparisonInt (if cond = .lt ∨ cond = .le then 1 else -1) c) 0 =
      c.satisfies op := by
  cases op <;> cases h <;> cases c <;> decide

theorem isRelational_of_cond {op : BinaryOp} {cond : Cond} (h : cond? op = some cond) :
    op.isRelational = true := by
  cases op <;> cases h <;> rfl

/-- A comparison jumps if it holds, and else goes on. -/
theorem steps_compare {op : BinaryOp} {cond : Cond} {l : Label} {j : Nat}
    (hcond : cond? op = some cond) (hx : x.ty.isNumerical = true ∨ x.ty = .bool)
    (hy : y.ty = x.ty) (hcode : CodeAt a.code pc (a.instrs (Jvm.compare cond x.ty l)))
    (hj : a.code[j]? = some (.label l)) :
    ∃ b, Value.binary op x y = .ok (.bool b) ∧
      Steps m (a.conf pc (y.words.reverse ++ (x.words.reverse ++ stack)) locals w)
        (a.conf (if b then j else pc + (a.instrs (Jvm.compare cond x.ty l)).length) stack
          locals w) := by
  have hrel := isRelational_of_cond hcond
  cases x <;> simp [Value.ty, Ty.isNumerical] at hx <;> cases y <;> cases hy
  · next b c =>
    refine ⟨_, by rw [Value.binary, if_pos hrel], steps_one hcode.head ?_⟩
    rw [← test_ofOrder_bool hcond]
    exact branch_eq hj
  · next i k =>
    refine ⟨_, by rw [Value.binary, if_pos hrel], steps_one hcode.head ?_⟩
    rw [← test_ofOrder hcond]
    exact branch_eq hj
  · next d e =>
    -- an int stands for the comparison; unordered doubles get the one that fails the test
    refine ⟨_, by rw [Value.binary, if_pos hrel], ?_⟩
    rw [← test_comparisonInt hcond]
    refine Steps.trans (d := a.conf (pc + 1)
      (.int (comparisonInt (if cond = .lt ∨ cond = .le then 1 else -1) (P.compare d e)) :: stack)
      locals w) (steps_one hcode.head ?_) (steps_one hcode.tail.head (branch_eq hj))
    split <;> rfl

/-! ## Bools -/

/-- The end of a test whose outcome is `b`: it jumped to the label, or it fell through. -/
theorem steps_truth {b : Bool} {l : Label}
    (hcode : CodeAt a.code pc [.pop .bool, .iconst 0, .label l]) :
    Steps m (a.conf (if b then pc + 2 else pc) (.int 1 :: stack) locals w)
      (a.conf (pc + 3) ((Value.bool b : Value P).words.reverse ++ stack) locals w) := by
  cases b with
  | true => exact steps_label hcode.tail.tail.head
  | false =>
    exact ((steps_one hcode.head rfl).trans (steps_one hcode.tail.head rfl)).trans
      (steps_label hcode.tail.tail.head)

theorem int_and (b c : Bool) :
    ((if b then 1 else 0) &&& (if c then 1 else 0) : Int32) = if b && c then 1 else 0 := by
  cases b <;> cases c <;> decide

theorem int_or (b c : Bool) :
    ((if b then 1 else 0) ||| (if c then 1 else 0) : Int32) = if b || c then 1 else 0 := by
  cases b <;> cases c <;> decide

/-- A logical operator jumps if it holds, and else goes on. -/
theorem steps_logical {op : BinaryOp} {ar : Arith} {l : Label} {j : Nat}
    (hop : op.isLogical = true) (har : arith? op = some ar) (hx : x.ty = .bool)
    (hy : y.ty = .bool) (hcode : CodeAt a.code pc [.arith ar .int, .ifZero .ne l])
    (hj : a.code[j]? = some (.label l)) :
    ∃ b, Value.binary op x y = .ok (.bool b) ∧
      Steps m (a.conf pc (y.words.reverse ++ (x.words.reverse ++ stack)) locals w)
        (a.conf (if b then j else pc + 2) stack locals w) := by
  have htest : ∀ b : Bool, Cond.ne.test (if b then 1 else 0) 0 = b := by decide
  cases x <;> cases hx
  cases y <;> cases hy
  next b c =>
  cases op <;> cases hop <;> cases har
  · refine ⟨b && c, rfl, Steps.trans (steps_one hcode.head ?_)
      (steps_ifZero (b := b && c) hcode.tail.head hj (htest _))⟩
    simp only [Value.words, ← int_and]
    rfl
  · refine ⟨b || c, rfl, Steps.trans (steps_one hcode.head ?_)
      (steps_ifZero (b := b || c) hcode.tail.head hj (htest _))⟩
    simp only [Value.words, ← int_or]
    rfl

end MiniC.Jvm.Activation
