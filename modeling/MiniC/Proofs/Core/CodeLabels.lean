import MiniC.Proofs.Core.CodeVariables

/-!
# Labels in the code of well-typed trees

The code of a piece of a core tree places as many labels as the tree says (`labels`), numbered from
the number it was given, and each of them once. So no label is placed twice in a method.
-/

namespace MiniC.Core

open Jvm

/-- The labels that instructions place, in the order of the text. -/
def labelsIn (code : List Instruction) : List Label := code.flatMap fun i => i.label?.toList

@[simp] theorem labelsIn_nil : labelsIn [] = [] := rfl

@[simp] theorem labelsIn_append (as bs : List Instruction) :
    labelsIn (as ++ bs) = labelsIn as ++ labelsIn bs := by
  simp [labelsIn]

/-- A label placed somewhere is among the labels of the code. -/
theorem mem_labelsIn {code : List Instruction} {i : Nat} {l : Label}
    (h : code[i]? = some (.label l)) : l ∈ labelsIn code :=
  List.mem_flatMap.mpr ⟨.label l, List.mem_of_getElem? h, by simp [Instruction.label?]⟩

/-- Where no label is placed twice, a label has one index. -/
theorem index_unique {code : List Instruction} (h : (labelsIn code).Nodup) {i j : Nat} {l : Label}
    (hi : code[i]? = some (.label l)) (hj : code[j]? = some (.label l)) : i = j := by
  induction code generalizing i j with
  | nil => simp at hi
  | cons ins code ih =>
    have hcons : labelsIn (ins :: code) = ins.label?.toList ++ labelsIn code := by
      simp [labelsIn]
    rw [hcons] at h
    have hhead : ∀ {k : Nat}, ins = .label l → code[k]? = some (.label l) → False := by
      intro k hins hk
      rw [hins] at h
      exact (List.nodup_cons.mp h).1 (mem_labelsIn hk)
    cases i with
    | zero =>
      cases j with
      | zero => rfl
      | succ j => exact (hhead (by simpa using hi) (by simpa using hj)).elim
    | succ i =>
      cases j with
      | zero => exact (hhead (by simpa using hj) (by simpa using hi)).elim
      | succ j =>
        have hsame : i = j :=
          ih (List.nodup_append.mp h).2.1 (by simpa using hi) (by simpa using hj)
        rw [hsame]

/-- The code places the `k` labels from number `n` on, each of them once, and no others. -/
def PlacesLabels (n k : Nat) (code : List Instruction) : Prop :=
  ∀ i, (labelsIn code).count ⟨i⟩ = if n ≤ i ∧ i < n + k then 1 else 0

/-- No label is placed twice. -/
theorem PlacesLabels.nodup {n k : Nat} {code : List Instruction} (h : PlacesLabels n k code) :
    (labelsIn code).Nodup := by
  rw [List.nodup_iff_count]
  intro l
  rw [h l.index]
  split
  · exact Nat.le_refl 1
  · exact Nat.zero_le 1

theorem placesLabels_of_none {n : Nat} {code : List Instruction} (h : labelsIn code = []) :
    PlacesLabels n 0 code := by
  intro i
  rw [h, if_neg (by omega)]
  rfl

/-- The labels of two parts make up one range if the second begins where the first ends. -/
theorem PlacesLabels.append {n j k : Nat} {as bs : List Instruction} (ha : PlacesLabels n j as)
    (hb : PlacesLabels (n + j) k bs) : PlacesLabels n (j + k) (as ++ bs) := by
  intro i
  rw [labelsIn_append, List.count_append, ha i, hb i]
  grind

variable {calls : CallTable} {funs : FunctionTypes} {sigs : MethodTypes} {vars : VarTypes}
  {slot : VarId → Nat}

/-- Code without labels behind. -/
theorem PlacesLabels.append_none {n k : Nat} {as bs : List Instruction} (ha : PlacesLabels n k as)
    (hb : labelsIn bs = []) : PlacesLabels n k (as ++ bs) :=
  ha.append (placesLabels_of_none hb)

/-- The first label may be placed last. -/
theorem PlacesLabels.append_first {n k : Nat} {code : List Instruction}
    (h : PlacesLabels (n + 1) k code) : PlacesLabels n (1 + k) (code ++ [.label ⟨n⟩]) := by
  intro i
  have hlast : labelsIn [.label ⟨n⟩] = [⟨n⟩] := rfl
  rw [labelsIn_append, List.count_append, h i, hlast, List.count_singleton]
  simp only [beq_iff_eq, Label.mk.injEq]
  grind

/-- A truth value takes its own label before those of the test. -/
theorem placesLabels_truth {n k : Nat} {test : List Op}
    (h : PlacesLabels (n + 1) k (lower slot test)) :
    PlacesLabels n (1 + k) (lower slot (truth ⟨n⟩ test)) := by
  intro i
  rw [← h.append_first i, truth, lower_append, lower_append, labelsIn_append, labelsIn_append,
    labelsIn_append]
  rfl

theorem labelsIn_compare (cond : Cond) (ty : Ty) (l : Label) :
    labelsIn (lower slot (Jvm.compare cond ty l)) = [] := by
  unfold Jvm.compare
  split
  · split <;> rfl
  · rfl

theorem labelsIn_stepCode (s : Step) (v : VarId) (ty : Ty) :
    labelsIn (lower slot (stepCode s v ty)) = [] := by
  by_cases h : ty = .double <;> cases s <;>
    simp [stepCode, Step.isPost, Op.lower, labelsIn, Instruction.label?, h]

theorem labelsIn_invoke (f : String) : labelsIn (lower slot [invoke calls f]) = [] := by
  unfold invoke
  split <;> rfl

theorem labelsIn_convert (source target : Ty) :
    labelsIn (lower slot [convert source target]) = [] := by
  unfold convert
  split <;> rfl

theorem labelsIn_constant (c : Constant) :
    labelsIn (lower slot [.emit (constant c)]) = [] := by
  cases c <;> rfl

mutual

/-- The code of an expression places as many labels as are counted for it, from the given number
on. -/
theorem Expr.code_labels :
    ∀ (e : Expr) (n : Nat), e.WellTyped funs vars →
      PlacesLabels n e.labels (lower slot (e.code calls n))
  | .const c, n, _ => by
    rw [Expr.code, Expr.labels]
    exact placesLabels_of_none (labelsIn_constant c)
  | .var v ty, n, _ => by
    rw [Expr.code, Expr.labels]
    exact placesLabels_of_none rfl
  | .assign v e ty, n, ⟨_, _, he⟩ => by
    rw [Expr.code, Expr.labels, lower_append]
    exact (e.code_labels n he).append_none rfl
  | .call f args ty, n, ⟨_, _, _, _, hargs⟩ => by
    rw [Expr.code, Expr.labels, lower_append]
    exact (codeOfArgs_labels args n hargs).append_none (labelsIn_invoke f)
  | .binary op left right operandTy ty, n, ⟨hop, _, _, hl, hr⟩ => by
    cases hop with
    | arithmetic hop _ =>
      obtain ⟨a, -, -, -, hcode⟩ := code_arithmetic hop
      rw [hcode, labels_arithmetic hop, lower_append, lower_append]
      exact ((left.code_labels n hl).append (right.code_labels _ hr)).append_none rfl
    | relational hop _ =>
      obtain ⟨cond, -, hcode⟩ := code_relational hop
      rw [hcode, labels_boolean (.inl hop), Nat.add_assoc]
      refine placesLabels_truth ?_
      rw [lower_append, lower_append]
      exact ((left.code_labels _ hl).append (right.code_labels _ hr)).append_none
        (labelsIn_compare _ _ _)
    | logical hop =>
      obtain ⟨a, -, hcode⟩ := code_logical hop
      rw [hcode, labels_boolean (.inr hop), Nat.add_assoc]
      refine placesLabels_truth ?_
      rw [lower_append, lower_append]
      exact ((left.code_labels _ hl).append (right.code_labels _ hr)).append_none rfl
  | .step s v ty, n, _ => by
    rw [Expr.code, Expr.labels]
    exact placesLabels_of_none (labelsIn_stepCode s v ty)
  | .negate e ty, n, ⟨_, _, he⟩ => by
    rw [Expr.code, Expr.labels, lower_append]
    exact (e.code_labels n he).append_none rfl
  | .cast target e, n, ⟨_, _, he⟩ => by
    rw [Expr.code, Expr.labels, lower_append]
    exact (e.code_labels n he).append_none (labelsIn_convert _ _)

theorem codeOfArgs_labels :
    ∀ (es : List Expr) (n : Nat), ArgsWellTyped funs vars es →
      PlacesLabels n (labelsOfArgs es) (lower slot (codeOfArgs calls n es))
  | [], n, _ => by
    rw [codeOfArgs, labelsOfArgs]
    exact placesLabels_of_none rfl
  | e :: es, n, ⟨he, hes⟩ => by
    rw [codeOfArgs, labelsOfArgs, lower_append]
    exact (e.code_labels n he).append (codeOfArgs_labels es _ hes)

end

/-! ## Statements -/

theorem Expr.discarded_labels (e : Expr) (n : Nat) (h : e.WellTyped funs vars) :
    PlacesLabels n e.labels (lower slot (e.discarded calls n)) := by
  unfold Expr.discarded
  rw [lower_append]
  refine (e.code_labels n h).append_none ?_
  split <;> rfl

theorem Expr.branchIfFalse_labels (e : Expr) (n : Nat) (l : Label) (h : e.WellTyped funs vars) :
    PlacesLabels n e.labels (lower slot (e.branchIfFalse calls n l)) := by
  unfold Expr.branchIfFalse
  rw [lower_append]
  exact (e.code_labels n h).append_none rfl

theorem optionalDiscarded_labels (calls : CallTable) (slot : VarId → Nat) {e : Option Expr}
    (n : Nat) (h : OptionalWellTyped funs vars e) :
    PlacesLabels n (optionalLabels e)
      (lower slot (optionalCode (Expr.discarded calls n) e)) := by
  cases e with
  | none => exact placesLabels_of_none rfl
  | some x => exact x.discarded_labels n h

theorem optionalBranch_labels (calls : CallTable) (slot : VarId → Nat) {e : Option Expr}
    (n : Nat) (l : Label) (h : ConditionWellTyped funs vars e) :
    PlacesLabels n (optionalLabels e)
      (lower slot (optionalCode (Expr.branchIfFalse calls n l) e)) := by
  cases e with
  | none => exact placesLabels_of_none rfl
  | some x => exact x.branchIfFalse_labels n l h.1

theorem labelsIn_reserve (vs : List VarDecl) :
    labelsIn (lower slot (vs.map fun v => .reserve v.id v.ty)) = [] := by
  rw [lower_reserve]
  rfl

/-- A loop places the labels of its parts between its own two. -/
theorem placesLabels_loop {n j k : Nat} {condition body : List Instruction}
    (hc : PlacesLabels (n + 2) j condition) (hb : PlacesLabels (n + 2 + j) k body) :
    PlacesLabels n (2 + j + k) ([Instruction.label ⟨n⟩] ++ condition ++ body ++
      [Instruction.goto ⟨n⟩, .label ⟨n + 1⟩]) := by
  intro i
  have hparts := (hc.append hb) i
  have hcode : labelsIn ([Instruction.label ⟨n⟩] ++ condition ++ body ++
      [Instruction.goto ⟨n⟩, .label ⟨n + 1⟩]) =
      ⟨n⟩ :: (labelsIn (condition ++ body) ++ [⟨n + 1⟩]) := by
    simp only [labelsIn_append]
    simp [labelsIn, Instruction.label?]
  rw [hcode, List.count_cons, List.count_append, hparts, List.count_singleton]
  simp only [beq_iff_eq, Label.mk.injEq]
  grind

/-- A choice places its own two labels around the second branch. -/
theorem placesLabels_choice {n j k m : Nat} {condition first skip second : List Instruction}
    (hc : PlacesLabels (n + 2) j condition) (hf : PlacesLabels (n + 2 + j) k first)
    (hskip : labelsIn skip = []) (hs : PlacesLabels (n + 2 + j + k) m second) :
    PlacesLabels n (2 + j + k + m) (condition ++ first ++ skip ++ [Instruction.label ⟨n⟩] ++
      second ++ [Instruction.label ⟨n + 1⟩]) := by
  intro i
  have hfirst : labelsIn [.label ⟨n⟩] = [⟨n⟩] := rfl
  have hsecond : labelsIn [.label ⟨n + 1⟩] = [⟨n + 1⟩] := rfl
  simp only [labelsIn_append, List.count_append, hc i, hf i, hskip, List.count_nil, hfirst, hs i,
    hsecond, List.count_singleton, beq_iff_eq, Label.mk.injEq]
  grind

mutual

/-- The same for a statement, whose labels may be placed in another order than they were taken. -/
theorem Stmt.code_labels {result : Ty} :
    ∀ (s : Stmt) (n : Nat) {vars : VarTypes}, s.WellTyped funs result vars →
      PlacesLabels n s.labels (lower slot (s.code calls n))
  | .declare vs, n, vars, _ => by
    rw [Stmt.code, Stmt.labels]
    exact placesLabels_of_none (labelsIn_reserve vs)
  | .init v e, n, vars, ⟨_, _, he⟩ => by
    rw [Stmt.code, Stmt.labels, lower_append]
    exact (e.code_labels n he).append_none rfl
  | .expr e, n, vars, h => by
    rw [Stmt.code, Stmt.labels]
    exact e.discarded_labels n h
  | .ret none, n, vars, _ => by
    rw [Stmt.code, Stmt.labels]
    exact placesLabels_of_none rfl
  | .ret (some e), n, vars, ⟨_, _, he⟩ => by
    rw [Stmt.code, Stmt.labels, lower_append]
    exact (e.code_labels n he).append_none rfl
  | .block body, n, vars, h => by
    rw [Stmt.code, Stmt.labels]
    exact codeOfBlock_labels body n h
  | .whileLoop c body, n, vars, ⟨hc, _, hbody⟩ => by
    rw [Stmt.code, Stmt.labels]
    simp only [lower_append]
    exact placesLabels_loop (c.branchIfFalse_labels _ _ hc) (body.code_labels _ hbody)
  | .forLoop init c step body, n, vars, ⟨hinit, hc, hstep, hbody⟩ => by
    have hloop := fun l => placesLabels_loop
      (optionalBranch_labels calls slot (n + optionalLabels init + 2) l hc)
      ((body.code_labels _ hbody).append (optionalDiscarded_labels calls slot _ hstep))
    have hall := fun l => (optionalDiscarded_labels calls slot n hinit).append (hloop l)
    rw [Stmt.code, Stmt.labels]
    simp only [lower_append, List.append_assoc, Nat.add_assoc] at hall ⊢
    exact hall _
  | .ifThen c thenBranch, n, vars, ⟨hc, _, hthen⟩ => by
    rw [Stmt.code, Stmt.labels, lower_append, lower_append, Nat.add_assoc]
    exact ((c.branchIfFalse_labels _ _ hc).append (thenBranch.code_labels _ hthen)).append_first
  | .ifElse c thenBranch elseBranch, n, vars, ⟨hc, _, hthen, helse⟩ => by
    rw [Stmt.code, Stmt.labels]
    simp only [lower_append]
    refine placesLabels_choice (c.branchIfFalse_labels _ _ hc) (thenBranch.code_labels _ hthen) ?_
      (elseBranch.code_labels _ helse)
    split <;> rfl

/-- The same for a block, whose statements take their labels one behind the other. -/
theorem codeOfBlock_labels {result : Ty} :
    ∀ (ss : List Stmt) (n : Nat) {vars : VarTypes}, BlockWellTyped funs result vars ss →
      PlacesLabels n (labelsOfBlock ss) (lower slot (codeOfBlock calls n ss))
  | [], n, vars, _ => by
    rw [codeOfBlock, labelsOfBlock]
    exact placesLabels_of_none rfl
  | s :: ss, n, vars, ⟨hs, hss⟩ => by
    rw [codeOfBlock, labelsOfBlock, lower_append]
    exact (s.code_labels n hs).append (codeOfBlock_labels ss _ hss)

end

end MiniC.Core
