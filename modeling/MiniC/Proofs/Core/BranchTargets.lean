import MiniC.Proofs.Core.Completion

/-!
# Where branches lead

A label is no instruction of the machine: it stands for the first instruction behind it. A branch to
a label with nothing but labels behind it leads to the end of the code, where there is nothing to
go on with, and the machine refuses the method even if control never gets to the branch.

Which methods have such a branch can be seen from the text of the function. The last statement that
has any code decides, and only where nothing returns behind it.
-/

namespace MiniC

/-! ## The ends of statements -/

namespace Outline

mutual

/-- The statement has no code. -/
def Stmt.isSilent : Stmt → Bool
  | .declare _ => true
  | .block body => silentBlock body
  | _ => false

def silentBlock : List Stmt → Bool
  | [] => true
  | s :: ss => s.isSilent && silentBlock ss

end

mutual

/-- The last thing in the text of the statement is a `return`. -/
def Stmt.endsInReturn : Stmt → Bool
  | .ret _ => true
  | .block body => blockEndsInReturn body
  | .declare _ | .init _ _ _ | .expr _ | .whileLoop _ _ | .forLoop _ _ _ _ | .ifThen _ _
  | .ifElse _ _ _ => false

def blockEndsInReturn : List Stmt → Bool
  | [] => false
  | s :: ss => if silentBlock ss then s.endsInReturn else blockEndsInReturn ss

end

mutual

/-- Control may be sent behind the statement by a branch. A branch behind the first part of an
`if`-`else` is left out if the text of that part ends in a `return`. -/
def Stmt.dangles : Stmt → Bool
  | .block body => blockDangles body
  | .whileLoop _ _ | .ifThen _ _ => true
  | .forLoop _ c _ _ => c.isSome
  | .ifElse _ thenBranch elseBranch =>
    !thenBranch.endsInReturn || elseBranch.isSilent || elseBranch.dangles
  | .declare _ | .init _ _ _ | .expr _ | .ret _ => false

def blockDangles : List Stmt → Bool
  | [] => false
  | s :: ss => if silentBlock ss then s.dangles else blockDangles ss

end

end Outline

/-! ## Branches in code -/

namespace Jvm

open MiniC.Core

/-- Some instruction may jump to the label. -/
def Targets (c : List Instruction) (l : Label) : Prop := ∃ ins ∈ c, ins.target? = some l

/-- There is more than labels in the code. -/
def HasInstruction (c : List Instruction) : Prop := ∃ ins ∈ c, ins.label? = none

/-- The label is placed, and behind it comes an instruction. -/
def Anchors (c : List Instruction) (l : Label) : Prop :=
  ∃ before behind, c = before ++ .label l :: behind ∧ HasInstruction behind

/-- All branches lead to instructions. -/
def Anchored (c : List Instruction) : Prop := ∀ l, Targets c l → Anchors c l

/-- Some branch leads to the end of the code. -/
def Dangles (c : List Instruction) : Prop :=
  ∃ l before behind, Targets c l ∧ c = before ++ .label l :: behind ∧ ¬ HasInstruction behind

section Branches

variable {c d : List Instruction} {l : Label} {ins : Instruction}

/-- A label is a target in a concatenation exactly when it is one in a part. -/
theorem targets_append : Targets (c ++ d) l ↔ Targets c l ∨ Targets d l := by
  simp only [Targets, List.mem_append, or_and_right, exists_or]

theorem targets_singleton : Targets [ins] l ↔ ins.target? = some l := by simp [Targets]

theorem targetsOwn_iff : TargetsOwn c ↔ ∀ l, Targets c l → .label l ∈ c :=
  ⟨fun h l ⟨ins, hins, hl⟩ => h ins hins l hl, fun h ins hins l hl => h l ⟨ins, hins, hl⟩⟩

theorem HasInstruction.append_left (h : HasInstruction d) (c : List Instruction) :
    HasInstruction (c ++ d) := by
  obtain ⟨ins, hins, hl⟩ := h
  exact ⟨ins, List.mem_append_right c hins, hl⟩

theorem HasInstruction.append_right (h : HasInstruction c) (d : List Instruction) :
    HasInstruction (c ++ d) := by
  obtain ⟨ins, hins, hl⟩ := h
  exact ⟨ins, List.mem_append_left d hins, hl⟩

/-- A label with an instruction somewhere behind it is anchored. -/
theorem anchors_of_mem (hl : .label l ∈ c) (hd : HasInstruction d) : Anchors (c ++ d) l := by
  obtain ⟨before, behind, rfl⟩ := List.append_of_mem hl
  exact ⟨before, behind ++ d, by simp, hd.append_left behind⟩

/-- Code put in front takes no anchor away. -/
theorem Anchors.append_left (h : Anchors d l) (c : List Instruction) : Anchors (c ++ d) l := by
  obtain ⟨before, behind, rfl, hbehind⟩ := h
  exact ⟨c ++ before, behind, by simp, hbehind⟩

theorem Anchors.append_right (h : Anchors c l) (d : List Instruction) : Anchors (c ++ d) l := by
  obtain ⟨before, behind, rfl, hbehind⟩ := h
  exact ⟨before, behind ++ d, by simp, hbehind.append_right d⟩

/-- Whatever the first piece branches to, there is an instruction in the second. -/
theorem Anchored.prepend (h : Anchored d) (hc : TargetsOwn c) (hd : HasInstruction d) :
    Anchored (c ++ d) := by
  intro l hl
  rcases targets_append.mp hl with ⟨ins, hins, hl⟩ | hl
  · exact anchors_of_mem (hc ins hins l hl) hd
  · exact (h l hl).append_left c

/-- Code that branches to its own labels only and ends in an instruction is anchored. -/
theorem anchored_concat (h : TargetsOwn (c ++ [ins])) (hins : ins.label? = none) :
    Anchored (c ++ [ins]) := by
  rintro l ⟨i, hi, hl⟩
  refine anchors_of_mem ?_ ⟨ins, List.mem_singleton.mpr rfl, hins⟩
  rcases List.mem_append.mp (h i hi l hl) with hmem | hmem
  · exact hmem
  · rw [← List.mem_singleton.mp hmem] at hins
    cases hins

/-- A label put behind anchored code leaves it anchored. -/
theorem Anchored.concat_label (h : Anchored c) (l : Label) :
    Anchored (c ++ [Instruction.label l]) := by
  intro l' hl'
  rcases targets_append.mp hl' with hl' | ⟨ins, hins, hl'⟩
  · exact (h l' hl').append_right _
  · rw [List.mem_singleton.mp hins] at hl'
    cases hl'

/-- The jump back is the last instruction of a loop without a way out. -/
theorem anchored_loop {test done : Label} (hc : TargetsOwn c) :
    Anchored (([Instruction.label test] ++ c ++ [Instruction.goto test]) ++
      [Instruction.label done]) := by
  refine Anchored.concat_label (anchored_concat (targetsOwn_iff.mpr fun l hl => ?_) rfl) done
  simp only [targets_append, targets_singleton] at hl
  rcases hl with (hl | hl) | hl
  · cases hl
  · simp [targetsOwn_iff.mp hc l hl]
  · cases hl
    simp

/-- The second way through a choice follows the first, which does not lead behind it. -/
theorem anchored_choice {condition otherwise : List Instruction} {cond : Cond} {done : Label}
    (hcondition : TargetsOwn condition) (hc : TargetsOwn c) (hotherwise : Anchored otherwise)
    (hins : HasInstruction otherwise) :
    Anchored ((condition ++ [Instruction.ifZero cond l] ++ c ++ [Instruction.label l]) ++
      otherwise ++ [Instruction.label done]) := by
  refine Anchored.concat_label (hotherwise.prepend (targetsOwn_iff.mpr fun l' hl => ?_) hins) done
  simp only [targets_append, targets_singleton] at hl
  rcases hl with ((hl | hl) | hl) | hl
  · simp [targetsOwn_iff.mp hcondition l' hl]
  · cases hl
    simp
  · simp [targetsOwn_iff.mp hc l' hl]
  · cases hl

theorem Dangles.append (h : Dangles d) (c : List Instruction) : Dangles (c ++ d) := by
  obtain ⟨l, before, behind, hl, rfl, hbehind⟩ := h
  exact ⟨l, c ++ before, behind, targets_append.mpr (.inr hl), by simp, hbehind⟩

theorem Dangles.concat_label (h : Dangles c) (l : Label) :
    Dangles (c ++ [Instruction.label l]) := by
  obtain ⟨l', before, behind, hl, rfl, hbehind⟩ := h
  refine ⟨l', before, behind ++ [Instruction.label l], targets_append.mpr (.inl hl), by simp, ?_⟩
  rintro ⟨ins, hins, hlabel⟩
  rcases List.mem_append.mp hins with hins | hins
  · exact hbehind ⟨ins, hins, hlabel⟩
  · rw [List.mem_singleton.mp hins] at hlabel
    cases hlabel

/-- A branch to the label at the end dangles. -/
theorem dangles_concat (hins : ins ∈ c) (hl : ins.target? = some l) :
    Dangles (c ++ [Instruction.label l]) :=
  ⟨l, c, [], targets_append.mpr (.inl ⟨ins, hins, hl⟩), rfl, nofun⟩

/-- Where no label is placed twice, a branch leads to the end or to an instruction. -/
theorem Dangles.not_anchored (h : Dangles c) (hlabels : (labelsIn c).Nodup) : ¬ Anchored c := by
  obtain ⟨l, before, behind, hl, rfl, hbehind⟩ := h
  intro hanchored
  obtain ⟨before', behind', heq, hbehind'⟩ := hanchored l hl
  -- both find the same place of the label
  have hlen : before.length = before'.length :=
    index_unique hlabels (l := l) (by simp) (by rw [heq]; simp)
  obtain ⟨-, htail⟩ := List.append_inj heq hlen
  rw [(List.cons.inj htail).2] at hbehind
  exact hbehind hbehind'

end Branches

/-! ## Operations without instructions -/

/-- The operations do nothing but reserve variables. -/
def ReservesOnly (ops : List Op) : Prop := ∀ op ∈ ops, ∃ v ty, op = .reserve v ty

/-- Reserving slots is no instruction. -/
theorem ReservesOnly.lower {ops : List Op} (h : ReservesOnly ops) (slot : VarId → Nat) :
    lower slot ops = [] := by
  refine List.flatMap_eq_nil_iff.mpr fun op hop => ?_
  obtain ⟨v, ty, rfl⟩ := h op hop
  rfl

theorem ReservesOnly.endsInReturn_append {ops : List Op} (h : ReservesOnly ops) (as : List Op) :
    endsInReturn (as ++ ops) = endsInReturn as := by
  unfold endsInReturn
  rw [List.reverse_append, List.find?_append, List.find?_eq_none.mpr, Option.none_or]
  intro op hop
  obtain ⟨v, ty, rfl⟩ := h op (List.mem_reverse.mp hop)
  simp

end Jvm

/-! ## The code of statements -/

namespace Core

open Jvm

variable {calls : CallTable} {funs : FunctionTypes} {sigs : MethodTypes} {slot : VarId → Nat}
  {name : VarId → String} {result : Ty}

mutual

/-- A silent statement generates no instruction, nor any label. -/
theorem Stmt.code_of_isSilent :
    ∀ (s : Stmt) (n : Nat), (s.outline name).isSilent = true → ReservesOnly (s.code calls n)
  | .declare vs, n, _ => by
    rw [Stmt.code]
    intro op hop
    obtain ⟨v, -, rfl⟩ := List.mem_map.mp hop
    exact ⟨v.id, v.ty, rfl⟩
  | .block body, n, h => by
    rw [Stmt.outline, Outline.Stmt.isSilent] at h
    rw [Stmt.code]
    exact codeOfBlock_of_silentBlock body n h

theorem codeOfBlock_of_silentBlock :
    ∀ (ss : List Stmt) (n : Nat), Outline.silentBlock (outlineBlock name ss) = true →
      ReservesOnly (codeOfBlock calls n ss)
  | [], n, _ => by
    rw [codeOfBlock]
    nofun
  | s :: ss, n, h => by
    rw [outlineBlock, Outline.silentBlock, Bool.and_eq_true] at h
    rw [codeOfBlock]
    exact List.forall_mem_append.mpr
      ⟨s.code_of_isSilent n h.1, codeOfBlock_of_silentBlock ss _ h.2⟩

end

/-- An expression without a value is a call. -/
theorem Expr.eq_call_of_void {e : Expr} {vars : VarTypes} (hvars : NoVoid vars)
    (h : e.WellTyped funs vars) (hvoid : e.ty = .void) :
    ∃ f args s, e = .call f args .void ∧ funs f = some s := by
  cases e with
  | const c => cases c <;> cases hvoid
  | var v ty => exact absurd hvoid (hvars.ne_void h)
  | assign v e ty => exact absurd hvoid (hvars.ne_void h.1)
  | call f args ty =>
    obtain ⟨s, hs, -⟩ := h
    cases hvoid
    exact ⟨f, args, s, rfl, hs⟩
  | binary op left right operandTy ty =>
    cases h.1 with
    | arithmetic _ hty => exact absurd hvoid (ne_void_of_isNumerical hty)
    | relational _ _ => cases hvoid
    | logical _ => cases hvoid
  | step s v ty => exact absurd hvoid (hvars.ne_void h.1)
  | negate e ty => exact absurd hvoid (ne_void_of_isNumerical h.2.1)
  | cast target e =>
    obtain ⟨rfl, -⟩ := h
    cases hvoid

/-- The code of a discarded expression ends in an instruction that is not a label. -/
theorem Expr.discarded_concat (hcalls : CallsFit calls funs sigs) {vars : VarTypes}
    (hvars : NoVoid vars) {e : Expr} (h : e.WellTyped funs vars) (n : Nat) :
    ∃ (c : List Instruction) (ins : Instruction),
      lower slot (e.discarded calls n) = c ++ [ins] ∧ ins.label? = none := by
  unfold Expr.discarded
  split
  · next hvoid =>
    obtain ⟨f, args, s, rfl, hs⟩ := Expr.eq_call_of_void hvars h hvoid
    obtain ⟨callee, hcallee, -⟩ := hcalls f s hs
    rw [Expr.code, List.append_nil, lower_append, invoke, hcallee]
    exact ⟨_, _, rfl, rfl⟩
  · rw [lower_append]
    exact ⟨_, _, rfl, rfl⟩

mutual

/-- A statement that is not silent generates an instruction. -/
theorem Stmt.code_hasInstruction (hcalls : CallsFit calls funs sigs) :
    ∀ (s : Stmt) (n : Nat) {vars : VarTypes}, NoVoid vars → s.WellTyped funs result vars →
      (s.outline name).isSilent = false → HasInstruction (lower slot (s.code calls n))
  | .declare vs, n, vars, _, _, h => by
    rw [Stmt.outline, Outline.Stmt.isSilent] at h
    cases h
  | .init v e, n, vars, _, _, _ => by
    rw [Stmt.code, lower_append]
    exact HasInstruction.append_left ⟨_, List.mem_singleton.mpr rfl, rfl⟩ _
  | .expr e, n, vars, hvars, he, _ => by
    obtain ⟨c, ins, hcode, hins⟩ := Expr.discarded_concat hcalls hvars he n
    rw [Stmt.code, hcode]
    exact HasInstruction.append_left ⟨ins, List.mem_singleton.mpr rfl, hins⟩ c
  | .ret none, n, vars, _, _, _ => by
    rw [Stmt.code]
    exact ⟨_, List.mem_singleton.mpr rfl, rfl⟩
  | .ret (some e), n, vars, _, _, _ => by
    rw [Stmt.code, lower_append]
    exact HasInstruction.append_left ⟨_, List.mem_singleton.mpr rfl, rfl⟩ _
  | .block body, n, vars, hvars, hbody, h => by
    rw [Stmt.outline, Outline.Stmt.isSilent] at h
    rw [Stmt.code]
    exact codeOfBlock_hasInstruction hcalls body n hvars hbody h
  | .whileLoop c body, n, vars, _, _, _ => by
    rw [Stmt.code, lower_append]
    exact HasInstruction.append_left ⟨.goto ⟨n⟩, List.mem_cons_self, rfl⟩ _
  | .forLoop init c step body, n, vars, _, _, _ => by
    rw [Stmt.code, lower_append]
    exact HasInstruction.append_left ⟨.goto ⟨n + optionalLabels init⟩, List.mem_cons_self, rfl⟩ _
  | .ifThen c thenBranch, n, vars, _, _, _ => by
    rw [Stmt.code, Expr.branchIfFalse, lower_append, lower_append, lower_append]
    refine HasInstruction.append_right (HasInstruction.append_right ?_ _) _
    exact HasInstruction.append_left ⟨_, List.mem_singleton.mpr rfl, rfl⟩ _
  | .ifElse c thenBranch elseBranch, n, vars, _, _, _ => by
    rw [Stmt.code, Expr.branchIfFalse]
    simp only [lower_append, List.append_assoc]
    refine HasInstruction.append_left (HasInstruction.append_right ?_ _) _
    exact ⟨_, List.mem_singleton.mpr rfl, rfl⟩

theorem codeOfBlock_hasInstruction (hcalls : CallsFit calls funs sigs) :
    ∀ (ss : List Stmt) (n : Nat) {vars : VarTypes}, NoVoid vars →
      BlockWellTyped funs result vars ss → Outline.silentBlock (outlineBlock name ss) = false →
      HasInstruction (lower slot (codeOfBlock calls n ss))
  | [], n, vars, _, _, h => by
    rw [outlineBlock, Outline.silentBlock] at h
    cases h
  | s :: ss, n, vars, hvars, ⟨hs, hss⟩, h => by
    rw [outlineBlock, Outline.silentBlock, Bool.and_eq_false_iff] at h
    rw [codeOfBlock, lower_append]
    rcases h with h | h
    · exact (s.code_hasInstruction hcalls n hvars hs h).append_right _
    · have hvars' := hvars.extend (Stmt.WellTyped.newVars s hs)
      exact (codeOfBlock_hasInstruction hcalls ss _ hvars' hss h).append_left _

end

/-- Where there is an instruction, some operation does more than reserve. -/
theorem exists_op_of_hasInstruction {ops : List Op} (h : HasInstruction (lower slot ops)) :
    ∃ op ∈ ops, ∀ v ty, op ≠ .reserve v ty := by
  obtain ⟨ins, hins, -⟩ := h
  obtain ⟨op, hop, hlower⟩ := List.mem_flatMap.mp hins
  refine ⟨op, hop, fun v ty => ?_⟩
  rintro rfl
  cases hlower

mutual

/-- Whether the code of a statement ends in a return can be seen from its text. -/
theorem Stmt.endsInReturn_code (hcalls : CallsFit calls funs sigs) :
    ∀ (s : Stmt) (n : Nat) {vars : VarTypes}, NoVoid vars → s.WellTyped funs result vars →
      endsInReturn (s.code calls n) = (s.outline name).endsInReturn
  | .declare vs, n, vars, _, _ => by
    rw [Stmt.code, Stmt.outline, Outline.Stmt.endsInReturn]
    exact endsInReturn_reserve vs fun v => (v.id, v.ty)
  | .init v e, n, vars, _, _ => by
    rw [Stmt.code, Stmt.outline, Outline.Stmt.endsInReturn]
    exact endsInReturn_append_right _ (.store v.ty v.id) (by simp) (by simp)
  | .expr e, n, vars, _, _ => by
    rw [Stmt.code, Stmt.outline, Outline.Stmt.endsInReturn]
    exact e.endsInReturn_discarded n
  | .ret none, n, vars, _, _ => by
    rw [Stmt.code, Stmt.outline, Outline.Stmt.endsInReturn]
    rfl
  | .ret (some e), n, vars, _, _ => by
    rw [Stmt.code, Stmt.outline, Outline.Stmt.endsInReturn]
    exact endsInReturn_append_right _ _ (List.mem_singleton.mpr rfl) (by simp)
  | .block body, n, vars, hvars, hbody => by
    rw [Stmt.code, Stmt.outline, Outline.Stmt.endsInReturn]
    exact endsInReturn_codeOfBlock hcalls body n hvars hbody
  | .whileLoop c body, n, vars, _, _ => by
    rw [Stmt.code, Stmt.outline, Outline.Stmt.endsInReturn]
    exact endsInReturn_append_right _ _ List.mem_cons_self (by simp)
  | .forLoop init c step body, n, vars, _, _ => by
    rw [Stmt.code, Stmt.outline, Outline.Stmt.endsInReturn]
    exact endsInReturn_append_right _ _ List.mem_cons_self (by simp)
  | .ifThen c thenBranch, n, vars, _, _ => by
    rw [Stmt.code, Stmt.outline, Outline.Stmt.endsInReturn]
    exact endsInReturn_append_right _ _ List.mem_cons_self (by simp)
  | .ifElse c thenBranch elseBranch, n, vars, _, _ => by
    rw [Stmt.code, Stmt.outline, Outline.Stmt.endsInReturn]
    exact endsInReturn_append_right _ _ List.mem_cons_self (by simp)

/-- Whether the code of a block ends in a return is seen from its outline. -/
theorem endsInReturn_codeOfBlock (hcalls : CallsFit calls funs sigs) :
    ∀ (ss : List Stmt) (n : Nat) {vars : VarTypes}, NoVoid vars →
      BlockWellTyped funs result vars ss →
      endsInReturn (codeOfBlock calls n ss) = Outline.blockEndsInReturn (outlineBlock name ss)
  | [], n, vars, _, _ => by
    rw [codeOfBlock, outlineBlock, Outline.blockEndsInReturn]
    rfl
  | s :: ss, n, vars, hvars, ⟨hs, hss⟩ => by
    have hvars' := hvars.extend (Stmt.WellTyped.newVars s hs)
    rw [codeOfBlock, outlineBlock, Outline.blockEndsInReturn]
    split
    · next hsilent =>
      rw [(codeOfBlock_of_silentBlock ss _ hsilent).endsInReturn_append]
      exact s.endsInReturn_code hcalls n hvars hs
    · next hsilent =>
      rw [Bool.not_eq_true] at hsilent
      have hins : HasInstruction (lower (fun _ => 0) (codeOfBlock calls (n + s.labels) ss)) :=
        codeOfBlock_hasInstruction hcalls ss _ hvars' hss hsilent
      obtain ⟨op, hop, hreserve⟩ := exists_op_of_hasInstruction hins
      rw [endsInReturn_append_right _ op hop hreserve]
      exact endsInReturn_codeOfBlock hcalls ss _ hvars' hss

end

/-! ### Anchored code -/

/-- The branches of a statement lead to labels of its own code. -/
theorem Stmt.code_targetsOwn (hcalls : CallsFit calls funs sigs) (s : Stmt) (n : Nat)
    {vars : VarTypes} (hvars : NoVoid vars) (hs : s.WellTyped funs result vars) :
    TargetsOwn (lower slot (s.code calls n)) :=
  have hleads : Leads sigs slot [] [] (s.code calls n) [] := s.code_leads hcalls n hvars hs
  hleads.targetsOwn

mutual

/-- The code of a statement that does not dangle is anchored, by induction on the statement. -/
theorem Stmt.code_anchored (hcalls : CallsFit calls funs sigs) :
    ∀ (s : Stmt) (n : Nat) {vars : VarTypes}, NoVoid vars → s.WellTyped funs result vars →
      (s.outline name).dangles = false → Anchored (lower slot (s.code calls n))
  | .declare vs, n, vars, _, _, _ => by
    rw [Stmt.code, lower_reserve]
    nofun
  | .init v e, n, vars, hvars, hs, _ => by
    have hown : TargetsOwn (lower slot ((Stmt.init v e).code calls n)) :=
      (Stmt.init v e).code_targetsOwn hcalls n hvars hs
    rw [Stmt.code, lower_append] at hown ⊢
    exact anchored_concat hown rfl
  | .expr e, n, vars, hvars, hs, _ => by
    have hown : TargetsOwn (lower slot ((Stmt.expr e).code calls n)) :=
      (Stmt.expr e).code_targetsOwn hcalls n hvars hs
    obtain ⟨c, ins, hcode, hins⟩ : ∃ (c : List Instruction) (ins : Instruction),
      lower slot (e.discarded calls n) = c ++ [ins] ∧ ins.label? = none :=
        Expr.discarded_concat hcalls hvars hs n
    rw [Stmt.code, hcode] at hown ⊢
    exact anchored_concat hown hins
  | .ret none, n, vars, _, _, _ => by
    rw [Stmt.code]
    exact anchored_concat (c := []) (by simp [TargetsOwn, Instruction.target?]) rfl
  | .ret (some e), n, vars, hvars, hs, _ => by
    have hown : TargetsOwn (lower slot ((Stmt.ret (some e)).code calls n)) :=
      (Stmt.ret (some e)).code_targetsOwn hcalls n hvars hs
    rw [Stmt.code, lower_append] at hown ⊢
    exact anchored_concat hown rfl
  | .block body, n, vars, hvars, hbody, h => by
    rw [Stmt.outline, Outline.Stmt.dangles] at h
    rw [Stmt.code]
    exact codeOfBlock_anchored hcalls body n hvars hbody h
  | .whileLoop c body, n, vars, _, _, h => by
    rw [Stmt.outline, Outline.Stmt.dangles] at h
    cases h
  | .forLoop init (some c) step body, n, vars, _, _, h => by
    rw [Stmt.outline, Outline.Stmt.dangles] at h
    cases h
  | .forLoop init none step body, n, vars, hvars, ⟨hinit, _, hstep, hbody⟩, _ => by
    have hfirst : Leads sigs slot [] [] (optionalCode (Expr.discarded calls n) init) [] :=
      optionalDiscarded_leads hcalls hvars n hinit
    have hround : ∀ j k, Leads sigs slot [] [] (body.code calls j ++
        optionalCode (Expr.discarded calls k) step) [] := fun j k =>
      Leads.append (body.code_leads hcalls j hvars hbody)
        (optionalDiscarded_leads hcalls hvars k hstep)
    rw [Stmt.code_endless, lower_append, lower_append, lower_append]
    -- the label behind the loop is placed as ever, but without a condition nothing branches to it
    refine Anchored.prepend ?_ hfirst.targetsOwn
      (HasInstruction.append_left ⟨.goto _, List.mem_cons_self, rfl⟩ _)
    simpa [Op.lower] using anchored_loop (hround _ _).targetsOwn
  | .ifThen c thenBranch, n, vars, _, _, h => by
    rw [Stmt.outline, Outline.Stmt.dangles] at h
    cases h
  | .ifElse c thenBranch elseBranch, n, vars, hvars, ⟨hc, _, hthen, helse⟩, h => by
    have hvars' := hvars.extend (Stmt.WellTyped.newVars thenBranch hthen)
    rw [Stmt.outline, Outline.Stmt.dangles] at h
    simp only [Bool.or_eq_false_iff, Bool.not_eq_false'] at h
    obtain ⟨⟨hends, hsilent⟩, hdangles⟩ := h
    have hcondition : Leads sigs slot [] [] (c.code calls (n + 2)) (c.ty.cells ++ []) :=
      c.code_leads hcalls hvars _ hc
    have hreturn : endsInReturn (thenBranch.code calls (n + 2 + c.labels)) = true :=
      (thenBranch.endsInReturn_code hcalls _ hvars hthen).trans hends
    rw [Stmt.code, hreturn]
    simp only [if_true, Expr.branchIfFalse, List.append_nil, lower_append]
    exact anchored_choice hcondition.targetsOwn (thenBranch.code_targetsOwn hcalls _ hvars hthen)
      (elseBranch.code_anchored hcalls _ hvars' helse hdangles)
      (elseBranch.code_hasInstruction hcalls _ hvars' helse hsilent)

/-- The same for a block, where the statements behind anchor the branches of those in front. -/
theorem codeOfBlock_anchored (hcalls : CallsFit calls funs sigs) :
    ∀ (ss : List Stmt) (n : Nat) {vars : VarTypes}, NoVoid vars →
      BlockWellTyped funs result vars ss → Outline.blockDangles (outlineBlock name ss) = false →
      Anchored (lower slot (codeOfBlock calls n ss))
  | [], n, vars, _, _, _ => by
    rw [codeOfBlock]
    nofun
  | s :: ss, n, vars, hvars, ⟨hs, hss⟩, h => by
    have hvars' := hvars.extend (Stmt.WellTyped.newVars s hs)
    rw [outlineBlock, Outline.blockDangles] at h
    rw [codeOfBlock, lower_append]
    split at h
    · next hsilent =>
      rw [(codeOfBlock_of_silentBlock ss _ hsilent).lower, List.append_nil]
      exact s.code_anchored hcalls n hvars hs h
    · next hsilent =>
      rw [Bool.not_eq_true] at hsilent
      exact (codeOfBlock_anchored hcalls ss _ hvars' hss h).prepend
        (s.code_targetsOwn hcalls n hvars hs)
        (codeOfBlock_hasInstruction hcalls ss _ hvars' hss hsilent)

end

/-! ### Dangling branches -/

/-- A condition ends in a branch on false. -/
theorem Expr.mem_branchIfFalse (e : Expr) (n : Nat) (l : Label) :
    .ifZero .eq l ∈ lower slot (e.branchIfFalse calls n l) := by
  simp [Expr.branchIfFalse, Op.lower]

mutual

/-- Conversely, the code of a statement that dangles has a branch to its very end. -/
theorem Stmt.code_dangles (hcalls : CallsFit calls funs sigs) :
    ∀ (s : Stmt) (n : Nat) {vars : VarTypes}, NoVoid vars → s.WellTyped funs result vars →
      (s.outline name).dangles = true → Dangles (lower slot (s.code calls n))
  | .block body, n, vars, hvars, hbody, h => by
    rw [Stmt.outline, Outline.Stmt.dangles] at h
    rw [Stmt.code]
    exact codeOfBlock_dangles hcalls body n hvars hbody h
  | .whileLoop c body, n, vars, _, _, _ => by
    rw [Stmt.code, List.append_cons, lower_append]
    refine dangles_concat (?_ : Instruction.ifZero .eq ⟨n + 1⟩ ∈ _) rfl
    simp [c.mem_branchIfFalse]
  | .forLoop init none step body, n, vars, _, _, h => by
    rw [Stmt.outline, Outline.Stmt.dangles] at h
    cases h
  | .forLoop init (some c) step body, n, vars, _, _, _ => by
    rw [Stmt.code, List.append_cons, lower_append]
    refine dangles_concat (?_ : Instruction.ifZero .eq ⟨n + optionalLabels init + 1⟩ ∈ _) rfl
    simp [optionalCode, c.mem_branchIfFalse]
  | .ifThen c thenBranch, n, vars, _, _, _ => by
    rw [Stmt.code, lower_append]
    refine dangles_concat (?_ : Instruction.ifZero .eq ⟨n⟩ ∈ _) rfl
    simp [c.mem_branchIfFalse]
  | .ifElse c thenBranch elseBranch, n, vars, hvars, ⟨_, _, hthen, helse⟩, h => by
    have hvars' := hvars.extend (Stmt.WellTyped.newVars thenBranch hthen)
    rw [Stmt.outline, Outline.Stmt.dangles, Bool.or_eq_true, Bool.or_eq_true,
      Bool.not_eq_true'] at h
    rw [Stmt.code]
    rcases h with (hends | hsilent) | hdangles
    · -- the branch over the second part
      have hreturn : endsInReturn (thenBranch.code calls (n + 2 + c.labels)) = false :=
        (thenBranch.endsInReturn_code hcalls _ hvars hthen).trans hends
      rw [hreturn, lower_append]
      refine dangles_concat (?_ : Instruction.goto ⟨n + 1⟩ ∈ _) rfl
      simp [Op.lower]
    · -- the branch to the second part
      rw [lower_append, lower_append, (elseBranch.code_of_isSilent _ hsilent).lower,
        List.append_nil, lower_append]
      refine Dangles.concat_label (dangles_concat (?_ : Instruction.ifZero .eq ⟨n⟩ ∈ _) rfl) _
      simp [c.mem_branchIfFalse]
    · rw [lower_append, lower_append]
      exact ((elseBranch.code_dangles hcalls _ hvars' helse hdangles).append _).concat_label _

theorem codeOfBlock_dangles (hcalls : CallsFit calls funs sigs) :
    ∀ (ss : List Stmt) (n : Nat) {vars : VarTypes}, NoVoid vars →
      BlockWellTyped funs result vars ss → Outline.blockDangles (outlineBlock name ss) = true →
      Dangles (lower slot (codeOfBlock calls n ss))
  | [], n, vars, _, _, h => by
    rw [outlineBlock, Outline.blockDangles] at h
    cases h
  | s :: ss, n, vars, hvars, ⟨hs, hss⟩, h => by
    have hvars' := hvars.extend (Stmt.WellTyped.newVars s hs)
    rw [outlineBlock, Outline.blockDangles] at h
    rw [codeOfBlock, lower_append]
    split at h
    · next hsilent =>
      rw [(codeOfBlock_of_silentBlock ss _ hsilent).lower, List.append_nil]
      exact s.code_dangles hcalls n hvars hs h
    · exact (codeOfBlock_dangles hcalls ss _ hvars' hss h).append _

end

/-! ## Methods -/

/-- A method whose code ends in a return cannot have a branch to its end. -/
theorem Function.anchored_iff (hcalls : CallsFit calls funs sigs) {f : Function}
    (hf : f.WellTyped funs) :
    Anchored (f.instructions calls) ↔
      f.signature.ret = .void ∨ Outline.blockDangles f.outline.body = false := by
  have hleads : Leads sigs (slotIn f.varTypes) [] [] (f.code calls) [] := f.code_leads hcalls hf
  by_cases hvoid : f.signature.ret = .void
  · obtain ⟨c, ty, hcode⟩ : ∃ c ty, f.instructions calls = c ++ [Instruction.ret ty] :=
      Function.ends_in_ret hvoid
    have hown : TargetsOwn (f.instructions calls) := hleads.targetsOwn
    rw [hcode] at hown ⊢
    exact iff_of_true (anchored_concat hown rfl) (.inl hvoid)
  · have hcode : f.instructions calls =
        lower (slotIn f.varTypes) (codeOfBlock calls 0 f.body) := by
      rw [Function.instructions_eq, decide_eq_false hvoid]
      exact List.append_nil _
    have hlabels : (labelsIn (f.instructions calls)).Nodup := (Function.code_labels hf).nodup
    rw [or_iff_right hvoid]
    cases hdangles : Outline.blockDangles f.outline.body with
    | false =>
      rw [hcode]
      exact iff_of_true (codeOfBlock_anchored hcalls f.body 0 hf.noVoid_params hf.body hdangles) rfl
    | true =>
      have h : Dangles (f.instructions calls) := by
        rw [hcode]
        exact codeOfBlock_dangles hcalls f.body 0 hf.noVoid_params hf.body hdangles
      exact iff_of_false (h.not_anchored hlabels) nofun

/-- All branches of a method lead to instructions if the function gives no result, and otherwise
exactly if nothing is sent behind the last statement of its body that has code. -/
theorem branch_targets_anchored_iff {p : Surface.Program} {t : Program} {className : String}
    {calls : CallTable} {f : Surface.Function} {f' : Function} {m : Method}
    (hcheck : checkProgram p = .ok t) (hcalls : callTable className t = .ok calls)
    (hf : (f, f') ∈ p.zip t) (hm : f'.method calls = .ok m) :
    Anchored m.body.toList ↔ f.ret = .void ∨ Outline.blockDangles f.outline.body = false := by
  obtain ⟨htyped, -⟩ := checkProgram_wellTyped hcheck
  have hfit := callsFit htyped.names hcalls
  have hft := htyped.functions f' (List.of_mem_zip hf).2
  obtain ⟨houtline, -⟩ := faithful_of_mem_zip hcheck hf
  have hret : f'.signature.ret = f.ret := congrArg Outline.Function.ret houtline
  rw [Function.method_body hfit hft hm, Function.anchored_iff hfit hft, houtline, hret]

/-- `int sign(int x) { if (x < 0) return -1; else return 1; }` and a `main` that does nothing. -/
def signProgram : Surface.Program :=
  let x : Name := ⟨"x", .nowhere⟩
  let int (k : Int32) : Surface.Expr := .const ⟨.int k, .nowhere⟩
  [{ ret := .int
     name := ⟨"sign", .nowhere⟩
     params := [⟨.int, x⟩]
     body := [
       .ifElse (.binary ⟨.lt, .nowhere⟩ (.var x) (int 0))
         (.ret .nowhere (some (.negate .nowhere (int 1))))
         (.ret .nowhere (some (int 1)))] },
   { ret := .void, name := ⟨"main", .nowhere⟩, params := [], body := [] }]

def signCore : Program := [
  ⟨"sign", ⟨.int, [.int]⟩, [⟨⟨0⟩, "x", .int⟩], [
    .ifElse (.binary .lt (.var ⟨0⟩ .int) (.const (.int 0)) .int .bool)
      (.ret (some (.negate (.const (.int 1)) .int)))
      (.ret (some (.const (.int 1))))]⟩,
  ⟨"main", ⟨.void, []⟩, [], []⟩]

theorem branch_targets_anchored_sign :
    ∃ calls f f' m, checkProgram signProgram = .ok signCore ∧
      callTable "Sign" signCore = .ok calls ∧ (f, f') ∈ signProgram.zip signCore ∧
      f'.method calls = .ok m ∧ f.ret = .int ∧
      (Anchored m.body.toList ↔ f.ret = .void ∨ Outline.blockDangles f.outline.body = false) ∧
      Anchored m.body.toList := by
  have h := @branch_targets_anchored_iff signProgram signCore "Sign" _ _ _ _ rfl rfl
    List.mem_cons_self ((Function.method_eq _ _).trans rfl)
  exact ⟨_, _, _, _, rfl, rfl, List.mem_cons_self, (Function.method_eq _ _).trans rfl, rfl, h,
    h.mpr (.inr rfl)⟩

/-- `int pick(bool a, bool b) { if (a) { if (b) return 1; else return 2; } else return 3; }` and a
`main` that does nothing. -/
def pickProgram : Surface.Program :=
  let a : Name := ⟨"a", .nowhere⟩
  let b : Name := ⟨"b", .nowhere⟩
  let give (k : Int32) : Surface.Stmt := .ret .nowhere (some (.const ⟨.int k, .nowhere⟩))
  [{ ret := .int
     name := ⟨"pick", .nowhere⟩
     params := [⟨.bool, a⟩, ⟨.bool, b⟩]
     body := [.ifElse (.var a) (.block [.ifElse (.var b) (give 1) (give 2)]) (give 3)] },
   { ret := .void, name := ⟨"main", .nowhere⟩, params := [], body := [] }]

def pickCore : Program :=
  let give (k : Int32) : Stmt := .ret (some (.const (.int k)))
  [⟨"pick", ⟨.int, [.bool, .bool]⟩, [⟨⟨0⟩, "a", .bool⟩, ⟨⟨1⟩, "b", .bool⟩], [
      .ifElse (.var ⟨0⟩ .bool) (.block [.ifElse (.var ⟨1⟩ .bool) (give 1) (give 2)]) (give 3)]⟩,
    ⟨"main", ⟨.void, []⟩, [], []⟩]

/-- The code of `pick`. -/
def pickCode : List Instruction := [
  .load .bool 0, .ifZero .eq ⟨0⟩,
  .load .bool 1, .ifZero .eq ⟨2⟩,
  .iconst 1, .ret .int,
  .label ⟨2⟩, .iconst 2, .ret .int,
  .label ⟨3⟩, .goto ⟨1⟩,
  .label ⟨0⟩, .iconst 3, .ret .int,
  .label ⟨1⟩]

theorem not_anchored_pickCode : ¬ Anchored pickCode := by
  have hgoto : Targets pickCode ⟨1⟩ := ⟨.goto ⟨1⟩, by simp [pickCode], rfl⟩
  have hend : Dangles pickCode := ⟨⟨1⟩, pickCode.dropLast, [], hgoto, rfl, nofun⟩
  exact hend.not_anchored (by decide)

/-- Both parts of the choice return, but the text of the first does not end in a `return`: the
branch behind it is kept, and leads to the end of the code. -/
theorem branch_to_the_end_pick :
    ∃ calls f f' m, checkProgram pickProgram = .ok pickCore ∧
      callTable "Pick" pickCore = .ok calls ∧ (f, f') ∈ pickProgram.zip pickCore ∧
      f'.method calls = .ok m ∧ f.outline.Concludes ∧ m.body.toList = pickCode ∧
      ¬ Anchored m.body.toList := by
  have hends : (pickProgram.head (by decide)).outline.Concludes :=
    .inr ⟨_, List.mem_singleton.mpr rfl,
      .ifElse (.block (List.mem_singleton.mpr rfl) (.ifElse .ret .ret)) .ret⟩
  exact ⟨_, _, _, _, rfl, rfl, List.mem_cons_self, (Function.method_eq _ _).trans rfl, hends, rfl,
    not_anchored_pickCode⟩

end Core

end MiniC
