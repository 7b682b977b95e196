import Mathlib.Data.Finset.Lattice.Fold
import Mathlib.Data.Finset.Range
import Mathlib.Order.Lattice.Nat
import MiniC.Proofs.Core.CodeFunction

/-!
# Operand stacks of methods

Every index of a method's body has one stack type, and with it the operand stack is the same on all
ways to that index: the machine never misses an operand, and never meets a stack of another height
or with other kinds of values. The depth that is counted while a method is built, instruction by
instruction in the order of the text, is the width of that stack type, so that the greatest depth
counted is exactly what the method needs.
-/

namespace MiniC

namespace Jvm

/-! ## Stack types by index -/

variable {sigs : MethodTypes} {σ τ ρ : StackTy} {is : List Instruction}

/-- The stack type in front of the instruction with index `i`. -/
def stackAt (sigs : MethodTypes) (σ : StackTy) (is : List Instruction) (i : Nat) : StackTy :=
  (flow sigs σ (is.take i)).getD []

theorem flow_take (h : flow sigs σ is = some τ) (i : Nat) :
    flow sigs σ (is.take i) = some (stackAt sigs σ is i) := by
  unfold stackAt
  rw [← List.take_append_drop i is, flow_append] at h
  obtain ⟨ρ, hρ, -⟩ := Option.bind_eq_some_iff.mp h
  rw [hρ]
  rfl

/-- The code flows from each index to the next. -/
theorem stackAfter_stackAt (h : flow sigs σ is = some τ) {i : Nat} {ins : Instruction}
    (hi : is[i]? = some ins) :
    ins.stackAfter sigs (stackAt sigs σ is i) = some (stackAt sigs σ is (i + 1)) := by
  have hnext := flow_take h (i + 1)
  rw [List.take_add_one, hi, flow_append, flow_take h i] at hnext
  simpa [flow, Option.bind_some] using hnext

theorem stackAt_length (h : flow sigs σ is = some τ) : stackAt sigs σ is is.length = τ := by
  have hall := flow_take h is.length
  rw [List.take_length, h] at hall
  exact (Option.some.inj hall).symm

theorem mem_jumps (h : flow sigs σ is = some τ) {i : Nat} {ins : Instruction} {l : Label}
    (hi : is[i]? = some ins) (hl : ins.target? = some l) :
    (l, stackAt sigs σ is (i + 1)) ∈ jumps sigs σ is := by
  have hafter := stackAfter_stackAt h hi
  have hsplit : is = is.take i ++ ins :: is.drop (i + 1) := by
    obtain ⟨hlt, rfl⟩ := List.getElem?_eq_some_iff.mp hi
    simp
  rw [hsplit, jumps_append (flow_take h i), ← hsplit]
  simp [jumps, hafter, hl]

theorem exists_of_mem_placements {l : Label} (h : (l, ρ) ∈ placements sigs σ is) :
    ∃ j, is[j]? = some (.label l) ∧ stackAt sigs σ is j = ρ := by
  induction is generalizing σ with
  | nil => cases h
  | cons i is ih =>
    rcases List.mem_append.mp h with hhead | htail
    · refine ⟨0, ?_, ?_⟩
      · cases i with
        | label l' =>
          simp only [Instruction.label?, Option.map_some, Option.toList_some, List.mem_singleton,
            Prod.mk.injEq] at hhead
          simp [hhead.1]
        | _ => simp [Instruction.label?] at hhead
      · obtain ⟨l', -, heq⟩ := Option.map_eq_some_iff.mp (Option.mem_toList.mp hhead)
        cases heq
        rfl
    · cases hi : i.stackAfter sigs σ with
      | none => simp [hi] at htail
      | some τ =>
        rw [hi] at htail
        obtain ⟨j, hj, hstack⟩ := ih htail
        refine ⟨j + 1, by simpa using hj, ?_⟩
        rw [← hstack]
        simp [stackAt, flow, hi]

/-- The greatest width is the least bound of the widths behind all instructions. -/
theorem peak_le_iff (h : flow sigs σ is = some τ) {M : Nat} :
    peak sigs σ is ≤ M ↔ ∀ i < is.length, width (stackAt sigs σ is (i + 1)) ≤ M := by
  induction is generalizing σ with
  | nil => simp [peak]
  | cons i is ih =>
    simp only [flow, Option.bind_eq_some_iff] at h
    obtain ⟨ρ, hρ, h⟩ := h
    have hshift : ∀ j, stackAt sigs σ (i :: is) (j + 1) = stackAt sigs ρ is j := by
      intro j
      simp [stackAt, flow, hρ]
    simp only [peak, hρ, Option.elim_some, Nat.max_le, ih h, hshift, List.length_cons]
    constructor
    · rintro ⟨hfirst, hrest⟩ j hj
      cases j with
      | zero => simpa [stackAt, flow] using hfirst
      | succ j => exact hrest j (by omega)
    · intro hall
      refine ⟨?_, fun j hj => hall (j + 1) (by omega)⟩
      simpa [stackAt, flow] using hall 0 (by omega)

/-- Code that starts and ends with an empty stack needs just the widths at its indices. -/
theorem peak_eq_sup (h : flow sigs [] is = some []) :
    peak sigs [] is = (Finset.range is.length).sup fun i => width (stackAt sigs [] is i) := by
  apply Nat.le_antisymm
  · rw [peak_le_iff h]
    intro i hi
    -- the width behind the last instruction is none of the widths at indices, but it is zero
    by_cases hlast : i + 1 = is.length
    · rw [hlast, stackAt_length h]
      exact Nat.zero_le _
    · exact Finset.le_sup (f := fun i => width (stackAt sigs [] is i))
        (Finset.mem_range.mpr (by omega))
  · refine Finset.sup_le fun i hi => ?_
    cases i with
    | zero => exact Nat.zero_le _
    | succ i =>
      have hi' := Finset.mem_range.mp hi
      exact (peak_le_iff h).mp (Nat.le_refl _) i (by omega)

/-- Operand stacks as `stack` says, for every instruction of `body`: it finds the operands it takes,
and leaves what the next instruction and every label it may jump to expect. -/
structure Disciplined (sigs : MethodTypes) (body : List Instruction) (stack : Nat → StackTy) :
    Prop where
  entry : stack 0 = []
  next : ∀ (i : Nat) (ins : Instruction), body[i]? = some ins →
    ins.stackAfter sigs (stack i) = some (stack (i + 1))
  target : ∀ (i : Nat) (ins : Instruction) (l : Label), body[i]? = some ins →
    ins.target? = some l → (∃ j : Nat, body[j]? = some (.label l)) ∧
      ∀ j : Nat, body[j]? = some (.label l) → stack j = stack (i + 1)

/-- Consistent code that places no label twice. -/
theorem disciplined_stackAt (h : Consistent sigs [] [] is τ) (hlabels : (Core.labelsIn is).Nodup) :
    Disciplined sigs is (stackAt sigs [] is) where
  entry := rfl
  next := fun _ _ hi => stackAfter_stackAt h.flow hi
  target := by
    intro i ins l hi hl
    -- the jump arrives as the label was met in the text, and the label is met there only once
    rcases h.jumps _ (mem_jumps h.flow hi hl) with hplaced | hout
    · obtain ⟨j, hj, hstack⟩ := exists_of_mem_placements hplaced
      refine ⟨⟨j, hj⟩, fun k hk => ?_⟩
      rw [Core.index_unique hlabels hk hj, hstack]
    · cases hout

end Jvm

namespace Core

open Jvm

/-- While a method is built, the depth that is counted is the width of the stack type at the end of
the instructions so far. -/
theorem Function.depth_eq_width {calls : CallTable} {funs : FunctionTypes} {sigs : MethodTypes}
    {f : Function} (hcalls : CallsFit calls funs sigs) (hf : f.WellTyped funs)
    (hroom : wordsOf f.varTypes ≤ maxLocals) {pre post : List Op}
    (hcode : f.code calls = pre ++ post) :
    ∃ m, (Method.empty f.spec).run pre = .ok m ∧ m.body.toList <+: f.instructions calls ∧
      m.depth = width (stackAt sigs [] (f.instructions calls) m.body.size) := by
  obtain ⟨hplaced, hres⟩ := Function.code_declares hcalls hf
  -- the operations of `pre` keep to the rules by themselves, and reserve some of the variables
  rw [hcode, placed_append] at hplaced
  rw [hcode, reserved_append] at hres
  have hsplit : f.instructions calls =
      lower (slotIn f.varTypes) pre ++ lower (slotIn f.varTypes) post := by
    rw [Function.instructions, hcode, lower_append]
  have hleads : Leads sigs (slotIn f.varTypes) [] [] (f.code calls) [] := f.code_leads hcalls hf
  have hflow := flow_take hleads.flow (lower (slotIn f.varTypes) pre).length
  rw [hcode, lower_append, List.take_left] at hflow
  obtain ⟨m, hrun, hgrown⟩ := Method.run_of_room (m := Method.empty f.spec)
    (Method.holds_empty f.spec) hplaced.1
    (by rw [← hres]; exact List.prefix_append _ _) rfl hflow
    (by rw [← hres, wordsOf_append] at hroom; exact Nat.le_trans (Nat.le_add_right _ _) hroom)
  have hbody : m.body.toList = lower (slotIn f.varTypes) pre := by
    rw [hgrown.body]
    rfl
  refine ⟨m, hrun, ?_, ?_⟩
  · rw [hbody, hsplit]
    exact List.prefix_append _ _
  · rw [hgrown.depth, ← Array.length_toList, hbody, hsplit]

/-- `void main() { int i = 0; while (i++ < 3 && true) printDouble(i); }` -/
def countToThree : Surface.Program :=
  let i : Name := ⟨"i", .nowhere⟩
  let three : Surface.Expr := .const ⟨.int 3, .nowhere⟩
  [{ ret := .void
     name := ⟨"main", .nowhere⟩
     params := []
     body := [
       .init .int i (.const ⟨.int 0, .nowhere⟩),
       .whileLoop
         (.binary ⟨.and, .nowhere⟩
           (.binary ⟨.lt, .nowhere⟩ (.step .postIncrement i) three)
           (.const ⟨.bool true, .nowhere⟩))
         (.expr (.call ⟨"printDouble", .nowhere⟩ [.var i]))] }]

end Core

end MiniC
