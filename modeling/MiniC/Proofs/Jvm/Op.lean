import MiniC.Jvm.Method

/-!
# Code as a list of operations

What is done to build a method can be written down with variables instead of slots, as a list of
operations. `Method.run` performs them on a method, and thereby assigns the slots and keeps the
accounts of the stack. Labels are no matter of the operations: they are numbered beforehand.
-/

namespace MiniC.Jvm

/-- One step in building a method. -/
inductive Op where
  | emit (i : Instruction)
  | load (ty : Ty) (v : VarId)
  | store (ty : Ty) (v : VarId)
  | reserve (v : VarId) (ty : Ty)
  /-- The tree has no meaning at this point. -/
  | fault (f : Fault)
deriving Repr, DecidableEq

namespace Method

/-- Emits an instruction that refers to the slot of `v`. -/
def emitAt (m : Method) (v : VarId) (i : Nat → Instruction) : Except Fault Method :=
  match m.slot? v with
  | some slot => m.emit (i slot)
  | none => .error (.unreservedSlot v)

/-- Performs one step. -/
def perform (m : Method) : Op → Except Fault Method
  | .emit i => m.emit i
  | .load ty v => m.emitAt v (.load ty)
  | .store ty v => m.emitAt v (.store ty)
  | .reserve v ty => (m.reserve v ty).map Prod.snd
  | .fault f => .error f

/-- Performs all steps in order. -/
def run (m : Method) : List Op → Except Fault Method
  | [] => .ok m
  | op :: ops => do run (← m.perform op) ops

/-- Code can be run piece by piece. -/
theorem run_append (m : Method) (as bs : List Op) :
    m.run (as ++ bs) = (m.run as).bind fun m => m.run bs := by
  induction as generalizing m with
  | nil => rfl
  | cons op as ih =>
    simp only [List.cons_append, run]
    cases h : m.perform op with
    | error f => rfl
    | ok m => exact ih m

end Method

/-- Is a return the last instruction that `ops` emit? -/
def endsInReturn (ops : List Op) : Bool :=
  match ops.reverse.find? fun op => !(op matches .reserve _ _) with
  | some (.emit i) => i.isReturn
  | _ => false

theorem endsInReturn_append {as bs : List Op} (h : endsInReturn (as ++ bs) = true) :
    endsInReturn as = true ∨ endsInReturn bs = true := by
  unfold endsInReturn at h ⊢
  rw [List.reverse_append, List.find?_append] at h
  generalize bs.reverse.find? _ = last at h ⊢
  cases last with
  | some op => exact .inr h
  | none => exact .inl h

/-- The last operations decide, unless they only reserve variables. -/
theorem endsInReturn_append_right (as : List Op) {bs : List Op} (op : Op) (hop : op ∈ bs)
    (h : ∀ v ty, op ≠ .reserve v ty) : endsInReturn (as ++ bs) = endsInReturn bs := by
  unfold endsInReturn
  rw [List.reverse_append, List.find?_append]
  cases hb : bs.reverse.find? _ with
  | some last => rfl
  | none =>
    have := List.find?_eq_none.mp hb op (List.mem_reverse.mpr hop)
    cases op <;> simp_all

theorem endsInReturn_reserve {α : Type} (vs : List α) (f : α → VarId × Ty) :
    endsInReturn (vs.map fun v => .reserve (f v).1 (f v).2) = false := by
  unfold endsInReturn
  rw [List.find?_eq_none.mpr]
  intro op hop
  obtain ⟨v, -, rfl⟩ := List.mem_map.mp (List.mem_reverse.mp hop)
  simp

/-- Is a return the last instruction behind an operation? Before it, the answer was `before`. -/
def Op.endsInReturn (before : Bool) : Op → Bool
  | .emit i => i.isReturn
  | .load _ _ | .store _ _ | .fault _ => false
  | .reserve _ _ => before

theorem endsInReturn_concat (ops : List Op) (op : Op) :
    endsInReturn (ops ++ [op]) = op.endsInReturn (endsInReturn ops) := by
  cases op <;> simp [endsInReturn, Op.endsInReturn]

end MiniC.Jvm
