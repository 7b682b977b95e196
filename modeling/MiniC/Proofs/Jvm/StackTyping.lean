import MiniC.Jvm.Instruction

/-!
# Types of operand stacks

The machine tells three kinds of values apart on its operand stack: ints, doubles and references to
strings. A *stack type* lists the kinds of the values on a stack, the top first. Every instruction
takes some values of fixed kinds from the top and puts others in their place.

`flow` follows instructions in the order of the text, also across jumps and returns. A piece of code
is *consistent* if no instruction misses an operand and every jump arrives with the stack type that
the text has at its label; the labels of an enclosing piece are collected in a list `out`.
-/

namespace MiniC

/-- The kinds of values on the operand stack. -/
inductive Cell where
  | int
  | double
  | string
deriving Repr, DecidableEq

/-- The words that a value takes on the stack. -/
def Cell.words : Cell → Nat
  | double => 2
  | int | string => 1

/-- The kind of a value; there is no value of type `void`. -/
def Ty.cell? : Ty → Option Cell
  | int | bool => some .int
  | double => some .double
  | string => some .string
  | void => none

/-- What a result of the type adds to a stack. -/
def Ty.cells (ty : Ty) : List Cell := ty.cell?.toList

/-- The kinds of a call's arguments on the stack, the last argument on top. -/
def Signature.argCells (s : Signature) : List Cell := s.params.reverse.flatMap Ty.cells

namespace Jvm

abbrev StackTy := List Cell

def width (σ : StackTy) : Nat := σ.foldr (fun c n => c.words + n) 0

/-- The signatures of methods, by their full names. -/
abbrev MethodTypes := String → Option Signature

namespace Instruction

/-- Both operands and the result of an operation on two operands. -/
def arithCell? (op : Arith) (ty : Ty) : Option Cell :=
  match ty with
  | .int | .bool => some .int
  | .double => if op = .and ∨ op = .or then none else some .double
  | .string | .void => none

/-- The operand and the result of a negation. -/
def negCell? : Ty → Option Cell
  | .int | .bool => some .int
  | .double => some .double
  | .string | .void => none

/-- The kinds that an instruction takes from the stack, the top first, and those it leaves there
instead. There are none if the instruction makes no sense. -/
def typing? (sigs : MethodTypes) : Instruction → Option (List Cell × List Cell)
  | iconst _ => some ([], [.int])
  | dconst _ => some ([], [.double])
  | sconst _ => some ([], [.string])
  | load ty _ => ty.cell?.map fun c => ([], [c])
  | store ty _ => ty.cell?.map fun c => ([c], [])
  | arith op ty => (arithCell? op ty).map fun c => ([c, c], [c])
  | neg ty => (negCell? ty).map fun c => ([c], [c])
  | i2d => some ([.int], [.double])
  | dcmpg | dcmpl => some ([.double, .double], [.int])
  | ifCompare _ _ => some ([.int, .int], [])
  | ifZero _ _ => some ([.int], [])
  | goto _ | label _ => some ([], [])
  | dup ty => ty.cell?.map fun c => ([c], [c, c])
  | pop ty => ty.cell?.map fun c => ([c], [])
  | invoke method args result =>
    match sigs method with
    | some s =>
      if args = s.paramWords ∧ result = s.ret.words then some (s.argCells, s.ret.cells) else none
    | none => none
  | ret ty => some (ty.cells, [])

/-- The stack type behind an instruction that finds its operands on the stack. -/
def stackAfter (sigs : MethodTypes) (i : Instruction) (σ : StackTy) : Option StackTy :=
  match i.typing? sigs with
  | some (takes, leaves) =>
    if takes.isPrefixOf σ then some (leaves ++ σ.drop takes.length) else none
  | none => none

/-- The label that the instruction may jump to. -/
def target? : Instruction → Option Label
  | ifCompare _ l | ifZero _ l | goto l => some l
  | _ => none

/-- The label that the instruction places. -/
def label? : Instruction → Option Label
  | label l => some l
  | _ => none

end Instruction

/-! ## Widths -/

@[simp] theorem width_nil : width [] = 0 := rfl

@[simp] theorem width_cons (c : Cell) (σ : StackTy) : width (c :: σ) = c.words + width σ := rfl

@[simp] theorem width_append (σ τ : StackTy) : width (σ ++ τ) = width σ + width τ := by
  induction σ with
  | nil => simp
  | cons c σ ih =>
    rw [List.cons_append, width_cons, width_cons, ih]
    omega

theorem width_cells (ty : Ty) : width ty.cells = ty.words := by cases ty <;> rfl

theorem width_argCells (s : Signature) : width s.argCells = s.paramWords := by
  unfold Signature.argCells Signature.paramWords
  induction s.params with
  | nil => rfl
  | cons ty tys ih =>
    simp only [List.reverse_cons, List.flatMap_append, width_append, ih, List.foldr_cons,
      List.flatMap_singleton, width_cells]
    omega

namespace Instruction

variable {sigs : MethodTypes} {i : Instruction} {σ τ : StackTy}

theorem stackAfter_eq_some : i.stackAfter sigs σ = some τ ↔
    ∃ takes leaves below, i.typing? sigs = some (takes, leaves) ∧ σ = takes ++ below ∧
      τ = leaves ++ below := by
  unfold stackAfter
  constructor
  · intro h
    split at h
    · next takes leaves htyping =>
      split at h
      · next hprefix =>
        obtain ⟨below, rfl⟩ := List.isPrefixOf_iff_prefix.mp hprefix
        cases h
        exact ⟨takes, leaves, below, htyping, rfl, by simp⟩
      · cases h
    · cases h
  · rintro ⟨takes, leaves, below, htyping, rfl, rfl⟩
    simp [htyping]

/-- An instruction changes the width of the stack by its effect. -/
theorem width_stackAfter (h : i.stackAfter sigs σ = some τ) :
    (width τ : Int) = width σ + i.effect := by
  obtain ⟨takes, leaves, below, htyping, rfl, rfl⟩ := stackAfter_eq_some.mp h
  have hcells : (width leaves : Int) = width takes + i.effect := by
    cases i with
    | load ty _ | store ty _ | dup ty | pop ty =>
      cases ty <;> cases htyping <;> rfl
    | arith op ty =>
      cases ty <;> cases op <;> cases htyping <;> rfl
    | neg ty => cases ty <;> cases htyping <;> rfl
    | ret ty =>
      cases htyping
      simp only [width_nil, width_cells, effect]
      omega
    | invoke method args result =>
      simp only [typing?] at htyping
      split at htyping
      · next s _ =>
        split at htyping
        · next hwords =>
          cases htyping
          simp only [width_cells, width_argCells, effect, hwords.1, hwords.2]
          omega
        · cases htyping
      · cases htyping
    | _ => cases htyping; rfl
  simp only [width_append, Int.natCast_add, hcells]
  omega

end Instruction

/-! ## Following the text -/

section Flow

variable (sigs : MethodTypes)

/-- The stack type behind instructions, in the order of the text. -/
def flow : StackTy → List Instruction → Option StackTy
  | σ, [] => some σ
  | σ, i :: is => (i.stackAfter sigs σ).bind fun τ => flow τ is

/-- The labels that instructions place, with the stack types found there. -/
def placements : StackTy → List Instruction → List (Label × StackTy)
  | _, [] => []
  | σ, i :: is =>
    (i.label?.map (·, σ)).toList ++ ((i.stackAfter sigs σ).elim [] fun τ => placements τ is)

/-- The labels that instructions may jump to, with the stack types that the jumps carry there. -/
def jumps : StackTy → List Instruction → List (Label × StackTy)
  | _, [] => []
  | σ, i :: is =>
    (i.stackAfter sigs σ).elim [] fun τ => (i.target?.map (·, τ)).toList ++ jumps τ is

/-- The greatest width behind any of the instructions. -/
def peak : StackTy → List Instruction → Nat
  | _, [] => 0
  | σ, i :: is => (i.stackAfter sigs σ).elim 0 fun τ => max (width τ) (peak τ is)

/-- The code leads from the stack type `σ` to `τ`, and its jumps arrive as their labels expect, be
the labels in the code or in `out`. -/
structure Consistent (out : List (Label × StackTy)) (σ : StackTy) (code : List Instruction)
    (τ : StackTy) : Prop where
  flow : flow sigs σ code = some τ
  jumps : ∀ x ∈ jumps sigs σ code, x ∈ placements sigs σ code ∨ x ∈ out

end Flow

variable {sigs : MethodTypes} {out : List (Label × StackTy)} {σ τ ρ : StackTy}
  {a b is : List Instruction}

theorem flow_append (a b : List Instruction) (σ : StackTy) :
    flow sigs σ (a ++ b) = (flow sigs σ a).bind fun τ => flow sigs τ b := by
  induction a generalizing σ with
  | nil => rfl
  | cons i a ih =>
    simp only [List.cons_append, flow]
    cases i.stackAfter sigs σ with
    | none => rfl
    | some τ => exact ih τ

theorem placements_append (h : flow sigs σ a = some τ) :
    placements sigs σ (a ++ b) = placements sigs σ a ++ placements sigs τ b := by
  induction a generalizing σ with
  | nil =>
    cases h
    rfl
  | cons i a ih =>
    simp only [flow, Option.bind_eq_some_iff] at h
    obtain ⟨ρ, hρ, h⟩ := h
    simp only [List.cons_append, placements, hρ, Option.elim_some, ih h, List.append_assoc]

theorem jumps_append (h : flow sigs σ a = some τ) :
    jumps sigs σ (a ++ b) = jumps sigs σ a ++ jumps sigs τ b := by
  induction a generalizing σ with
  | nil =>
    cases h
    rfl
  | cons i a ih =>
    simp only [flow, Option.bind_eq_some_iff] at h
    obtain ⟨ρ, hρ, h⟩ := h
    simp only [List.cons_append, jumps, hρ, Option.elim_some, ih h, List.append_assoc]

namespace Consistent

theorem nil : Consistent sigs out σ [] σ := ⟨rfl, by intro x hx; cases hx⟩

/-- One instruction. -/
theorem single {i : Instruction} (h : i.stackAfter sigs σ = some τ)
    (htarget : ∀ l, i.target? = some l → (l, τ) ∈ out) : Consistent sigs out σ [i] τ where
  flow := by simp [Jvm.flow, h]
  jumps := by
    intro x hx
    simp only [Jvm.jumps, h, Option.elim_some, List.append_nil, Option.mem_toList,
      Option.map_eq_some_iff] at hx
    obtain ⟨l, hl, rfl⟩ := hx
    exact .inr (htarget l hl)

/-- One instruction that does not jump. -/
theorem straight (i : Instruction) (takes leaves : List Cell)
    (h : i.typing? sigs = some (takes, leaves)) (hi : i.target? = none) :
    Consistent sigs out (takes ++ σ) [i] (leaves ++ σ) := by
  refine single (Instruction.stackAfter_eq_some.mpr ⟨takes, leaves, σ, h, rfl, rfl⟩) ?_
  intro l hl
  rw [hi] at hl
  cases hl

/-- One instruction that may jump to a label in reach. -/
theorem jump (i : Instruction) (takes leaves : List Cell) {l : Label}
    (h : i.typing? sigs = some (takes, leaves)) (hi : i.target? = some l)
    (hl : (l, leaves ++ σ) ∈ out) : Consistent sigs out (takes ++ σ) [i] (leaves ++ σ) := by
  refine single (Instruction.stackAfter_eq_some.mpr ⟨takes, leaves, σ, h, rfl, rfl⟩) ?_
  intro l' hl'
  rw [hi] at hl'
  cases hl'
  exact hl

theorem append (ha : Consistent sigs out σ a ρ) (hb : Consistent sigs out ρ b τ) :
    Consistent sigs out σ (a ++ b) τ where
  flow := by rw [flow_append, ha.flow, Option.bind_some, hb.flow]
  jumps := by
    intro x hx
    rw [jumps_append ha.flow] at hx
    rw [placements_append ha.flow]
    rcases List.mem_append.mp hx with hx | hx
    · rcases ha.jumps x hx with h | h
      · exact .inl (List.mem_append_left _ h)
      · exact .inr h
    · rcases hb.jumps x hx with h | h
      · exact .inl (List.mem_append_right _ h)
      · exact .inr h

/-- Labels that the code places itself are not asked of others. -/
theorem close {own : List (Label × StackTy)} (h : Consistent sigs (own ++ out) σ is τ)
    (hown : ∀ x ∈ own, x ∈ placements sigs σ is) : Consistent sigs out σ is τ where
  flow := h.flow
  jumps := by
    intro x hx
    rcases h.jumps x hx with hx | hx
    · exact .inl hx
    · rcases List.mem_append.mp hx with hx | hx
      · exact .inl (hown x hx)
      · exact .inr hx

end Consistent

/-- A label behind some code is found with the stack type that the code leads to. -/
theorem mem_placements_append {l : Label} (h : flow sigs σ a = some τ) :
    (l, τ) ∈ placements sigs σ (a ++ .label l :: b) := by
  rw [placements_append h]
  exact List.mem_append_right _ (by simp [placements, Instruction.label?])

end Jvm

end MiniC
