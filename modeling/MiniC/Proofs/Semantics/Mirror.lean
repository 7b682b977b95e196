import MiniC.Proofs.Core.CodeFunction
import MiniC.Proofs.Jvm.ControlFlow
import MiniC.Proofs.Semantics.Locals

/-!
# How the machine mirrors a run

A piece of a run is *mirrored* if the machine, started in a given configuration, comes to one that a
goal accepts when the piece ends with a result, and traps in the same world when the piece traps.
Nothing is asked where the piece has no meaning or was cut off. Pieces that follow each other are
mirrored one after the other (`Mirrors.bind`), so that a trap is dealt with once and for all.
-/

namespace MiniC.Jvm

open MiniC.Core

variable {P : Platform} {α β : Type} {m : Module}

/-- A label is found where it is placed. -/
theorem findIdx?_label {code : List Instruction} (h : (labelsIn code).Nodup) {j : Nat} {l : Label}
    (hj : code[j]? = some (.label l)) : code.findIdx? (· = .label l) = some j := by
  cases hfind : code.findIdx? (· = .label l) with
  | none =>
    have := List.findIdx?_eq_none_iff.mp hfind _ (List.mem_of_getElem? hj)
    simp at this
  | some i =>
    obtain ⟨hlt, hi, -⟩ := List.findIdx?_eq_some_iff_getElem.mp hfind
    have hi' : code[i]? = some (.label l) := by
      rw [List.getElem?_eq_getElem hlt]
      simpa using hi
    rw [index_unique h hi' hj]

/-! ## Mirrored runs -/

theorem Steps.one {c d : Config P} (h : step m c = some d) : Steps m c d := .single h

theorem Steps.trans {c d e : Config P} (h : Steps m c d) (h' : Steps m d e) : Steps m c e :=
  Relation.ReflTransGen.trans h h'

/-- Started at `start`, the machine does what the piece of a run with the result `r` does. -/
def Mirrors (m : Module) (start : Config P) (goal : α → Core.State P → Config P → Prop)
    (r : EStateM.Result Stop (Core.State P) α) : Prop :=
  match r with
  | .ok a s => ∃ c, Steps m start c ∧ goal a s c
  | .error .trap s => Steps m start (.trapped s.world)
  | .error _ _ => True

namespace Mirrors

variable {start : Config P} {goal : α → Core.State P → Config P → Prop}
  {goal' : β → Core.State P → Config P → Prop} {s : Core.State P}

/-- Steps taken first count for the run that is mirrored. -/
theorem of_steps {c : Config P} {r : EStateM.Result Stop (Core.State P) α}
    (h : Steps m start c) (hr : Mirrors m c goal r) : Mirrors m start goal r := by
  match r, hr with
  | .ok a s, ⟨d, hd, hgoal⟩ => exact ⟨d, h.trans hd, hgoal⟩
  | .error .trap s, hr => exact h.trans hr
  | .error .meaningless s, _ => trivial
  | .error .exhausted s, _ => trivial

/-- A sequence is mirrored part by part. -/
theorem bind {x : Eval P α} {f : α → Eval P β} (hx : Mirrors m start goal (x s))
    (hf : ∀ a s' c, goal a s' c → Mirrors m c goal' (f a s')) :
    Mirrors m start goal' ((x >>= f) s) := by
  change Mirrors m start goal' (EStateM.bind x f s)
  unfold EStateM.bind
  cases hr : x s with
  | ok a s' =>
    rw [hr] at hx
    obtain ⟨c, hc, hgoal⟩ := hx
    exact of_steps hc (hf a s' c hgoal)
  | error e s' =>
    rw [hr] at hx
    cases e
    · exact hx
    · trivial
    · trivial

/-- The machine may take more steps behind the piece. -/
theorem extend {goal' : α → Core.State P → Config P → Prop}
    {r : EStateM.Result Stop (Core.State P) α} (h : Mirrors m start goal r)
    (hgoal : ∀ a s c, r = .ok a s → goal a s c → ∃ d, Steps m c d ∧ goal' a s d) :
    Mirrors m start goal' r := by
  match r, h with
  | .ok a s, ⟨c, hc, hg⟩ =>
    obtain ⟨d, hd, hg'⟩ := hgoal a s c rfl hg
    exact ⟨d, hc.trans hd, hg'⟩
  | .error .trap s, h => exact h
  | .error .meaningless s, _ => trivial
  | .error .exhausted s, _ => trivial

theorem mono {goal' : α → Core.State P → Config P → Prop}
    {r : EStateM.Result Stop (Core.State P) α} (h : Mirrors m start goal r)
    (hgoal : ∀ a s c, goal a s c → goal' a s c) : Mirrors m start goal' r :=
  h.extend fun a s c _ hg => ⟨c, .refl, hgoal a s c hg⟩

/-- A piece that takes no steps. -/
theorem pure {a : α} (h : goal a s start) : Mirrors m start goal ((Pure.pure a : Eval P α) s) :=
  ⟨start, .refl, h⟩

/-- A run that is out of fuel tells nothing about the machine. -/
theorem exhausted : Mirrors m start goal ((throw .exhausted : Eval P α) s) := trivial

end Mirrors

/-! ## Activations -/

/-- What stays the same while a method runs. -/
structure Activation (P : Platform) where
  code : List Instruction
  callers : List (Frame P)
  /-- The types of all variables of the function. -/
  vars : VarTypes
  nodup : (labelsIn code).Nodup
  noVoid : NoVoid vars

namespace Activation

variable (a : Activation P)

/-- The machine in the middle of the method. -/
def conf (pc : Nat) (stack : List (Word P)) (locals : Locals P) (w : World P) : Config P :=
  .running ⟨a.code, pc, stack, locals⟩ a.callers w

/-- The instructions of operations in the method. -/
def instrs (ops : List Op) : List Instruction := Jvm.lower (slotIn a.vars) ops

/-- The machine has come to the index `pc`, with the words `ws` more on the stack. -/
def Reached (pc : Nat) (ws stack : List (Word P)) (s : Core.State P) (c : Config P) : Prop :=
  ∃ locals, c = a.conf pc (ws.reverse ++ stack) locals s.world ∧ Agrees a.vars s.store locals

/-- A value of the type `ty` has been pushed. -/
def Pushed (pc : Nat) (stack : List (Word P)) (ty : Ty) (x : Value P) (s : Core.State P)
    (c : Config P) : Prop :=
  x.ty = ty ∧ a.Reached pc x.words stack s c

variable {a} {pc : Nat} {stack : List (Word P)} {locals : Locals P} {w : World P}

/-- One instruction. -/
theorem steps_one {i : Instruction} {c : Config P} (hcode : a.code[pc]? = some i)
    (h : execute m i ⟨a.code, pc, stack, locals⟩ a.callers w = some c) :
    Steps m (a.conf pc stack locals w) c := by
  refine Steps.one ?_
  simp only [Activation.conf, step, hcode]
  exact h

/-- A jump to a label that is placed at the index `j`. -/
theorem jump_eq {j : Nat} {l : Label} {stack' : List (Word P)}
    (hj : a.code[j]? = some (.label l)) :
    Config.jump ⟨a.code, pc, stack, locals⟩ a.callers w l stack' =
      some (a.conf j stack' locals w) := by
  simp only [Config.jump, findIdx?_label a.nodup hj]
  rfl

/-- A branch goes to the place of its label or on to the next instruction. -/
theorem branch_eq {j : Nat} {l : Label} {stack' : List (Word P)} {taken : Bool}
    (hj : a.code[j]? = some (.label l)) :
    Config.branch ⟨a.code, pc, stack, locals⟩ a.callers w taken l stack' =
      some (a.conf (if taken then j else pc + 1) stack' locals w) := by
  cases taken with
  | false => rfl
  | true => exact jump_eq hj

/-! ### Instructions on values -/

theorem steps_const (c : Constant) (hcode : a.code[pc]? = some (constant c)) :
    Steps m (a.conf pc stack locals w)
      (a.conf (pc + 1) ((Value.ofConstant c : Value P).words.reverse ++ stack) locals w) :=
  steps_one hcode (by cases c <;> rfl)

/-- A load puts the words of the value on the stack. -/
theorem steps_load {x : Value P} {slot : Nat} (hcode : a.code[pc]? = some (.load x.ty slot))
    (hx : locals.fetch slot x.ty.words = some x.words) :
    Steps m (a.conf pc stack locals w) (a.conf (pc + 1) (x.words.reverse ++ stack) locals w) := by
  refine steps_one hcode ?_
  simp only [execute, hx, fits_words, if_true]
  rfl

/-- A store takes the words of the value off the stack. -/
theorem steps_store {x : Value P} {slot : Nat} (hcode : a.code[pc]? = some (.store x.ty slot)) :
    Steps m (a.conf pc (x.words.reverse ++ stack) locals w)
      (a.conf (pc + 1) stack (locals.put slot x.words) w) := by
  refine steps_one hcode ?_
  simp only [execute, popWords_words, Option.map_some]
  rfl

theorem steps_dup {x : Value P} (hcode : a.code[pc]? = some (.dup x.ty)) (hx : x.ty ≠ .void) :
    Steps m (a.conf pc (x.words.reverse ++ stack) locals w)
      (a.conf (pc + 1) (x.words.reverse ++ (x.words.reverse ++ stack)) locals w) := by
  refine steps_one hcode ?_
  cases x with
  | void => exact absurd rfl hx
  | _ => rfl

theorem steps_pop {x : Value P} (hcode : a.code[pc]? = some (.pop x.ty)) (hx : x.ty ≠ .void) :
    Steps m (a.conf pc (x.words.reverse ++ stack) locals w) (a.conf (pc + 1) stack locals w) := by
  refine steps_one hcode ?_
  cases x with
  | void => exact absurd rfl hx
  | _ => rfl

theorem steps_label {l : Label} (hcode : a.code[pc]? = some (.label l)) :
    Steps m (a.conf pc stack locals w) (a.conf (pc + 1) stack locals w) :=
  steps_one hcode rfl

/-- A jump goes to the place of its label. -/
theorem steps_goto {j : Nat} {l : Label} (hcode : a.code[pc]? = some (.goto l))
    (hj : a.code[j]? = some (.label l)) :
    Steps m (a.conf pc stack locals w) (a.conf j stack locals w) :=
  steps_one hcode (jump_eq hj)

/-- A value that is returned. -/
theorem steps_ret {x : Value P} (hcode : a.code[pc]? = some (.ret x.ty)) :
    Steps m (a.conf pc (x.words.reverse ++ stack) locals w) (.resume x.words a.callers w) := by
  refine steps_one hcode ?_
  simp only [execute, popWords_words, Option.map_some]

/-- A branch on a bool. -/
theorem steps_ifZero {b : Bool} {cond : Cond} {j : Nat} {l : Label}
    (hcode : a.code[pc]? = some (.ifZero cond l)) (hj : a.code[j]? = some (.label l))
    {taken : Bool} (ht : cond.test (if b then 1 else 0) 0 = taken) :
    Steps m (a.conf pc ((Value.bool b : Value P).words.reverse ++ stack) locals w)
      (a.conf (if taken then j else pc + 1) stack locals w) :=
  steps_one hcode (ht ▸ branch_eq hj)

end Activation

end MiniC.Jvm
