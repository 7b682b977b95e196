import MiniC.Jvm.Module
import MiniC.Proofs.Jvm.CallTable
import MiniC.Proofs.Semantics.Source
import Mathlib.Logic.Relation

/-!
# The machine that runs modules

The machine has a stack of frames, and in each of them an operand stack and local variables that are
made of words. A double takes two words, the second of which holds nothing by itself; on the operand
stack it is the upper one. A jump goes to the place of its label in the same method, and a call
copies the words of its arguments into the first local variables of a new frame. The built-in
functions, which the fixed part of a class implements, are single steps here.

`step` is partial: a machine that misses an operand, or finds a word of another kind, is stuck.
-/

namespace MiniC

variable {P : Platform}

/-! ## Words -/

inductive Jvm.Word (P : Platform) where
  | int (i : Int32)
  | string (s : String)
  | double (d : P.Real)
  /-- The second word of a double. -/
  | upper

/-- The words of a value, in the order of local variables. -/
def Value.words : Value P → List (Jvm.Word P)
  | .void => []
  | .bool b => [.int (if b then 1 else 0)]
  | .int i => [.int i]
  | .double d => [.double d, .upper]
  | .string s => [.string s]

namespace Jvm

open MiniC.Core (Ending)

/-- Are these the words of a value of the type `ty`? -/
def fits : Ty → List (Word P) → Bool
  | .int, [.int _] | .bool, [.int _] | .string, [.string _] | .double, [.double _, .upper]
  | .void, [] => true
  | _, _ => false

/-- A value of the type `ty` from the top of an operand stack, and what is below it. -/
def popWords (ty : Ty) (stack : List (Word P)) : Option (List (Word P) × List (Word P)) :=
  let ws := (stack.take ty.words).reverse
  if fits ty ws then some (ws, stack.drop ty.words) else none

/-- The arguments of a built-in function. -/
def decode : List Ty → List (Word P) → Option (List (Value P))
  | [], [] => some []
  | .int :: tys, .int i :: ws => (decode tys ws).map (.int i :: ·)
  | .double :: tys, .double d :: .upper :: ws => (decode tys ws).map (.double d :: ·)
  | .string :: tys, .string s :: ws => (decode tys ws).map (.string s :: ·)
  | _, _ => none

/-- The local variables of a frame; those that were never written hold nothing. -/
def Locals (P : Platform) : Type := Nat → Option (Word P)

namespace Locals

def ofWords (ws : List (Word P)) : Locals P := fun i => ws[i]?

/-- The words from `slot` on. -/
def fetch (locals : Locals P) (slot : Nat) : Nat → Option (List (Word P))
  | 0 => some []
  | n + 1 =>
    match locals slot, fetch locals (slot + 1) n with
    | some w, some ws => some (w :: ws)
    | _, _ => none

/-- Writes words from `slot` on. -/
def put (locals : Locals P) (slot : Nat) (ws : List (Word P)) : Locals P := fun i =>
  if slot ≤ i ∧ i < slot + ws.length then ws[i - slot]? else locals i

end Locals

/-! ## Operations -/

/-- An operation on ints; none is a division by zero. -/
def Arith.onInts (op : Arith) (a b : Int32) : Option Int32 :=
  match op with
  | .add => some (a + b)
  | .sub => some (a - b)
  | .mul => some (a * b)
  | .div => if b = 0 then none else some (a / b)
  | .rem => if b = 0 then none else some (a % b)
  | .and => some (a &&& b)
  | .or => some (a ||| b)

/-- An operation on doubles; there are no bitwise ones. -/
def Arith.onDoubles (op : Arith) (a b : P.Real) : Option P.Real :=
  match op with
  | .add => some (P.add a b)
  | .sub => some (P.sub a b)
  | .mul => some (P.mul a b)
  | .div => some (P.div a b)
  | .rem => some (P.rem a b)
  | .and | .or => none

def Cond.test (cond : Cond) (a b : Int32) : Bool :=
  match cond with
  | .eq => a = b
  | .ne => a ≠ b
  | .lt => a < b
  | .gt => b < a
  | .le => a ≤ b
  | .ge => b ≤ a

/-- The int that a comparison of doubles leaves, where `unordered` stands for an unordered pair. -/
def comparisonInt (unordered : Int32) : Comparison → Int32
  | .less => -1
  | .equal => 0
  | .greater => 1
  | .unordered => unordered

/-! ## Steps -/

structure Frame (P : Platform) where
  code : List Instruction
  pc : Nat
  stack : List (Word P)
  locals : Locals P

inductive Config (P : Platform) where
  | running (frame : Frame P) (callers : List (Frame P)) (world : World P)
  | halted (world : World P)
  /-- An int was divided by zero, and the machine stopped. -/
  | trapped (world : World P)

namespace Config

/-- Goes on to the next instruction with another operand stack. -/
def advance (f : Frame P) (callers : List (Frame P)) (w : World P) (stack : List (Word P)) :
    Option (Config P) :=
  some (running { f with pc := f.pc + 1, stack } callers w)

/-- Goes on at a label. -/
def jump (f : Frame P) (callers : List (Frame P)) (w : World P) (l : Label)
    (stack : List (Word P)) : Option (Config P) :=
  (f.code.findIdx? (· = .label l)).map fun pc => running { f with pc, stack } callers w

def branch (f : Frame P) (callers : List (Frame P)) (w : World P) (taken : Bool) (l : Label)
    (stack : List (Word P)) : Option (Config P) :=
  if taken then jump f callers w l stack else advance f callers w stack

/-- Hands a result to the caller, or ends the run. -/
def resume (ws : List (Word P)) (callers : List (Frame P)) (w : World P) : Config P :=
  match callers with
  | [] => halted w
  | caller :: callers => running { caller with stack := ws.reverse ++ caller.stack } callers w

end Config

/-- The method of a class under its full name. -/
def Module.find? (m : Module) (name : String) : Option Method :=
  m.methods.find? fun x => m.className ++ "/" ++ x.spec = name

/-- The built-in function whose method has the full name `name`. -/
def Module.builtin? (m : Module) (name : String) : Option (String × Signature) :=
  Builtin.signatures.find? fun e => methodName m.className e.1 e.2 = name

/-- Calls a method with the words of its arguments. -/
def enter (m : Module) (name : String) (ws : List (Word P)) (caller : Frame P)
    (callers : List (Frame P)) (w : World P) : Option (Config P) :=
  match m.find? name with
  | some x => some (.running ⟨x.body.toList, 0, [], .ofWords ws⟩ (caller :: callers) w)
  | none =>
    match m.builtin? name with
    | some (b, s) =>
      ((decode s.params ws).bind (w.builtin b)).map fun r =>
        .resume r.1.words (caller :: callers) r.2
    | none => none

/-- What one instruction does. -/
def execute (m : Module) (i : Instruction) (f : Frame P) (callers : List (Frame P))
    (w : World P) : Option (Config P) :=
  let go := Config.advance f callers w
  match i with
  | .iconst i => go (.int i :: f.stack)
  | .dconst d => go (.upper :: .double (P.ofDouble d) :: f.stack)
  | .sconst s => go (.string s :: f.stack)
  | .load ty slot =>
    match f.locals.fetch slot ty.words with
    | some ws => if fits ty ws then go (ws.reverse ++ f.stack) else none
    | none => none
  | .store ty slot =>
    (popWords ty f.stack).map fun r => .running
      { f with pc := f.pc + 1, stack := r.2, locals := f.locals.put slot r.1 } callers w
  | .arith op ty =>
    match ty, f.stack with
    | .int, .int b :: .int a :: stack | .bool, .int b :: .int a :: stack =>
      match op.onInts a b with
      | some c => go (.int c :: stack)
      | none => some (.trapped w)
    | .double, .upper :: .double b :: .upper :: .double a :: stack =>
      (op.onDoubles a b).bind fun c => go (.upper :: .double c :: stack)
    | _, _ => none
  | .neg ty =>
    match ty, f.stack with
    | .int, .int a :: stack | .bool, .int a :: stack => go (.int (-a) :: stack)
    | .double, .upper :: .double a :: stack => go (.upper :: .double (P.neg a) :: stack)
    | _, _ => none
  | .i2d =>
    match f.stack with
    | .int a :: stack => go (.upper :: .double (P.ofInt a) :: stack)
    | _ => none
  | .dcmpg =>
    match f.stack with
    | .upper :: .double b :: .upper :: .double a :: stack =>
      go (.int (comparisonInt 1 (P.compare a b)) :: stack)
    | _ => none
  | .dcmpl =>
    match f.stack with
    | .upper :: .double b :: .upper :: .double a :: stack =>
      go (.int (comparisonInt (-1) (P.compare a b)) :: stack)
    | _ => none
  | .ifCompare cond target =>
    match f.stack with
    | .int b :: .int a :: stack => Config.branch f callers w (cond.test a b) target stack
    | _ => none
  | .ifZero cond target =>
    match f.stack with
    | .int a :: stack => Config.branch f callers w (cond.test a 0) target stack
    | _ => none
  | .goto target => Config.jump f callers w target f.stack
  | .dup ty =>
    if ty.words = 2 then
      match f.stack with
      | b :: a :: stack => go (b :: a :: b :: a :: stack)
      | _ => none
    else
      match f.stack with
      | a :: stack => go (a :: a :: stack)
      | _ => none
  | .pop ty =>
    if ty.words = 2 then
      match f.stack with
      | _ :: _ :: stack => go stack
      | _ => none
    else
      match f.stack with
      | _ :: stack => go stack
      | _ => none
  | .invoke name args _ =>
    if args ≤ f.stack.length then
      enter m name (f.stack.take args).reverse
        { f with pc := f.pc + 1, stack := f.stack.drop args } callers w
    else none
  | .ret ty => (popWords ty f.stack).map fun r => .resume r.1 callers w
  | .label _ => go f.stack

/-- One step of the machine. -/
def step (m : Module) : Config P → Option (Config P)
  | .running f callers w =>
    match f.code[f.pc]? with
    | some i => execute m i f callers w
    | none => none
  | .halted _ | .trapped _ => none

/-- Any number of steps. -/
def Steps (m : Module) : Config P → Config P → Prop :=
  Relation.ReflTransGen fun a b => step m a = some b

/-! ## Endings -/

/-- The configuration in which a run has ended so. -/
def Config.ofEnding : Ending P → Config P
  | .halted w => halted w
  | .trapped w => trapped w

/-- The configuration in which the method `main` is about to run. -/
def Module.start? (m : Module) (w : World P) : Option (Config P) :=
  (m.find? (methodName m.className "main" ⟨.void, []⟩)).map fun x =>
    .running ⟨x.body.toList, 0, [], .ofWords []⟩ [] w

/-- In the world `w`, the module runs and ends as `ending` says. -/
def Module.EndsWith (m : Module) (w : World P) (ending : Ending P) : Prop :=
  ∃ start, m.start? w = some start ∧ Steps m start (.ofEnding ending)

end Jvm

end MiniC
