import MiniC.Core.Basic
import MiniC.Proofs.Semantics.Value

/-!
# The meaning of core programs

A big-step semantics, written as an evaluator. Operands and arguments are evaluated from left to
right, both operands of `&&` and `||` are always evaluated, and an assignment gives the assigned
value. A variable has no value before it is first written, and reading it then has no meaning;
neither has the end of a body that should return a value.

Every round of the recursion counts down a fuel. A run that is cut off says so (`Stop.exhausted`),
and a run that ends otherwise ends the same way with any more fuel (`call_mono`), so that a program
has one ending at most in a given world.
-/

namespace MiniC.Core

variable {P : Platform} {α β : Type}

/-! ## States -/

/-- The values of the variables of one call. -/
def Store (P : Platform) : Type := VarId → Option (Value P)

namespace Store

/-- No variable has a value. -/
def empty : Store P := fun _ => none

def write (store : Store P) (v : VarId) (x : Value P) : Store P := fun w =>
  if w = v then some x else store w

/-- Newly declared variables have no value. -/
def forget (store : Store P) (vs : List VarDecl) : Store P := fun w =>
  if w ∈ vs.map VarDecl.id then none else store w

/-- Parameters and their arguments. -/
def ofArgs : List VarDecl → List (Value P) → Store P
  | v :: vs, x :: xs => (ofArgs vs xs).write v.id x
  | _, _ => empty

end Store

structure State (P : Platform) where
  store : Store P
  world : World P

/-- A piece of a run. -/
abbrev Eval (P : Platform) := EStateM Stop (State P)

/-- How a statement ends, if it ends. -/
inductive Completion (P : Platform) where
  | next
  | returned (x : Value P)

namespace Eval

def ofExcept (r : Except Stop α) : Eval P α := fun s =>
  match r with
  | .ok a => .ok a s
  | .error e => .error e s

def read (v : VarId) : Eval P (Value P) := fun s =>
  match s.store v with
  | some x => .ok x s
  | none => .error .meaningless s

def write (v : VarId) (x : Value P) : Eval P Unit := fun s =>
  .ok () { s with store := s.store.write v x }

def forget (vs : List VarDecl) : Eval P Unit := fun s =>
  .ok () { s with store := s.store.forget vs }

/-- A call of a built-in function. -/
def builtin (f : String) (args : List (Value P)) : Eval P (Value P) := fun s =>
  match s.world.builtin f args with
  | some (x, world) => .ok x { s with world }
  | none => .error .meaningless s

/-- Runs `x` on variables of its own. -/
def withStore (store : Store P) (x : Eval P α) : Eval P α := fun s =>
  match x { s with store } with
  | .ok a s' => .ok a { s' with store := s.store }
  | .error e s' => .error e { s' with store := s.store }

def truth : Value P → Eval P Bool
  | .bool b => pure b
  | _ => throw .meaningless

/-- A condition that may be left out. -/
def condition (eval : Expr → Eval P (Value P)) : Option Expr → Eval P Bool
  | none => pure true
  | some e => do truth (← eval e)

/-- An expression that may be left out. -/
def discard (eval : Expr → Eval P (Value P)) : Option Expr → Eval P Unit
  | none => pure ()
  | some e => do let _ ← eval e

/-- The result of a call whose body ended with `c`. -/
def result (ret : Ty) : Completion P → Eval P (Value P)
  | .returned x => pure x
  | .next => if ret = .void then pure .void else throw .meaningless

end Eval

/-! ## Evaluation -/

mutual

def evalExpr (p : Program) : Nat → Expr → Eval P (Value P)
  | 0, _ => throw .exhausted
  | _ + 1, .const c => pure (.ofConstant c)
  | _ + 1, .var v _ => .read v
  | n + 1, .assign v e _ => do
    let x ← evalExpr p n e
    Eval.write v x
    return x
  | n + 1, .call f args _ => do
    let xs ← evalArgs p n args
    call p n f xs
  | n + 1, .binary op left right _ _ => do
    let a ← evalExpr p n left
    let b ← evalExpr p n right
    Eval.ofExcept (Value.binary op a b)
  | _ + 1, .step s v _ => do
    let x ← Eval.read v
    let y ← Eval.ofExcept (x.stepped s)
    Eval.write v y
    return if s.isPost then x else y
  | n + 1, .negate e _ => do
    let x ← evalExpr p n e
    Eval.ofExcept x.negated
  | n + 1, .cast _ e => do
    let x ← evalExpr p n e
    Eval.ofExcept x.widened

def evalArgs (p : Program) : Nat → List Expr → Eval P (List (Value P))
  | 0, _ => throw .exhausted
  | _ + 1, [] => pure []
  | n + 1, e :: es => do
    let x ← evalExpr p n e
    let xs ← evalArgs p n es
    return x :: xs

/-- Calls a function of the program, or else a built-in one. -/
def call (p : Program) : Nat → String → List (Value P) → Eval P (Value P)
  | 0, _, _ => throw .exhausted
  | n + 1, f, args =>
    match p.find? fun g => g.name = f with
    | some g => do
      let c ← Eval.withStore (.ofArgs g.params args) (execBlock p n g.body)
      Eval.result g.signature.ret c
    | none => .builtin f args

def execStmt (p : Program) : Nat → Stmt → Eval P (Completion P)
  | 0, _ => throw .exhausted
  | _ + 1, .declare vs => do
    Eval.forget vs
    return .next
  | n + 1, .init v e => do
    let x ← evalExpr p n e
    Eval.write v.id x
    return .next
  | n + 1, .expr e => do
    let _ ← evalExpr p n e
    return .next
  | _ + 1, .ret none => return .returned .void
  | n + 1, .ret (some e) => do
    let x ← evalExpr p n e
    return .returned x
  | n + 1, .block body => execBlock p n body
  | n + 1, .whileLoop c body => loop p n (some c) none body
  | n + 1, .forLoop init c step body => do
    Eval.discard (evalExpr p n) init
    loop p n c step body
  | n + 1, .ifThen c thenBranch => do
    if ← Eval.condition (evalExpr p n) (some c) then execStmt p n thenBranch
    else return .next
  | n + 1, .ifElse c thenBranch elseBranch => do
    if ← Eval.condition (evalExpr p n) (some c) then execStmt p n thenBranch
    else execStmt p n elseBranch

def execBlock (p : Program) : Nat → List Stmt → Eval P (Completion P)
  | 0, _ => throw .exhausted
  | _ + 1, [] => return .next
  | n + 1, s :: ss => do
    match ← execStmt p n s with
    | .next => execBlock p n ss
    | .returned x => return .returned x

/-- A loop, from its condition on. -/
def loop (p : Program) : Nat → Option Expr → Option Expr → Stmt → Eval P (Completion P)
  | 0, _, _, _ => throw .exhausted
  | n + 1, c, step, body => do
    if ← Eval.condition (evalExpr p n) c then
      match ← execStmt p n body with
      | .next => do
        Eval.discard (evalExpr p n) step
        loop p n c step body
      | .returned x => return .returned x
    else return .next

end

/-! ## More fuel -/

namespace Eval

/-- `y` ends as `x` does, unless `x` is cut off. -/
def Extends (x y : Eval P α) : Prop := ∀ s, (∃ s', x s = .error .exhausted s') ∨ y s = x s

theorem extends_refl (x : Eval P α) : Extends x x := fun _ => .inr rfl

/-- Running out of fuel is extended by everything. -/
theorem extends_exhausted (y : Eval P α) : Extends (throw .exhausted) y := fun s => .inl ⟨s, rfl⟩

/-- Sequences extend each other if their parts do. -/
theorem Extends.bind {x y : Eval P α} {f g : α → Eval P β} (h : Extends x y)
    (hf : ∀ a, Extends (f a) (g a)) : Extends (x >>= f) (y >>= g) := by
  intro s
  change (∃ s', EStateM.bind x f s = _) ∨ EStateM.bind y g s = EStateM.bind x f s
  rcases h s with ⟨s', hx⟩ | hy
  · exact .inl ⟨s', by simp [EStateM.bind, hx]⟩
  · unfold EStateM.bind
    rw [hy]
    cases x s with
    | ok a s' => exact hf a s'
    | error e s' => exact .inr rfl

theorem Extends.withStore {x y : Eval P α} (h : Extends x y) (store : Store P) :
    Extends (withStore store x) (withStore store y) := by
  intro s
  unfold Eval.withStore
  rcases h { s with store } with ⟨s', hx⟩ | hy
  · exact .inl ⟨{ s' with store := s.store }, by rw [hx]⟩
  · exact .inr (by rw [hy])

variable {eval eval' : Expr → Eval P (Value P)}

theorem extends_condition (h : ∀ e, Extends (eval e) (eval' e)) (c : Option Expr) :
    Extends (condition eval c) (condition eval' c) := by
  cases c with
  | none => exact extends_refl _
  | some c => exact (h c).bind fun x => extends_refl _

theorem extends_discard (h : ∀ e, Extends (eval e) (eval' e)) (e : Option Expr) :
    Extends (discard eval e) (discard eval' e) := by
  cases e with
  | none => exact extends_refl _
  | some e => exact (h e).bind fun x => extends_refl _

theorem Extends.trans {x y z : Eval P α} (hxy : Extends x y) (hyz : Extends y z) :
    Extends x z := by
  intro s
  rcases hxy s with hx | hy
  · exact .inl hx
  · rcases hyz s with ⟨s', hcut⟩ | hz
    · exact .inl ⟨s', hy ▸ hcut⟩
    · exact .inr (hz.trans hy)

end Eval

open Eval in
/-- With more fuel, nothing changes except that a run may no longer be cut off. -/
structure Grows (P : Platform) (p : Program) (n m : Nat) : Prop where
  expr : ∀ e, Extends (evalExpr p n e : Eval P _) (evalExpr p m e)
  args : ∀ es, Extends (evalArgs p n es : Eval P _) (evalArgs p m es)
  call : ∀ f args, Extends (Core.call p n f args : Eval P _) (Core.call p m f args)
  stmt : ∀ s, Extends (execStmt p n s : Eval P _) (execStmt p m s)
  block : ∀ ss, Extends (execBlock p n ss : Eval P _) (execBlock p m ss)
  loop : ∀ c step body, Extends (Core.loop p n c step body : Eval P _) (Core.loop p m c step body)

section Grows

open Eval

variable {p : Program} {n : Nat}

/-- With one unit more throughout, expressions end as before or had run out. -/
theorem Grows.expr_succ (h : Grows P p n (n + 1)) (e : Expr) :
    Extends (evalExpr p (n + 1) e : Eval P _) (evalExpr p (n + 2) e) := by
  cases e with
  | const c => exact extends_refl _
  | var v ty => exact extends_refl _
  | assign v e ty =>
    rw [evalExpr, evalExpr]
    exact (h.expr e).bind fun x => extends_refl _
  | call f args ty => exact (h.args args).bind fun xs => h.call f xs
  | binary op left right operandTy ty =>
    exact (h.expr left).bind fun a => (h.expr right).bind fun b => extends_refl _
  | step s v ty => exact extends_refl _
  | negate e ty => exact (h.expr e).bind fun x => extends_refl _
  | cast target e => exact (h.expr e).bind fun x => extends_refl _

theorem Grows.call_succ (h : Grows P p n (n + 1)) (f : String) (args : List (Value P)) :
    Extends (Core.call p (n + 1) f args) (Core.call p (n + 2) f args) := by
  rw [Core.call, Core.call]
  split
  · next g _ => exact ((h.block g.body).withStore _).bind fun c => extends_refl _
  · exact extends_refl _

/-- With one unit more throughout, statements end as before or had run out. -/
theorem Grows.stmt_succ (h : Grows P p n (n + 1)) (s : Stmt) :
    Extends (execStmt p (n + 1) s : Eval P _) (execStmt p (n + 2) s) := by
  cases s with
  | declare vs => exact extends_refl _
  | init v e => exact (h.expr e).bind fun x => extends_refl _
  | expr e => exact (h.expr e).bind fun x => extends_refl _
  | ret value =>
    cases value with
    | none => exact extends_refl _
    | some e => exact (h.expr e).bind fun x => extends_refl _
  | block body => exact h.block body
  | whileLoop c body => exact h.loop (some c) none body
  | forLoop init c step body =>
    exact (extends_discard h.expr init).bind fun _ => h.loop c step body
  | ifThen c thenBranch =>
    refine (extends_condition h.expr (some c)).bind fun b => ?_
    split
    · exact h.stmt thenBranch
    · exact extends_refl _
  | ifElse c thenBranch elseBranch =>
    refine (extends_condition h.expr (some c)).bind fun b => ?_
    split
    · exact h.stmt thenBranch
    · exact h.stmt elseBranch

theorem Grows.loop_succ (h : Grows P p n (n + 1)) (c step : Option Expr) (body : Stmt) :
    Extends (Core.loop p (n + 1) c step body : Eval P _) (Core.loop p (n + 2) c step body) := by
  refine (extends_condition h.expr c).bind fun b => ?_
  split
  · refine (h.stmt body).bind fun completion => ?_
    split
    · exact (extends_discard h.expr step).bind fun _ => h.loop c step body
    · exact extends_refl _
  · exact extends_refl _

/-- One more unit of fuel changes no evaluation that had enough, by induction on the fuel. -/
theorem grows_succ (p : Program) (n : Nat) : Grows P p n (n + 1) := by
  induction n with
  | zero =>
    exact ⟨fun _ => extends_exhausted _, fun _ => extends_exhausted _,
      fun _ _ => extends_exhausted _, fun _ => extends_exhausted _,
      fun _ => extends_exhausted _, fun _ _ _ => extends_exhausted _⟩
  | succ n ih =>
    refine ⟨ih.expr_succ, ?_, ih.call_succ, ih.stmt_succ, ?_, ih.loop_succ⟩
    · intro es
      cases es with
      | nil => exact extends_refl _
      | cons e es => exact (ih.expr e).bind fun x => (ih.args es).bind fun xs => extends_refl _
    · intro ss
      cases ss with
      | nil => exact extends_refl _
      | cons s ss =>
        refine (ih.stmt s).bind fun completion => ?_
        split
        · exact ih.block ss
        · exact extends_refl _

/-- A call that ends at all ends the same way with more fuel. -/
theorem call_mono {m : Nat} (hle : n ≤ m) (f : String) (args : List (Value P)) :
    Extends (Core.call p n f args) (Core.call p m f args) := by
  induction hle with
  | refl => exact extends_refl _
  | step _ ih => exact ih.trans ((grows_succ p _).call f args)

end Grows

/-! ## Endings -/

/-- How a program that ends may end. -/
inductive Ending (P : Platform) where
  | halted (world : World P)
  | trapped (world : World P)

/-- The ending that a run shows, if it has come to one. -/
def endingOf : EStateM.Result Stop (State P) α → Option (Ending P)
  | .ok _ s => some (.halted s.world)
  | .error .trap s => some (.trapped s.world)
  | .error _ _ => none

/-- In the world `w`, the program ends as `ending` says. -/
def Program.EndsWith (p : Program) (w : World P) (ending : Ending P) : Prop :=
  ∃ fuel, endingOf (call p fuel "main" [] ⟨.empty, w⟩) = some ending

/-- A program has one ending at most. -/
theorem Program.EndsWith.unique {p : Program} {w : World P} {a b : Ending P}
    (ha : p.EndsWith w a) (hb : p.EndsWith w b) : a = b := by
  obtain ⟨n, hn⟩ := ha
  obtain ⟨m, hm⟩ := hb
  have hle : ∀ {n m : Nat} {a b : Ending P}, n ≤ m →
      endingOf (call p n "main" [] ⟨.empty, w⟩) = some a →
      endingOf (call p m "main" [] ⟨.empty, w⟩) = some b → a = b := by
    intro n m a b h hn hm
    rcases call_mono h "main" [] ⟨.empty, w⟩ with ⟨s', hcut⟩ | heq
    · rw [hcut] at hn
      cases hn
    · rw [heq, hn] at hm
      exact Option.some.inj hm
  rcases Nat.le_total n m with h | h
  · exact hle h hn hm
  · exact (hle h hm hn).symm

end MiniC.Core
