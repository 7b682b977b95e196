import Mathlib.Data.List.Forall2
import MiniC.Surface.Basic

/-!
# Programs that are alike

Two surface programs are *alike* if they differ only in what the variables are called and in where
things stand. A map `r` says how a variable of the first program is called in the second, and a
relation `P` which place in the second text corresponds to a place in the first. Everything else,
the names of functions among it, is the same in both.

Renaming the variables of a program gives one that is alike, with every part in its old place.
-/

namespace MiniC

/-- The value of `y` is the image of that of `x`, at the corresponding place. -/
structure Located.Alike {α : Type} (f : α → α) (P : Pos → Pos → Prop) (x y : Located α) :
    Prop where
  value : y.value = f x.value
  pos : P x.pos y.pos

theorem Located.alike_refl {α : Type} (x : Located α) : x.Alike id Eq x := ⟨rfl, rfl⟩

namespace Surface

variable {r : String → String} {P : Pos → Pos → Prop}

mutual

inductive Expr.Alike (r : String → String) (P : Pos → Pos → Prop) : Expr → Expr → Prop where
  | const {c d : Located Constant} : c.Alike id P d → Expr.Alike r P (.const c) (.const d)
  | var {x y : Name} : x.Alike r P y → Expr.Alike r P (.var x) (.var y)
  | assign {x y : Name} {e d : Expr} : x.Alike r P y → Expr.Alike r P e d →
      Expr.Alike r P (.assign x e) (.assign y d)
  | call {f g : Name} {es ds : List Expr} : f.Alike id P g → ArgsAlike r P es ds →
      Expr.Alike r P (.call f es) (.call g ds)
  | binary {op op' : Located BinaryOp} {e₁ e₂ d₁ d₂ : Expr} : op.Alike id P op' →
      Expr.Alike r P e₁ d₁ → Expr.Alike r P e₂ d₂ →
      Expr.Alike r P (.binary op e₁ e₂) (.binary op' d₁ d₂)
  | step {x y : Name} (s : Step) : x.Alike r P y → Expr.Alike r P (.step s x) (.step s y)
  | negate {p q : Pos} {e d : Expr} : P p q → Expr.Alike r P e d →
      Expr.Alike r P (.negate p e) (.negate q d)
  | paren {e d : Expr} : Expr.Alike r P e d → Expr.Alike r P (.paren e) (.paren d)

inductive ArgsAlike (r : String → String) (P : Pos → Pos → Prop) :
    List Expr → List Expr → Prop where
  | nil : ArgsAlike r P [] []
  | cons {e d : Expr} {es ds : List Expr} : Expr.Alike r P e d → ArgsAlike r P es ds →
      ArgsAlike r P (e :: es) (d :: ds)

end

/-- An expression that may be left out. -/
def OptionalAlike (r : String → String) (P : Pos → Pos → Prop) :
    Option Expr → Option Expr → Prop :=
  Option.Rel (Expr.Alike r P)

mutual

inductive Stmt.Alike (r : String → String) (P : Pos → Pos → Prop) : Stmt → Stmt → Prop where
  | declare (ty : Ty) {xs ys : List Name} : List.Forall₂ (Located.Alike r P) xs ys →
      Stmt.Alike r P (.declare ty xs) (.declare ty ys)
  | init (ty : Ty) {x y : Name} {e d : Expr} : x.Alike r P y → e.Alike r P d →
      Stmt.Alike r P (.init ty x e) (.init ty y d)
  | expr {e d : Expr} : e.Alike r P d → Stmt.Alike r P (.expr e) (.expr d)
  | ret {p q : Pos} {e d : Option Expr} : P p q → OptionalAlike r P e d →
      Stmt.Alike r P (.ret p e) (.ret q d)
  | block {ss ds : List Stmt} : BlockAlike r P ss ds → Stmt.Alike r P (.block ss) (.block ds)
  | whileLoop {c c' : Expr} {s d : Stmt} : c.Alike r P c' → Stmt.Alike r P s d →
      Stmt.Alike r P (.whileLoop c s) (.whileLoop c' d)
  | forLoop {init init' c c' step step' : Option Expr} {s d : Stmt} : OptionalAlike r P init init' →
      OptionalAlike r P c c' → OptionalAlike r P step step' → Stmt.Alike r P s d →
      Stmt.Alike r P (.forLoop init c step s) (.forLoop init' c' step' d)
  | ifThen {c c' : Expr} {s d : Stmt} : c.Alike r P c' → Stmt.Alike r P s d →
      Stmt.Alike r P (.ifThen c s) (.ifThen c' d)
  | ifElse {c c' : Expr} {s₁ s₂ d₁ d₂ : Stmt} : c.Alike r P c' → Stmt.Alike r P s₁ d₁ →
      Stmt.Alike r P s₂ d₂ → Stmt.Alike r P (.ifElse c s₁ s₂) (.ifElse c' d₁ d₂)

inductive BlockAlike (r : String → String) (P : Pos → Pos → Prop) :
    List Stmt → List Stmt → Prop where
  | nil : BlockAlike r P [] []
  | cons {s d : Stmt} {ss ds : List Stmt} : Stmt.Alike r P s d → BlockAlike r P ss ds →
      BlockAlike r P (s :: ss) (d :: ds)

end

structure Param.Alike (r : String → String) (P : Pos → Pos → Prop) (p q : Param) : Prop where
  ty : q.ty = p.ty
  name : p.name.Alike r P q.name

structure Function.Alike (r : String → String) (P : Pos → Pos → Prop) (f g : Function) :
    Prop where
  ret : g.ret = f.ret
  name : f.name.Alike id P g.name
  params : List.Forall₂ (Param.Alike r P) f.params g.params
  body : BlockAlike r P f.body g.body

/-- Function by function alike. -/
def ProgramAlike (r : String → String) (P : Pos → Pos → Prop) : Program → Program → Prop :=
  List.Forall₂ (Function.Alike r P)

/-! ## What is the same in programs that are alike -/

/-- Diagnostics about expressions that are alike name corresponding places. -/
theorem Expr.Alike.pos : ∀ {e d : Expr}, e.Alike r P d → P e.pos d.pos
  | _, _, .const h => h.pos
  | _, _, .var h | _, _, .assign h _ | _, _, .step _ h => h.pos
  | _, _, .call h _ => h.pos
  | _, _, .binary _ h _ => h.pos
  | _, _, .negate h _ => h
  | _, _, .paren h => h.pos

/-- Alike calls have equally many arguments. -/
theorem ArgsAlike.length_eq : ∀ {es ds : List Expr}, ArgsAlike r P es ds → ds.length = es.length
  | _, _, .nil => rfl
  | _, _, .cons _ h => congrArg Nat.succ h.length_eq

theorem map_ty_of_alike {ps qs : List Param} (h : List.Forall₂ (Param.Alike r P) ps qs) :
    qs.map Param.ty = ps.map Param.ty := by
  induction h with
  | nil => rfl
  | cons hp _ ih => rw [List.map_cons, List.map_cons, hp.ty, ih]

/-- Alike functions have the same signature: names of parameters do not count. -/
theorem Function.Alike.signature {f g : Function} (h : f.Alike r P g) :
    g.signature = f.signature := by
  rw [Function.signature, Function.signature, h.ret, map_ty_of_alike h.params]

/-! ## Renaming -/

/-- The name with its spelling replaced. -/
def renameVar (r : String → String) (x : Name) : Name := ⟨r x.value, x.pos⟩

mutual

/-- Renames every use of a variable, and no function. -/
def Expr.renameVars (r : String → String) : Expr → Expr
  | .const c => .const c
  | .var x => .var (renameVar r x)
  | .assign x e => .assign (renameVar r x) (e.renameVars r)
  | .call f args => .call f (renameVarsInArgs r args)
  | .binary op left right => .binary op (left.renameVars r) (right.renameVars r)
  | .step s x => .step s (renameVar r x)
  | .negate pos e => .negate pos (e.renameVars r)
  | .paren e => .paren (e.renameVars r)

def renameVarsInArgs (r : String → String) : List Expr → List Expr
  | [] => []
  | e :: es => e.renameVars r :: renameVarsInArgs r es

end

mutual

/-- Renames every variable that is declared or used. -/
def Stmt.renameVars (r : String → String) : Stmt → Stmt
  | .declare ty xs => .declare ty (xs.map (renameVar r))
  | .init ty x e => .init ty (renameVar r x) (e.renameVars r)
  | .expr e => .expr (e.renameVars r)
  | .ret pos value => .ret pos (value.map (Expr.renameVars r))
  | .block body => .block (renameVarsInBlock r body)
  | .whileLoop c body => .whileLoop (c.renameVars r) (body.renameVars r)
  | .forLoop init c step body =>
    .forLoop (init.map (Expr.renameVars r)) (c.map (Expr.renameVars r))
      (step.map (Expr.renameVars r)) (body.renameVars r)
  | .ifThen c thenBranch => .ifThen (c.renameVars r) (thenBranch.renameVars r)
  | .ifElse c thenBranch elseBranch =>
    .ifElse (c.renameVars r) (thenBranch.renameVars r) (elseBranch.renameVars r)

def renameVarsInBlock (r : String → String) : List Stmt → List Stmt
  | [] => []
  | s :: ss => s.renameVars r :: renameVarsInBlock r ss

end

/-- Renames the parameters and every variable of the body; the function keeps its name. -/
def Function.renameVars (r : String → String) (f : Function) : Function :=
  { f with
    params := f.params.map fun p => { p with name := renameVar r p.name }
    body := renameVarsInBlock r f.body }

def renameVarsInProgram (r : String → String) (p : Program) : Program :=
  p.map (Function.renameVars r)

theorem alike_renameVar (x : Name) : x.Alike r Eq (renameVar r x) := ⟨rfl, rfl⟩

mutual

/-- A renamed expression is alike to the expression, place for place. -/
theorem Expr.alike_renameVars : ∀ e : Expr, e.Alike r Eq (e.renameVars r)
  | .const c => .const c.alike_refl
  | .var x => .var (alike_renameVar x)
  | .step s x => .step s (alike_renameVar x)
  | .assign x e => .assign (alike_renameVar x) (Expr.alike_renameVars e)
  | .call f args => .call f.alike_refl (alike_renameVarsInArgs args)
  | .binary op left right =>
    .binary op.alike_refl (Expr.alike_renameVars left) (Expr.alike_renameVars right)
  | .negate _ e => .negate rfl (Expr.alike_renameVars e)
  | .paren e => .paren (Expr.alike_renameVars e)

theorem alike_renameVarsInArgs : ∀ es : List Expr, ArgsAlike r Eq es (renameVarsInArgs r es)
  | [] => .nil
  | e :: es => .cons (Expr.alike_renameVars e) (alike_renameVarsInArgs es)

end

theorem alike_renameVarsInOptional :
    ∀ e : Option Expr, OptionalAlike r Eq e (e.map (Expr.renameVars r))
  | none => .none
  | some e => .some (Expr.alike_renameVars e)

mutual

/-- A renamed statement is alike to the statement, place for place. -/
theorem Stmt.alike_renameVars : ∀ s : Stmt, s.Alike r Eq (s.renameVars r)
  | .declare ty _ =>
    .declare ty (List.forall₂_map_right_iff.mpr
      (List.forall₂_same.mpr fun x _ => alike_renameVar x))
  | .init ty x e => .init ty (alike_renameVar x) (Expr.alike_renameVars e)
  | .expr e => .expr (Expr.alike_renameVars e)
  | .ret _ value => .ret rfl (alike_renameVarsInOptional value)
  | .block body => .block (alike_renameVarsInBlock body)
  | .whileLoop c body => .whileLoop (Expr.alike_renameVars c) (Stmt.alike_renameVars body)
  | .forLoop init c step body =>
    .forLoop (alike_renameVarsInOptional init) (alike_renameVarsInOptional c)
      (alike_renameVarsInOptional step) (Stmt.alike_renameVars body)
  | .ifThen c thenBranch =>
    .ifThen (Expr.alike_renameVars c) (Stmt.alike_renameVars thenBranch)
  | .ifElse c thenBranch elseBranch =>
    .ifElse (Expr.alike_renameVars c) (Stmt.alike_renameVars thenBranch)
      (Stmt.alike_renameVars elseBranch)

theorem alike_renameVarsInBlock : ∀ ss : List Stmt, BlockAlike r Eq ss (renameVarsInBlock r ss)
  | [] => .nil
  | s :: ss => .cons (Stmt.alike_renameVars s) (alike_renameVarsInBlock ss)

end

theorem Function.alike_renameVars (f : Function) : f.Alike r Eq (f.renameVars r) where
  ret := rfl
  name := f.name.alike_refl
  params := List.forall₂_map_right_iff.mpr
    (List.forall₂_same.mpr fun p _ => ⟨rfl, alike_renameVar p.name⟩)
  body := alike_renameVarsInBlock f.body

/-- A renamed program is alike to the program, place for place. -/
theorem alike_renameVarsInProgram (p : Program) :
    ProgramAlike r Eq p (renameVarsInProgram r p) :=
  List.forall₂_map_right_iff.mpr (List.forall₂_same.mpr fun f _ => Function.alike_renameVars f)

/-! ## Renaming that changes nothing -/

theorem renameVar_id (x : Name) : renameVar id x = x := rfl

mutual

theorem Expr.renameVars_id : ∀ e : Expr, e.renameVars id = e
  | .const _ | .var _ | .step _ _ => by simp only [Expr.renameVars, renameVar_id]
  | .assign _ e | .negate _ e | .paren e => by
    simp only [Expr.renameVars, renameVar_id, Expr.renameVars_id e]
  | .call _ args => by simp only [Expr.renameVars, renameVarsInArgs_id args]
  | .binary _ left right => by
    simp only [Expr.renameVars, Expr.renameVars_id left, Expr.renameVars_id right]

theorem renameVarsInArgs_id : ∀ es : List Expr, renameVarsInArgs id es = es
  | [] => rfl
  | e :: es => by simp only [renameVarsInArgs, Expr.renameVars_id e, renameVarsInArgs_id es]

end

theorem renameVarsInOptional_id (e : Option Expr) : e.map (Expr.renameVars id) = e := by
  cases e with
  | none => rfl
  | some e => rw [Option.map_some, Expr.renameVars_id]

mutual

theorem Stmt.renameVars_id : ∀ s : Stmt, s.renameVars id = s
  | .declare _ xs => by
    simp only [Stmt.renameVars, show renameVar id = id from funext renameVar_id, List.map_id]
  | .init _ _ e | .expr e => by simp only [Stmt.renameVars, renameVar_id, Expr.renameVars_id e]
  | .ret _ value => by simp only [Stmt.renameVars, renameVarsInOptional_id value]
  | .block body => by simp only [Stmt.renameVars, renameVarsInBlock_id body]
  | .whileLoop c body | .ifThen c body => by
    simp only [Stmt.renameVars, Expr.renameVars_id c, Stmt.renameVars_id body]
  | .forLoop init c step body => by
    simp only [Stmt.renameVars, renameVarsInOptional_id, Stmt.renameVars_id body]
  | .ifElse c thenBranch elseBranch => by
    simp only [Stmt.renameVars, Expr.renameVars_id c, Stmt.renameVars_id thenBranch,
      Stmt.renameVars_id elseBranch]

theorem renameVarsInBlock_id : ∀ ss : List Stmt, renameVarsInBlock id ss = ss
  | [] => rfl
  | s :: ss => by simp only [renameVarsInBlock, Stmt.renameVars_id s, renameVarsInBlock_id ss]

end

theorem Function.renameVars_id (f : Function) : f.renameVars id = f := by
  have hparams : (fun p : Param => { p with name := renameVar id p.name }) = id := rfl
  rw [Function.renameVars, renameVarsInBlock_id, hparams, List.map_id]

/-- Every function is like itself. -/
theorem Function.alike_refl (f : Function) : f.Alike id Eq f := by
  have h := Function.alike_renameVars (r := id) f
  rwa [Function.renameVars_id] at h

end Surface

end MiniC
