import Mathlib.Data.List.Forall2
import MiniC.Surface.Basic
import MiniC.Token.Basic

/-!
# The grammar

A surface tree spells a sequence of tokens. It stores the positions of some of them, of names,
constants, operators, minus signs and `return`, and leaves the others to the text; a *mark* is a
token that the tree asks for, with its position if the tree stores it.

Not every tree has a text that means it. The *normal* ones have: operands bind tight enough for
their operator, so that no parentheses are missing, and an `else` stands next to the `if` that it
belongs to.
-/

namespace MiniC

/-- The token that spells the operator. -/
def BinaryOp.token : BinaryOp → Token
  | add => .plus
  | sub => .minus
  | mul => .star
  | div => .slash
  | rem => .percent
  | lt => .less
  | gt => .greater
  | le => .lessEqual
  | ge => .greaterEqual
  | eq => .equalEqual
  | ne => .notEqual
  | and => .andAnd
  | or => .orOr
  | assign => .equal

/-- The token that steps a variable, on either side of it. -/
def Step.token (s : Step) : Token := if s.isIncrement then .increment else .decrement

theorem Token.binaryOp?_eq_some {t : Token} {op : BinaryOp} :
    t.binaryOp? = some op ↔ t = op.token := by
  constructor
  · intro h
    unfold Token.binaryOp? at h
    split at h <;> cases h <;> rfl
  · rintro rfl
    cases op <;> rfl

namespace Surface

/-! ## Marks -/

/-- A token that a tree asks for, and where, if the tree knows. -/
structure Mark where
  token : Token
  pos? : Option Pos
deriving Repr, DecidableEq

/-- The token is the one that is asked for, and stands where the tree says. -/
def Mark.Matches (m : Mark) (t : Located Token) : Prop :=
  t.value = m.token ∧ ∀ pos ∈ m.pos?, t.pos = pos

instance (m : Mark) (t : Located Token) : Decidable (m.Matches t) :=
  inferInstanceAs (Decidable (_ ∧ _))

/-- The tokens are those of the marks, in their order and with the positions that the marks have. -/
def Spells (ms : List Mark) (ts : List (Located Token)) : Prop := List.Forall₂ Mark.Matches ms ts

instance (ms : List Mark) (ts : List (Located Token)) : Decidable (Spells ms ts) :=
  inferInstanceAs (Decidable (List.Forall₂ _ _ _))

/-- A token whose position is not stored. -/
def bare (t : Token) : Mark := ⟨t, none⟩

/-- A token whose position is stored. -/
def placed (t : Token) (pos : Pos) : Mark := ⟨t, some pos⟩

def nameMark (x : Name) : Mark := placed (.ident x.value) x.pos

/-- Items with commas between them. -/
def separated (items : List (List Mark)) : List Mark := [bare .comma].intercalate items

/-! ## What a tree spells -/

mutual

def Expr.marks : Expr → List Mark
  | .const c => [placed (.const c.value) c.pos]
  | .var x => [nameMark x]
  | .assign x e => nameMark x :: bare .equal :: e.marks
  | .call f args =>
    nameMark f :: bare .openParen :: (separated (argMarks args) ++ [bare .closeParen])
  | .binary op left right => left.marks ++ placed op.value.token op.pos :: right.marks
  | .step s x =>
    if s.isPost then [nameMark x, bare s.token] else [bare s.token, nameMark x]
  | .negate pos e => placed .minus pos :: e.marks
  | .paren e => bare .openParen :: (e.marks ++ [bare .closeParen])

/-- What each of the arguments spells. -/
def argMarks : List Expr → List (List Mark)
  | [] => []
  | e :: es => e.marks :: argMarks es

end

/-- An expression that may be left out. -/
def optionalMarks : Option Expr → List Mark
  | none => []
  | some e => e.marks

/-- A condition, in its parentheses. -/
def conditionMarks (c : Expr) : List Mark :=
  bare .openParen :: (c.marks ++ [bare .closeParen])

mutual

def Stmt.marks : Stmt → List Mark
  | .declare ty xs =>
    bare (.type ty) :: (separated (xs.map fun x => [nameMark x]) ++ [bare .semicolon])
  | .init ty x e =>
    bare (.type ty) :: nameMark x :: bare .equal :: (e.marks ++ [bare .semicolon])
  | .expr e => e.marks ++ [bare .semicolon]
  | .ret pos value => placed .kwReturn pos :: (optionalMarks value ++ [bare .semicolon])
  | .block body => bare .openBrace :: (blockMarks body ++ [bare .closeBrace])
  | .whileLoop c body => bare .kwWhile :: (conditionMarks c ++ body.marks)
  | .forLoop init c step body =>
    bare .kwFor :: bare .openParen :: (optionalMarks init ++ bare .semicolon ::
      (optionalMarks c ++ bare .semicolon ::
        (optionalMarks step ++ bare .closeParen :: body.marks)))
  | .ifThen c thenBranch => bare .kwIf :: (conditionMarks c ++ thenBranch.marks)
  | .ifElse c thenBranch elseBranch =>
    bare .kwIf :: (conditionMarks c ++ (thenBranch.marks ++ bare .kwElse :: elseBranch.marks))

def blockMarks : List Stmt → List Mark
  | [] => []
  | s :: ss => s.marks ++ blockMarks ss

end

def Param.marks (p : Param) : List Mark := [bare (.type p.ty), nameMark p.name]

def Function.marks (f : Function) : List Mark :=
  bare (.type f.ret) :: nameMark f.name :: bare .openParen ::
    (separated (f.params.map Param.marks) ++ bare .closeParen :: bare .openBrace ::
      (blockMarks f.body ++ [bare .closeBrace]))

def programMarks (p : Program) : List Mark := p.flatMap Function.marks

/-! ## Normal trees -/

namespace Expr

/-- The expression can be an operand where operators have to bind at least as tightly as `least`: it
is no assignment, and if it is binary, its operator does. -/
def IsOperand (least : Nat) : Expr → Prop
  | .assign _ _ => False
  | .binary op _ _ => least ≤ op.value.precedence
  | _ => True

/-- Neither a binary expression nor an assignment. -/
def IsFactor : Expr → Prop
  | .assign _ _ | .binary _ _ _ => False
  | _ => True

end Expr

mutual

/-- Operands bind tight enough, so that the tree needs no more parentheses than it has. Operators
group to the left: the right operand has to bind tighter than the operator. -/
def Expr.Normal : Expr → Prop
  | .const _ | .var _ | .step _ _ => True
  | .assign _ e | .paren e => e.Normal
  | .call _ args => NormalArgs args
  | .binary op left right =>
    op.value ≠ .assign ∧ left.IsOperand op.value.precedence ∧
      right.IsOperand (op.value.precedence + 1) ∧ left.Normal ∧ right.Normal
  | .negate _ e => e.IsFactor ∧ e.Normal

def NormalArgs : List Expr → Prop
  | [] => True
  | e :: es => e.Normal ∧ NormalArgs es

end

/-- An expression that may be left out. -/
def NormalOptional : Option Expr → Prop
  | none => True
  | some e => e.Normal

/-- The statement ends in an `if` without `else`, which would take an `else` behind it. -/
def Stmt.EndsOpen : Stmt → Prop
  | .ifThen _ _ => True
  | .whileLoop _ body | .forLoop _ _ _ body => body.EndsOpen
  | .ifElse _ _ elseBranch => elseBranch.EndsOpen
  | _ => False

mutual

/-- A declaration names a variable, and the first branch of an `if` with `else` does not take the
`else` for itself. -/
def Stmt.Normal : Stmt → Prop
  | .declare _ xs => xs ≠ []
  | .init _ _ e | .expr e => e.Normal
  | .ret _ value => NormalOptional value
  | .block body => NormalBlock body
  | .whileLoop c body => c.Normal ∧ body.Normal
  | .forLoop init c step body =>
    NormalOptional init ∧ NormalOptional c ∧ NormalOptional step ∧ body.Normal
  | .ifThen c thenBranch => c.Normal ∧ thenBranch.Normal
  | .ifElse c thenBranch elseBranch =>
    c.Normal ∧ ¬thenBranch.EndsOpen ∧ thenBranch.Normal ∧ elseBranch.Normal

def NormalBlock : List Stmt → Prop
  | [] => True
  | s :: ss => s.Normal ∧ NormalBlock ss

end

def NormalProgram (p : Program) : Prop := ∀ f ∈ p, NormalBlock f.body

/-! ## Lists -/

/-- Arguments spell what they spell one by one. -/
theorem argMarks_eq_map (es : List Expr) : argMarks es = es.map Expr.marks := by
  induction es with
  | nil => rfl
  | cons e es ih => rw [argMarks, ih, List.map_cons]

theorem normalArgs_iff {es : List Expr} : NormalArgs es ↔ ∀ e ∈ es, e.Normal := by
  induction es with
  | nil => simp [NormalArgs]
  | cons e es ih => simp [NormalArgs, ih]

theorem separated_singleton (m : List Mark) : separated [m] = m := by
  simp [separated, List.intercalate]

theorem separated_cons_cons (m n : List Mark) (ms : List (List Mark)) :
    separated (m :: n :: ms) = m ++ bare .comma :: separated (n :: ms) := by
  simp [separated, List.intercalate]

/-- A list spells its first item and then each further one with a comma in front. -/
theorem separated_cons (m : List Mark) (ms : List (List Mark)) :
    separated (m :: ms) = m ++ ms.flatMap (bare .comma :: ·) := by
  induction ms generalizing m with
  | nil => rw [separated_singleton, List.flatMap_nil, List.append_nil]
  | cons n ms ih => rw [separated_cons_cons, ih, List.flatMap_cons, List.cons_append]

end Surface

end MiniC
