import MiniC.Proofs.Surface.Grammar

/-!
# Contexts

A *context* is a program with one place left open in which an expression stands. Whatever is put
there, what is spelled around it stays the same: the context frames what the expression spells.
-/

namespace MiniC.Surface

/-- An expression with an open place. -/
inductive ExprContext where
  | hole
  | assign (x : Name) (source : ExprContext)
  | argument (f : Name) (before : List Expr) (arg : ExprContext) (after : List Expr)
  | leftOperand (op : Located BinaryOp) (left : ExprContext) (right : Expr)
  | rightOperand (op : Located BinaryOp) (left : Expr) (right : ExprContext)
  | negate (pos : Pos) (operand : ExprContext)
  | paren (inner : ExprContext)

/-- The expression with `e` in the open place. -/
def ExprContext.fill (e : Expr) : ExprContext → Expr
  | .hole => e
  | .assign x source => .assign x (source.fill e)
  | .argument f before arg after => .call f (before ++ arg.fill e :: after)
  | .leftOperand op left right => .binary op (left.fill e) right
  | .rightOperand op left right => .binary op left (right.fill e)
  | .negate pos operand => .negate pos (operand.fill e)
  | .paren inner => .paren (inner.fill e)

/-- A statement with an open place in one of its expressions. -/
inductive StmtContext where
  | init (ty : Ty) (x : Name) (value : ExprContext)
  | expr (e : ExprContext)
  | ret (pos : Pos) (value : ExprContext)
  | block (before : List Stmt) (s : StmtContext) (after : List Stmt)
  | whileCondition (condition : ExprContext) (body : Stmt)
  | whileBody (condition : Expr) (body : StmtContext)
  | forInit (init : ExprContext) (condition step : Option Expr) (body : Stmt)
  | forCondition (init : Option Expr) (condition : ExprContext) (step : Option Expr) (body : Stmt)
  | forStep (init condition : Option Expr) (step : ExprContext) (body : Stmt)
  | forBody (init condition step : Option Expr) (body : StmtContext)
  | ifCondition (condition : ExprContext) (thenBranch : Stmt)
  | ifBranch (condition : Expr) (thenBranch : StmtContext)
  | ifElseCondition (condition : ExprContext) (thenBranch elseBranch : Stmt)
  | ifElseThen (condition : Expr) (thenBranch : StmtContext) (elseBranch : Stmt)
  | ifElseElse (condition : Expr) (thenBranch : Stmt) (elseBranch : StmtContext)

/-- The statement with `e` in the open place. -/
def StmtContext.fill (e : Expr) : StmtContext → Stmt
  | .init ty x value => .init ty x (value.fill e)
  | .expr k => .expr (k.fill e)
  | .ret pos value => .ret pos (some (value.fill e))
  | .block before s after => .block (before ++ s.fill e :: after)
  | .whileCondition c body => .whileLoop (c.fill e) body
  | .whileBody c body => .whileLoop c (body.fill e)
  | .forInit start c step body => .forLoop (some (start.fill e)) c step body
  | .forCondition start c step body => .forLoop start (some (c.fill e)) step body
  | .forStep start c step body => .forLoop start c (some (step.fill e)) body
  | .forBody start c step body => .forLoop start c step (body.fill e)
  | .ifCondition c thenBranch => .ifThen (c.fill e) thenBranch
  | .ifBranch c thenBranch => .ifThen c (thenBranch.fill e)
  | .ifElseCondition c thenBranch elseBranch => .ifElse (c.fill e) thenBranch elseBranch
  | .ifElseThen c thenBranch elseBranch => .ifElse c (thenBranch.fill e) elseBranch
  | .ifElseElse c thenBranch elseBranch => .ifElse c thenBranch (elseBranch.fill e)

/-- A function with an open place in its body. -/
structure FunctionContext where
  /-- The function up to the statement that has the open place. -/
  front : Function
  stmt : StmtContext
  back : List Stmt

def FunctionContext.fill (e : Expr) (f : FunctionContext) : Function :=
  { f.front with body := f.front.body ++ f.stmt.fill e :: f.back }

/-- A program with an open place in the body of one of its functions. -/
structure ProgramContext where
  before : List Function
  function : FunctionContext
  after : List Function

def ProgramContext.fill (e : Expr) (p : ProgramContext) : Program :=
  p.before ++ p.function.fill e :: p.after

/-! ## What a context spells -/

/-- The marks of an expression stand between marks that do not depend on it. -/
def Frames (f : Expr → List Mark) : Prop :=
  ∃ before behind, ∀ e, f e = before ++ (e.marks ++ behind)

section Frames

variable {f : Expr → List Mark}

theorem frames_marks : Frames Expr.marks := ⟨[], [], fun e => (List.append_nil e.marks).symm⟩

theorem Frames.append_left (h : Frames f) (ms : List Mark) : Frames fun e => ms ++ f e := by
  obtain ⟨before, behind, h⟩ := h
  exact ⟨ms ++ before, behind, fun e => by simp only [h, List.append_assoc]⟩

theorem Frames.append_right (h : Frames f) (ms : List Mark) : Frames fun e => f e ++ ms := by
  obtain ⟨before, behind, h⟩ := h
  exact ⟨before, behind ++ ms, fun e => by simp only [h, List.append_assoc]⟩

theorem Frames.cons (h : Frames f) (m : Mark) : Frames fun e => m :: f e := h.append_left [m]

/-- One of several items. -/
theorem Frames.separated (h : Frames f) (before after : List (List Mark)) :
    Frames fun e => Surface.separated (before ++ f e :: after) := by
  cases before with
  | nil =>
    simp only [List.nil_append, separated_cons]
    exact h.append_right _
  | cons m before =>
    simp only [List.cons_append, separated_cons, List.flatMap_append, List.flatMap_cons]
    exact (((h.append_right _).cons _).append_left _).append_left _

end Frames

/-- An expression context spells the same around whatever fills it. -/
theorem ExprContext.frames : ∀ k : ExprContext, Frames fun e => (k.fill e).marks
  | .hole => frames_marks
  | .assign _ source => (source.frames.cons _).cons _
  | .argument _ _ arg _ => by
    simp only [ExprContext.fill, Expr.marks, argMarks_eq_map, List.map_append, List.map_cons]
    exact (((arg.frames.separated _ _).append_right _).cons _).cons _
  | .leftOperand _ left _ => left.frames.append_right _
  | .rightOperand _ _ right => (right.frames.cons _).append_left _
  | .negate _ operand => operand.frames.cons _
  | .paren inner => (inner.frames.append_right _).cons _

theorem blockMarks_append (ss ss' : List Stmt) :
    blockMarks (ss ++ ss') = blockMarks ss ++ blockMarks ss' := by
  induction ss with
  | nil => rfl
  | cons s ss ih => rw [List.cons_append, blockMarks, blockMarks, ih, List.append_assoc]

/-- One of several statements. -/
theorem Frames.block {f : Expr → Stmt} (h : Frames fun e => (f e).marks)
    (before after : List Stmt) : Frames fun e => blockMarks (before ++ f e :: after) := by
  simp only [blockMarks_append, blockMarks]
  exact (h.append_right _).append_left _

/-- An expression in the parentheses of a statement. -/
theorem Frames.condition {f : Expr → Expr} (h : Frames fun e => (f e).marks) :
    Frames fun e => conditionMarks (f e) := (h.append_right _).cons _

/-- So does a statement context. -/
theorem StmtContext.frames : ∀ k : StmtContext, Frames fun e => (k.fill e).marks
  | .init _ _ value => (((value.frames.append_right _).cons _).cons _).cons _
  | .expr k => k.frames.append_right _
  | .ret _ value => (value.frames.append_right _).cons _
  | .block before s after => ((s.frames.block before after).append_right _).cons _
  | .whileCondition c _ => (c.frames.condition.append_right _).cons _
  | .whileBody _ body => (body.frames.append_left _).cons _
  | .forInit start _ _ _ => ((start.frames.append_right _).cons _).cons _
  | .forCondition _ c _ _ =>
    ((((c.frames.append_right _).cons _).append_left _).cons _).cons _
  | .forStep _ _ step _ =>
    ((((((step.frames.append_right _).cons _).append_left _).cons _).append_left _).cons _).cons _
  | .forBody _ _ _ body =>
    (((((((body.frames.cons _).append_left _).cons _).append_left _).cons _).append_left _).cons
      _).cons _
  | .ifCondition c _ => (c.frames.condition.append_right _).cons _
  | .ifBranch _ thenBranch => (thenBranch.frames.append_left _).cons _
  | .ifElseCondition c _ _ => (c.frames.condition.append_right _).cons _
  | .ifElseThen _ thenBranch _ =>
    ((thenBranch.frames.append_right _).append_left _).cons _
  | .ifElseElse _ _ elseBranch =>
    (((elseBranch.frames.cons _).append_left _).append_left _).cons _

theorem FunctionContext.frames (k : FunctionContext) : Frames fun e => (k.fill e).marks := by
  simp only [FunctionContext.fill, Function.marks]
  have hbody := k.stmt.frames.block k.front.body k.back
  exact ((((((hbody.append_right _).cons _).cons _).append_left _).cons _).cons _).cons _

/-- So does a whole program around one of its expressions. -/
theorem ProgramContext.frames (k : ProgramContext) : Frames fun e => programMarks (k.fill e) := by
  simp only [ProgramContext.fill, programMarks, List.flatMap_append, List.flatMap_cons]
  exact (k.function.frames.append_right _).append_left _

end MiniC.Surface
