import MiniC.Proofs.Core.Checked

/-!
# Parentheses do not matter

Parentheses group operands for the reader of the text; in the tree the grouping is there without
them. A program and the same program without its parentheses are checked to the same end: to one
core program, to one error at one place, or to one fault.

Two recursions have to agree for that. Inference goes through parentheses, and so does the position
that an error about an expression names, which is computed from the expression by itself.
-/

namespace MiniC

/-! ## Removing parentheses -/

namespace Surface

mutual

/-- The expression with all parentheses removed, those around it and those inside. -/
def Expr.strip : Expr → Expr
  | .const c => .const c
  | .var x => .var x
  | .assign x e => .assign x e.strip
  | .call f args => .call f (stripArgs args)
  | .binary op left right => .binary op left.strip right.strip
  | .step s x => .step s x
  | .negate pos e => .negate pos e.strip
  | .paren e => e.strip

def stripArgs : List Expr → List Expr
  | [] => []
  | e :: es => e.strip :: stripArgs es

end

mutual

def Stmt.strip : Stmt → Stmt
  | .declare ty xs => .declare ty xs
  | .init ty x e => .init ty x e.strip
  | .expr e => .expr e.strip
  | .ret pos value => .ret pos (value.map Expr.strip)
  | .block body => .block (stripBlock body)
  | .whileLoop c body => .whileLoop c.strip body.strip
  | .forLoop init c step body =>
    .forLoop (init.map Expr.strip) (c.map Expr.strip) (step.map Expr.strip) body.strip
  | .ifThen c thenBranch => .ifThen c.strip thenBranch.strip
  | .ifElse c thenBranch elseBranch => .ifElse c.strip thenBranch.strip elseBranch.strip

def stripBlock : List Stmt → List Stmt
  | [] => []
  | s :: ss => s.strip :: stripBlock ss

end

def Function.strip (f : Function) : Function := { f with body := stripBlock f.body }

def stripProgram (p : Program) : Program := p.map Function.strip

/-- An expression is placed where it is placed in parentheses. -/
theorem Expr.pos_strip : ∀ e : Expr, e.strip.pos = e.pos
  | .const _ | .var _ | .assign _ _ | .call _ _ | .step _ _ | .negate _ _ => by
    simp only [Expr.strip, Expr.pos]
  | .binary _ left _ => by simp only [Expr.strip, Expr.pos, Expr.pos_strip left]
  | .paren e => by simp only [Expr.strip, Expr.pos, Expr.pos_strip e]

theorem length_stripArgs (es : List Expr) : (stripArgs es).length = es.length := by
  induction es with
  | nil => rfl
  | cons e es ih => rw [stripArgs, List.length_cons, List.length_cons, ih]

end Surface

namespace Core

variable {env : Environment}

/-! ## Expressions -/

mutual

/-- Parentheses change nothing about what is inferred, not even the places of failures. -/
theorem infer_strip : ∀ e : Surface.Expr, infer env e.strip = infer env e
  | .const _ | .var _ | .step _ _ => by rw [Surface.Expr.strip]
  | .assign x e => by
    simp only [Surface.Expr.strip, infer, infer_strip e, Surface.Expr.pos_strip]
  | .call f args => by
    simp only [Surface.Expr.strip, infer, inferArgs_strip args, Surface.length_stripArgs]
  | .binary op left right => by
    simp only [Surface.Expr.strip, infer, infer_strip left, infer_strip right,
      Surface.Expr.pos_strip]
  | .negate pos e => by simp only [Surface.Expr.strip, infer, infer_strip e]
  | .paren e => by simp only [Surface.Expr.strip, infer, infer_strip e]

theorem inferArgs_strip : ∀ (es : List Surface.Expr) (tys : List Ty),
    inferArgs env (Surface.stripArgs es) tys = inferArgs env es tys
  | [], tys => by rw [Surface.stripArgs]
  | _ :: _, [] => by simp only [Surface.stripArgs, inferArgs]
  | e :: es, ty :: tys => by
    simp only [Surface.stripArgs, inferArgs, infer_strip e, inferArgs_strip es,
      Surface.Expr.pos_strip]

end

/-- Nor about what is accepted at a type. -/
theorem checkExpr_strip (expected : Ty) (e : Surface.Expr) :
    checkExpr env expected e.strip = checkExpr env expected e := by
  rw [checkExpr, checkExpr, infer_strip, Surface.Expr.pos_strip]

theorem optionally_strip {check : Surface.Expr → Checked Expr}
    (hcheck : ∀ e, check e.strip = check e) (e : Option Surface.Expr) :
    optionally check (e.map Surface.Expr.strip) = optionally check e := by
  cases e with
  | none => rfl
  | some e => simp only [Option.map_some, optionally, hcheck e]

theorem checkReturn_strip (result : Ty) (pos : Pos) (value : Option Surface.Expr) :
    checkReturn env result pos (value.map Surface.Expr.strip) =
      checkReturn env result pos value := by
  cases value with
  | none => rfl
  | some e =>
    simp only [Option.map_some, checkReturn, infer_strip, checkExpr_strip, Surface.Expr.pos_strip]

/-! ## Statements -/

mutual

/-- Statements are accepted alike without parentheses, by induction on the statement. -/
theorem checkStmt_strip {result : Ty} :
    ∀ (s : Surface.Stmt) (env : Environment), checkStmt result env s.strip = checkStmt result env s
  | .declare _ _, env => by rw [Surface.Stmt.strip]
  | .init _ _ e, env => by simp only [Surface.Stmt.strip, checkStmt, checkExpr_strip]
  | .expr e, env => by simp only [Surface.Stmt.strip, checkStmt, infer_strip]
  | .ret pos value, env => by simp only [Surface.Stmt.strip, checkStmt, checkReturn_strip]
  | .block body, env => by simp only [Surface.Stmt.strip, checkStmt, checkStmts_strip body]
  | .whileLoop c body, env => by
    simp only [Surface.Stmt.strip, checkStmt, checkExpr_strip, checkStmt_strip body]
  | .forLoop init c step body, env => by
    simp only [Surface.Stmt.strip, checkStmt, optionally_strip infer_strip,
      optionally_strip (checkExpr_strip .bool), checkStmt_strip body]
  | .ifThen c thenBranch, env => by
    simp only [Surface.Stmt.strip, checkStmt, checkExpr_strip, checkStmt_strip thenBranch]
  | .ifElse c thenBranch elseBranch, env => by
    simp only [Surface.Stmt.strip, checkStmt, checkExpr_strip, checkStmt_strip thenBranch,
      checkStmt_strip elseBranch]

theorem checkStmts_strip {result : Ty} :
    ∀ (ss : List Surface.Stmt) (env : Environment),
      checkStmts result env (Surface.stripBlock ss) = checkStmts result env ss
  | [], env => by rw [Surface.stripBlock]
  | s :: ss, env => by
    simp only [Surface.stripBlock, checkStmts, checkStmt_strip s, checkStmts_strip ss]

end

/-! ## Programs -/

theorem checkFunction_strip (f : Surface.Function) :
    checkFunction env f.strip = checkFunction env f := by
  simp only [checkFunction, Surface.Function.strip, checkStmts_strip]

/-- Signatures have no expressions in them. -/
theorem addSignatures_strip (fs : List Surface.Function) :
    addSignatures env (fs.map Surface.Function.strip) = addSignatures env fs := by
  refine addSignatures_congr ?_
  rw [List.map_map]
  rfl

theorem checkFunctions_strip (fs : List Surface.Function) :
    checkFunctions env (fs.map Surface.Function.strip) = checkFunctions env fs := by
  induction fs with
  | nil => rfl
  | cons f fs ih => simp only [List.map_cons, checkFunctions, checkFunction_strip, ih]

/-- A program is checked to the same end with its parentheses and without them: to the same core
program, to the same error at the same place, or to the same fault. -/
theorem checkProgram_strip (p : Surface.Program) :
    checkProgram (Surface.stripProgram p) = checkProgram p := by
  simp only [checkProgram_eq, Surface.stripProgram, addSignatures_strip, checkFunctions_strip]

end Core

end MiniC
