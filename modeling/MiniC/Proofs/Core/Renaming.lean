import Mathlib.Logic.Equiv.Basic
import MiniC.Jvm.Module
import MiniC.Proofs.Core.Building
import MiniC.Proofs.Core.Likeness

/-!
# Names of variables do not matter

A variable is known by its number once it is declared. The code of a function refers to variables by
number only, so it does not change when they are renamed, even to the name of a function: calls are
looked up in a table of their own.
-/

namespace MiniC

namespace Core

open Jvm

variable {r : String → String} {calls : CallTable}

/-! ## Code -/

mutual

theorem Stmt.labels_rename : ∀ s : Stmt, (s.rename r).labels = s.labels
  | .declare _ | .init _ _ | .expr _ | .ret _ => by simp only [Stmt.rename, Stmt.labels]
  | .block body => by simp only [Stmt.rename, Stmt.labels, labelsOfBlock_rename body]
  | .whileLoop _ body | .forLoop _ _ _ body | .ifThen _ body => by
    simp only [Stmt.rename, Stmt.labels, Stmt.labels_rename body]
  | .ifElse _ thenBranch elseBranch => by
    simp only [Stmt.rename, Stmt.labels, Stmt.labels_rename thenBranch,
      Stmt.labels_rename elseBranch]

theorem labelsOfBlock_rename : ∀ ss : List Stmt, labelsOfBlock (renameBlock r ss) = labelsOfBlock ss
  | [] => rfl
  | s :: ss => by
    simp only [renameBlock, labelsOfBlock, Stmt.labels_rename s, labelsOfBlock_rename ss]

end

/-- Room is reserved by number. -/
theorem reserve_rename (vs : List VarDecl) :
    (vs.map (VarDecl.rename r)).map (fun v => Op.reserve v.id v.ty) =
      vs.map fun v => Op.reserve v.id v.ty := by
  rw [List.map_map]
  rfl

mutual

/-- Code holds numbers of variables, not their names. -/
theorem Stmt.code_rename : ∀ (s : Stmt) (n : Nat), (s.rename r).code calls n = s.code calls n
  | .declare vars, n => by simp only [Stmt.rename, Stmt.code, reserve_rename]
  | .init _ _, n | .expr _, n => by simp only [Stmt.rename, Stmt.code, VarDecl.rename]
  | .ret _, n => by rw [Stmt.rename]
  | .block body, n => by simp only [Stmt.rename, Stmt.code, codeOfBlock_rename body]
  | .whileLoop _ body, n | .ifThen _ body, n => by
    simp only [Stmt.rename, Stmt.code, Stmt.code_rename body]
  | .forLoop _ _ _ body, n => by
    simp only [Stmt.rename, Stmt.code, Stmt.code_rename body, Stmt.labels_rename body]
  | .ifElse _ thenBranch elseBranch, n => by
    simp only [Stmt.rename, Stmt.code, Stmt.code_rename thenBranch,
      Stmt.code_rename elseBranch, Stmt.labels_rename thenBranch]

theorem codeOfBlock_rename :
    ∀ (ss : List Stmt) (n : Nat), codeOfBlock calls n (renameBlock r ss) = codeOfBlock calls n ss
  | [], _ => rfl
  | s :: ss, n => by
    simp only [renameBlock, codeOfBlock, Stmt.code_rename s, Stmt.labels_rename s,
      codeOfBlock_rename ss]

end

/-- Renaming variables changes no method. -/
theorem Function.method_rename (f : Function) : (f.rename r).method calls = f.method calls := by
  have hcode : (f.rename r).code calls = f.code calls := by
    simp only [Function.rename, Function.code, reserve_rename, codeOfBlock_rename]
    rfl
  have hlabels : labelsOfBlock (f.rename r).body = labelsOfBlock f.body :=
    labelsOfBlock_rename f.body
  rw [Function.method_eq, Function.method_eq, hcode, hlabels]
  rfl

theorem methods_rename (fs : List Function) :
    methods calls (fs.map (Function.rename r)) = methods calls fs := by
  induction fs with
  | nil => rfl
  | cons f fs ih => rw [List.map_cons, methods, methods, Function.method_rename, ih]

/-- The module of a program does not depend on what its variables are called. -/
theorem generate_rename (className : String) (p : Program) :
    generate className (renameProgram r p) = generate className p := by
  have htable : callTable className (renameProgram r p) = callTable className p := by
    rw [callTable, callTable, renameProgram, List.map_map]
    rfl
  unfold generate
  rw [htable, renameProgram]
  simp only [methods_rename]

/-! ## Outcomes -/

/-- The error with the variable renamed that it names. -/
def CheckError.rename (r : String → String) : CheckError → CheckError
  | noMain => noMain
  | problem e => problem ⟨e.value.rename r, e.pos⟩

/-- What becomes of the outcome of a check when variables are renamed: a core program differs in the
names that its declarations keep, an error in the variable that it names. -/
def renameOutcome (r : String → String) : Checked Program → Checked Program
  | .ok t => .ok (renameProgram r t)
  | .error (.error e) => .error (.error (e.rename r))
  | .error (.fault f) => .error (.fault f)

theorem eq_renameOutcome {x x' : Checked Program}
    (h : CheckedAlike r Eq (fun t u => u = renameProgram r t) x x') : x' = renameOutcome r x := by
  cases h with
  | ok h => exact congrArg Except.ok h
  | error h =>
    cases h with
    | noMain => rfl
    | fault f => rfl
    | @problem e e' h =>
      obtain ⟨value, pos⟩ := e'
      obtain ⟨hvalue, hpos⟩ := h
      simp only [renameOutcome, CheckError.rename]
      rw [show value = e.value.rename r from hvalue, show pos = e.pos from hpos.symm]

/-- Renaming the variables of a program, so that different names stay different, changes neither
whether it is accepted nor the text of its module. Its core tree and the error that it is rejected
for change only in the names of variables. -/
theorem checkProgram_renameVars (hr : r.Injective) (p : Surface.Program) :
    checkProgram (Surface.renameVarsInProgram r p) = renameOutcome r (checkProgram p) ∧
      ∀ t t', checkProgram p = .ok t →
        checkProgram (Surface.renameVarsInProgram r p) = .ok t' →
        ∀ className, (generate className t').map Module.text =
          (generate className t).map Module.text := by
  have houtcome := eq_renameOutcome
    (checkProgram_alike hr (Surface.alike_renameVarsInProgram (r := r) p))
  refine ⟨houtcome, fun t t' ht ht' className => ?_⟩
  rw [houtcome, ht] at ht'
  obtain rfl : renameProgram r t = t' := Except.ok.inj ht'
  rw [generate_rename]

/-- `void main() { int n = 1; { double n = n; } { double x = n; printDouble(x); } }` -/
def twoBlocks : Surface.Program :=
  [{ ret := .void
     name := ⟨"main", ⟨1, 6⟩⟩
     params := []
     body := [
       .init .int ⟨"n", ⟨1, 19⟩⟩ (.const ⟨.int 1, ⟨1, 23⟩⟩),
       .block [.init .double ⟨"n", ⟨1, 35⟩⟩ (.var ⟨"n", ⟨1, 39⟩⟩)],
       .block [
         .init .double ⟨"x", ⟨1, 52⟩⟩ (.var ⟨"n", ⟨1, 56⟩⟩),
         .expr (.call ⟨"printDouble", ⟨1, 59⟩⟩ [.var ⟨"x", ⟨1, 71⟩⟩])]] }]

/-- Gives the variable `x` the name of a function that is called, and another one its name. -/
def swapped : String → String := Equiv.swap "x" "printDouble"

theorem checkProgram_renameVars_twoBlocks :
    swapped.Injective ∧ (∃ t, checkProgram twoBlocks = .ok t) ∧
      checkProgram (Surface.renameVarsInProgram swapped twoBlocks) =
        renameOutcome swapped (checkProgram twoBlocks) ∧
      ∀ t t', checkProgram twoBlocks = .ok t →
        checkProgram (Surface.renameVarsInProgram swapped twoBlocks) = .ok t' →
        ∀ className, (generate className t').map Module.text =
          (generate className t).map Module.text :=
  have hinj : swapped.Injective := (Equiv.swap "x" "printDouble").injective
  ⟨hinj, ⟨_, rfl⟩, checkProgram_renameVars hinj twoBlocks⟩

end Core

end MiniC
