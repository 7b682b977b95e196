import MiniC.Proofs.Core.Completion

/-!
# Which way jumps lead

The label of a jump is placed behind the jump, but for one jump in each loop: the last one, which
leads back to the test of the loop. So control gets back to an earlier instruction only at the end
of a `while` or a `for`, and the branches that depend on a condition always lead on.
-/

namespace MiniC.Core

open Jvm

/-! ## Loops -/

/-- The labels of a loop, for its test and for what comes behind it. -/
def Stmt.loopLabels? (n : Nat) : Stmt → Option (Label × Label)
  | .whileLoop _ _ => some (⟨n⟩, ⟨n + 1⟩)
  | .forLoop start _ _ _ => some (⟨n + optionalLabels start⟩, ⟨n + optionalLabels start + 1⟩)
  | _ => none

mutual

/-- The loops in a statement whose labels are numbered from `n`, each with the number of its first
label. -/
def Stmt.loops (n : Nat) : Stmt → List (Nat × Stmt)
  | .declare _ | .init _ _ | .expr _ | .ret _ => []
  | .block body => loopsOfBlock n body
  | .whileLoop c body => (n, .whileLoop c body) :: body.loops (n + 2 + c.labels)
  | .forLoop init c step body =>
    (n, .forLoop init c step body) ::
      body.loops (n + optionalLabels init + 2 + optionalLabels c)
  | .ifThen c thenBranch => thenBranch.loops (n + 1 + c.labels)
  | .ifElse c thenBranch elseBranch =>
    thenBranch.loops (n + 2 + c.labels) ++
      elseBranch.loops (n + 2 + c.labels + thenBranch.labels)

def loopsOfBlock (n : Nat) : List Stmt → List (Nat × Stmt)
  | [] => []
  | s :: ss => s.loops n ++ loopsOfBlock (n + s.labels) ss

end

/-- The code of the loop `s` stands around the instruction, which is its jump back to the test. -/
def ClosesLoop (calls : CallTable) (slot : VarId → Nat) (n : Nat) (s : Stmt)
    (before : List Instruction) (ins : Instruction) (behind : List Instruction) : Prop :=
  ∃ test done front round back, s.loopLabels? n = some (test, done) ∧
    lower slot (s.code calls n) = round ++ [Instruction.goto test, .label done] ∧
    .label test ∈ round ∧ before = front ++ round ∧ ins = .goto test ∧
    behind = .label done :: back

/-- Every jump in the code leads to a label behind it, to one in `out`, or closes one of the
loops. -/
def Ahead (calls : CallTable) (slot : VarId → Nat) (loops : List (Nat × Stmt)) (out : List Label)
    (c : List Instruction) : Prop :=
  ∀ before ins behind l, c = before ++ ins :: behind → ins.target? = some l →
    l ∈ out ∨ .label l ∈ behind ∨
      ∃ loop ∈ loops, ClosesLoop calls slot loop.1 loop.2 before ins behind

variable {calls : CallTable} {slot : VarId → Nat} {loops : List (Nat × Stmt)} {out : List Label}

/-! ## Pieces of code -/

section Pieces

variable {c d : List Instruction}

/-- What is put around code leaves its loops in place. -/
theorem ClosesLoop.frame {n : Nat} {s : Stmt} {before behind : List Instruction}
    {ins : Instruction} (h : ClosesLoop calls slot n s before ins behind)
    (c d : List Instruction) : ClosesLoop calls slot n s (c ++ before) ins (behind ++ d) := by
  obtain ⟨test, done, front, round, back, hlabels, hcode, htest, rfl, rfl, rfl⟩ := h
  exact ⟨test, done, c ++ front, round, back ++ d, hlabels, hcode, htest,
    (List.append_assoc ..).symm, rfl, rfl⟩

/-- An instruction of code in two pieces is in one of them. -/
theorem append_eq_append_cons {before behind : List Instruction} {ins : Instruction}
    (h : c ++ d = before ++ ins :: behind) :
    (∃ rest, c = before ++ ins :: rest ∧ behind = rest ++ d) ∨
      ∃ rest, before = c ++ rest ∧ d = rest ++ ins :: behind := by
  rcases List.append_eq_append_iff.mp h with ⟨rest, rfl, hd⟩ | ⟨rest, rfl, hrest⟩
  · exact .inr ⟨rest, rfl, hd⟩
  · cases rest with
    | nil => exact .inr ⟨[], by simp, hrest.symm⟩
    | cons i rest =>
      obtain ⟨rfl, rfl⟩ := List.cons.inj hrest
      exact .inl ⟨rest, rfl, rfl⟩

/-- More loops and more labels outside allow more. -/
theorem Ahead.mono {loops' : List (Nat × Stmt)} {out' : List Label}
    (h : Ahead calls slot loops out c) (hloops : loops ⊆ loops') (hout : out ⊆ out') :
    Ahead calls slot loops' out' c := by
  intro before ins behind l hc hl
  rcases h before ins behind l hc hl with hmem | hmem | ⟨loop, hloop, hcloses⟩
  · exact .inl (hout hmem)
  · exact .inr (.inl hmem)
  · exact .inr (.inr ⟨loop, hloops hloop, hcloses⟩)

/-- The second piece may place labels for the first, and may close a loop that begins there. -/
theorem Ahead.append_of {out' : List Label} (hc : Ahead calls slot loops out' c)
    (hout : ∀ l ∈ out', l ∈ out ∨ .label l ∈ d)
    (hd : ∀ rest ins behind l, d = rest ++ ins :: behind → ins.target? = some l →
      l ∈ out ∨ .label l ∈ behind ∨
        ∃ loop ∈ loops, ClosesLoop calls slot loop.1 loop.2 (c ++ rest) ins behind) :
    Ahead calls slot loops out (c ++ d) := by
  intro before ins behind l heq hl
  rcases append_eq_append_cons heq with ⟨rest, hsplit, rfl⟩ | ⟨rest, rfl, hsplit⟩
  · rcases hc before ins rest l hsplit hl with hmem | hmem | ⟨loop, hloop, hcloses⟩
    · exact (hout l hmem).imp_right fun hd => .inl (List.mem_append_right rest hd)
    · exact .inr (.inl (List.mem_append_left d hmem))
    · exact .inr (.inr ⟨loop, hloop, hcloses.frame [] d⟩)
  · exact hd rest ins behind l hsplit hl

theorem Ahead.append (hc : Ahead calls slot loops out c) (hd : Ahead calls slot loops out d) :
    Ahead calls slot loops out (c ++ d) := by
  refine hc.append_of (fun l hl => .inl hl) fun rest ins behind l hsplit hl => ?_
  rcases hd rest ins behind l hsplit hl with hmem | hmem | ⟨loop, hloop, hcloses⟩
  · exact .inl hmem
  · exact .inr (.inl hmem)
  · exact .inr (.inr ⟨loop, hloop, by simpa using hcloses.frame c []⟩)

theorem ahead_of_no_target (h : ∀ ins ∈ c, ins.target? = none) :
    Ahead calls slot loops out c := by
  rintro before ins behind l rfl hl
  rw [h ins (by simp)] at hl
  cases hl

/-- Code without jumps behind. -/
theorem Ahead.append_none (hc : Ahead calls slot loops out c)
    (hd : ∀ ins ∈ d, ins.target? = none) : Ahead calls slot loops out (c ++ d) :=
  hc.append (ahead_of_no_target hd)

theorem Ahead.cons {ins : Instruction} (hins : ins.target? = none)
    (hc : Ahead calls slot loops out c) : Ahead calls slot loops out (ins :: c) := by
  have hfirst : Ahead calls slot loops out [ins] := ahead_of_no_target (by simpa using hins)
  exact hfirst.append hc

/-- One jump out of the code. -/
theorem ahead_jump {ins : Instruction} {l : Label} (hins : ins.target? = some l) (hl : l ∈ out) :
    Ahead calls slot loops out [ins] := by
  intro before ins' behind l' heq hl'
  have hmem : ins' ∈ [ins] := by simp [heq]
  rw [List.mem_singleton.mp hmem, hins] at hl'
  cases hl'
  exact .inl hl

/-- A label catches the jumps in front of it. -/
theorem Ahead.place {l : Label} (h : Ahead calls slot loops (l :: out) c) :
    Ahead calls slot loops out (c ++ [Instruction.label l]) := by
  refine h.append_of ?_ fun rest ins behind l' hsplit hl' => ?_
  · intro l' hl'
    rcases List.mem_cons.mp hl' with rfl | hmem
    · exact .inr (List.mem_singleton.mpr rfl)
    · exact .inl hmem
  · have hmem : ins ∈ [Instruction.label l] := by simp [hsplit]
    rw [List.mem_singleton.mp hmem] at hl'
    cases hl'

/-- The code of a loop, if all jumps on the way round lead on. -/
theorem ahead_loop {n : Nat} {s : Stmt} {round : List Instruction} {test done : Label}
    (hs : (n, s) ∈ loops) (hlabels : s.loopLabels? n = some (test, done))
    (hcode : lower slot (s.code calls n) = round ++ [Instruction.goto test, .label done])
    (htest : .label test ∈ round) (h : Ahead calls slot loops [done] round) :
    Ahead calls slot loops [] (lower slot (s.code calls n)) := by
  rw [hcode]
  refine h.append_of (fun l hl => .inr (by simp [List.mem_singleton.mp hl])) ?_
  intro rest ins behind l hsplit hl
  cases rest with
  | nil =>
    obtain ⟨rfl, rfl⟩ := List.cons.inj hsplit
    exact .inr (.inr ⟨(n, s), hs, test, done, [], round, [], hlabels, hcode, htest, by simp, rfl,
      rfl⟩)
  | cons i rest =>
    have hmem : ins ∈ [Instruction.label done] := by simp [(List.cons.inj hsplit).2]
    rw [List.mem_singleton.mp hmem] at hl
    cases hl

end Pieces

/-! ## Expressions -/

theorem ahead_truth {done : Label} {test : List Op}
    (h : Ahead calls slot loops (done :: out) (lower slot test)) :
    Ahead calls slot loops out (lower slot (truth done test)) := by
  have hfalse : Ahead calls slot loops (done :: out) [Instruction.pop .bool, .iconst 0] :=
    ahead_of_no_target (by simp [Instruction.target?])
  have hcode : lower slot (truth done test) =
      Instruction.iconst 1 :: (lower slot test ++ [Instruction.pop .bool, .iconst 0]) ++
        [Instruction.label done] := by
    simp [truth, Op.lower]
  rw [hcode]
  exact (Ahead.cons rfl (h.append hfalse)).place

theorem ahead_compare (cond : Cond) (ty : Ty) {l : Label} (hl : l ∈ out) :
    Ahead calls slot loops out (lower slot (Jvm.compare cond ty l)) := by
  unfold Jvm.compare
  split
  · refine Ahead.cons ?_ (ahead_jump rfl hl)
    split <;> rfl
  · exact ahead_jump rfl hl

mutual

/-- Expressions jump ahead only. -/
theorem Expr.code_ahead :
    ∀ (e : Expr) (n : Nat) (out : List Label),
      Ahead calls slot loops out (lower slot (e.code calls n))
  | .const c, n, out => by
    rw [Expr.code]
    refine ahead_of_no_target ?_
    cases c <;> simp [Op.lower, constant, Instruction.target?]
  | .var v ty, n, out => by
    rw [Expr.code]
    exact ahead_of_no_target (by simp [Op.lower, Instruction.target?])
  | .assign v e ty, n, out => by
    rw [Expr.code, lower_append]
    exact (e.code_ahead n out).append_none (by simp [Op.lower, Instruction.target?])
  | .call f args ty, n, out => by
    rw [Expr.code, lower_append, invoke]
    refine (codeOfArgs_ahead args n out).append_none ?_
    split <;> simp [Op.lower, Instruction.target?]
  | .binary op left right operandTy ty, n, out => by
    have hoperands : ∀ j k out,
        Ahead calls slot loops out (lower slot (left.code calls j ++ right.code calls k)) :=
      fun j k out => lower_append slot _ _ ▸
        (left.code_ahead j out).append (right.code_ahead k out)
    have hmem : (⟨n⟩ : Label) ∈ ⟨n⟩ :: out := List.mem_cons_self
    rw [Expr.code]
    split
    · refine ahead_truth ?_
      rw [lower_append]
      exact (hoperands _ _ _).append (ahead_compare _ operandTy hmem)
    · split
      · refine ahead_truth ?_
        rw [lower_append]
        exact (hoperands _ _ _).append (Ahead.cons rfl (ahead_jump rfl hmem))
      · rw [lower_append]
        exact (hoperands _ _ _).append_none (by simp [Op.lower, Instruction.target?])
    · exact ahead_of_no_target (by simp [Op.lower])
  | .step s v ty, n, out => by
    rw [Expr.code, stepCode]
    refine ahead_of_no_target ?_
    split_ifs <;> simp [Op.lower, Instruction.target?]
  | .negate e ty, n, out => by
    rw [Expr.code, lower_append]
    exact (e.code_ahead n out).append_none (by simp [Op.lower, Instruction.target?])
  | .cast target e, n, out => by
    rw [Expr.code, lower_append, convert]
    refine (e.code_ahead n out).append_none ?_
    split <;> simp [Op.lower, Instruction.target?]

theorem codeOfArgs_ahead :
    ∀ (es : List Expr) (n : Nat) (out : List Label),
      Ahead calls slot loops out (lower slot (codeOfArgs calls n es))
  | [], n, out => by
    rw [codeOfArgs]
    exact ahead_of_no_target (by simp)
  | e :: es, n, out => by
    rw [codeOfArgs, lower_append]
    exact (e.code_ahead n out).append (codeOfArgs_ahead es _ out)

end

/-! ## Statements -/

theorem Expr.discarded_ahead (e : Expr) (n : Nat) :
    Ahead calls slot loops out (lower slot (e.discarded calls n)) := by
  unfold Expr.discarded
  rw [lower_append]
  refine (e.code_ahead n out).append_none ?_
  split <;> simp [Op.lower, Instruction.target?]

theorem Expr.branchIfFalse_ahead (e : Expr) (n : Nat) {l : Label} (hl : l ∈ out) :
    Ahead calls slot loops out (lower slot (e.branchIfFalse calls n l)) := by
  unfold Expr.branchIfFalse
  rw [lower_append]
  exact (e.code_ahead n out).append (ahead_jump rfl hl)

theorem optionalCode_ahead {code : Expr → List Op}
    (h : ∀ e, Ahead calls slot loops out (lower slot (code e))) (e : Option Expr) :
    Ahead calls slot loops out (lower slot (optionalCode code e)) := by
  cases e with
  | none => exact ahead_of_no_target (by simp [optionalCode])
  | some e => exact h e

mutual

/-- The loops whose ends lead back are those of the statement. -/
theorem Stmt.code_ahead :
    ∀ (s : Stmt) (n : Nat), Ahead calls slot (s.loops n) [] (lower slot (s.code calls n))
  | .declare vs, n => by
    rw [Stmt.code, lower_reserve]
    exact ahead_of_no_target (by simp)
  | .init v e, n => by
    rw [Stmt.code, lower_append]
    exact (e.code_ahead n []).append_none (by simp [Op.lower, Instruction.target?])
  | .expr e, n => by
    rw [Stmt.code]
    exact e.discarded_ahead n
  | .ret none, n => by
    rw [Stmt.code]
    exact ahead_of_no_target (by simp [Op.lower, Instruction.target?])
  | .ret (some e), n => by
    rw [Stmt.code, lower_append]
    exact (e.code_ahead n []).append_none (by simp [Op.lower, Instruction.target?])
  | .block body, n => by
    rw [Stmt.code, Stmt.loops]
    exact codeOfBlock_ahead body n
  | .whileLoop c body, n => by
    have hbody := (body.code_ahead (n + 2 + c.labels)).mono
      (List.subset_cons_self (n, .whileLoop c body) _) (List.nil_subset [⟨n + 1⟩])
    rw [Stmt.loops]
    refine ahead_loop List.mem_cons_self rfl
      (by rw [Stmt.code, lower_append, lower_append, lower_append]; rfl) (by simp [Op.lower]) ?_
    refine Ahead.append (Ahead.append ?_ ?_) hbody
    · exact ahead_of_no_target (by simp [Op.lower, Instruction.target?])
    · exact c.branchIfFalse_ahead (n + 2) List.mem_cons_self
  | .forLoop init c step body, n => by
    have hbody := (body.code_ahead (n + optionalLabels init + 2 + optionalLabels c)).mono
      (List.subset_cons_self (n, .forLoop init c step body) _)
      (List.nil_subset [⟨n + optionalLabels init + 1⟩])
    rw [Stmt.loops]
    refine ahead_loop List.mem_cons_self rfl
      (by rw [Stmt.code]; simp only [lower_append]; rfl) (by simp [Op.lower]) ?_
    refine Ahead.append (Ahead.append (Ahead.append (Ahead.append ?_ ?_) ?_) hbody) ?_
    · exact optionalCode_ahead (fun e => e.discarded_ahead n) init
    · exact ahead_of_no_target (by simp [Op.lower, Instruction.target?])
    · exact optionalCode_ahead (fun e => e.branchIfFalse_ahead _ List.mem_cons_self) c
    · exact optionalCode_ahead (fun e => e.discarded_ahead _) step
  | .ifThen c thenBranch, n => by
    have hthen := (thenBranch.code_ahead (n + 1 + c.labels)).mono (List.Subset.refl _)
      (List.nil_subset [⟨n⟩])
    rw [Stmt.code, Stmt.loops, lower_append, lower_append]
    exact ((c.branchIfFalse_ahead (n + 1) List.mem_cons_self).append hthen).place
  | .ifElse c thenBranch elseBranch, n => by
    have hthen := (thenBranch.code_ahead (n + 2 + c.labels)).mono
      (List.subset_append_left _ (elseBranch.loops (n + 2 + c.labels + thenBranch.labels)))
      (List.nil_subset [⟨n⟩, ⟨n + 1⟩])
    have helse := (elseBranch.code_ahead (n + 2 + c.labels + thenBranch.labels)).mono
      (List.subset_append_right (thenBranch.loops (n + 2 + c.labels)) _)
      (List.nil_subset [⟨n + 1⟩])
    rw [Stmt.code, Stmt.loops]
    simp only [lower_append]
    -- the first part may jump to both labels, the second to the last one only
    refine Ahead.place (Ahead.append (Ahead.place (Ahead.append (Ahead.append
      (c.branchIfFalse_ahead (n + 2) List.mem_cons_self) hthen) ?_)) helse)
    split
    · exact ahead_of_no_target (by simp)
    · exact ahead_jump rfl (by simp)

theorem codeOfBlock_ahead :
    ∀ (ss : List Stmt) (n : Nat),
      Ahead calls slot (loopsOfBlock n ss) [] (lower slot (codeOfBlock calls n ss))
  | [], n => by
    rw [codeOfBlock]
    exact ahead_of_no_target (by simp)
  | s :: ss, n => by
    rw [codeOfBlock, loopsOfBlock, lower_append]
    exact ((s.code_ahead n).mono (List.subset_append_left ..) (List.Subset.refl [])).append
      ((codeOfBlock_ahead ss _).mono (List.subset_append_right ..) (List.Subset.refl []))

end

/-! ## Methods -/

/-- In the code of a function, only its loops jump back. -/
theorem Function.code_ahead (f : Function) :
    Ahead calls (slotIn f.varTypes) (loopsOfBlock 0 f.body) [] (f.instructions calls) := by
  rw [Function.instructions_eq]
  refine (codeOfBlock_ahead f.body 0).append_none ?_
  split <;> simp [Instruction.target?]

theorem PlacesLabels.perm {n : Nat} {c : List Instruction} (h : PlacesLabels 0 n c) :
    (labelsIn c).Perm ((List.range n).map Label.mk) := by
  have hrange : ((List.range n).map Label.mk).Nodup :=
    List.nodup_range.map fun _ _ h => Label.mk.inj h
  rw [List.perm_iff_count]
  rintro ⟨i⟩
  rw [h i, hrange.count]
  simp

/-- A label that is placed in front of an instruction is not placed behind it as well. -/
theorem not_mem_behind {before behind : List Instruction} {ins : Instruction} {l : Label}
    (h : (labelsIn (before ++ ins :: behind)).Nodup) (hbefore : .label l ∈ before) :
    .label l ∉ behind := by
  intro hbehind
  obtain ⟨i, hi⟩ := List.getElem?_of_mem hbefore
  obtain ⟨j, hj⟩ := List.getElem?_of_mem hbehind
  have hcode : before ++ ins :: behind = before ++ ([ins] ++ behind) := rfl
  rw [hcode, labelsIn_append, labelsIn_append] at h
  exact (List.nodup_append.mp h).2.2 l (mem_labelsIn hi) l
    (List.mem_append_right _ (mem_labelsIn hj)) rfl

/-- `int count(int n) { int i = 0; while (i < n) for (; n > 9; n--) i++; return i; }` and a `main`
that does nothing. -/
def countProgram : Surface.Program :=
  let n : Name := ⟨"n", .nowhere⟩
  let i : Name := ⟨"i", .nowhere⟩
  let int (k : Int32) : Surface.Expr := .const ⟨.int k, .nowhere⟩
  [{ ret := .int
     name := ⟨"count", .nowhere⟩
     params := [⟨.int, n⟩]
     body := [
       .init .int i (int 0),
       .whileLoop (.binary ⟨.lt, .nowhere⟩ (.var i) (.var n))
         (.forLoop none (some (.binary ⟨.gt, .nowhere⟩ (.var n) (int 9)))
           (some (.step .postDecrement n)) (.expr (.step .postIncrement i))),
       .ret .nowhere (some (.var i))] },
   { ret := .void, name := ⟨"main", .nowhere⟩, params := [], body := [] }]

def countCore : Program := [
  ⟨"count", ⟨.int, [.int]⟩, [⟨⟨0⟩, "n", .int⟩], [
    .init ⟨⟨1⟩, "i", .int⟩ (.const (.int 0)),
    .whileLoop (.binary .lt (.var ⟨1⟩ .int) (.var ⟨0⟩ .int) .int .bool)
      (.forLoop none (some (.binary .gt (.var ⟨0⟩ .int) (.const (.int 9)) .int .bool))
        (some (.step .postDecrement ⟨0⟩ .int)) (.expr (.step .postIncrement ⟨1⟩ .int))),
    .ret (some (.var ⟨1⟩ .int))]⟩,
  ⟨"main", ⟨.void, []⟩, [], []⟩]

end MiniC.Core
