import MiniC.Proofs.Core.Code
import MiniC.Proofs.Semantics.Source

/-!
# Code that ends in a return

Where the code of a branch ends in a return, the jump behind it is left out, and so is the `return`
at the end of a body. That is right because a statement whose code ends in a return never goes on
behind it (`Stmt.returns`).
-/

namespace MiniC.Core

open Jvm

variable {P : Platform} {t : Program} {calls : CallTable}

/-- The code of an expression does not end in a return. -/
theorem Expr.endsInReturn_code (e : Expr) (k : Nat) : endsInReturn (e.code calls k) = false := by
  have htruth : ∀ (l : Label) (test : List Op), endsInReturn (truth l test) = false := by
    intro l test
    exact endsInReturn_append_right _ (.emit (.label l)) (by simp) (by simp)
  cases e with
  | const c =>
    rw [Expr.code]
    cases c <;> rfl
  | var v ty => rfl
  | assign v e ty =>
    rw [Expr.code]
    exact endsInReturn_append_right _ (.store ty v) (by simp) (by simp)
  | call f args ty =>
    rw [Expr.code, invoke]
    split
    · exact endsInReturn_append_right _ _ (List.mem_singleton.mpr rfl) (by simp)
    · exact endsInReturn_append_right _ _ (List.mem_singleton.mpr rfl) (by simp)
  | binary op left right operandTy ty =>
    rw [Expr.code]
    split
    · exact htruth _ _
    · split
      · exact htruth _ _
      · exact endsInReturn_append_right _ _ (List.mem_singleton.mpr rfl) (by simp)
    · rfl
  | step s v ty =>
    rw [Expr.code, stepCode]
    exact endsInReturn_append_right _ (.store ty v) (by simp) (by simp)
  | negate e ty =>
    rw [Expr.code]
    exact endsInReturn_append_right _ _ (List.mem_singleton.mpr rfl) (by simp)
  | cast target e =>
    rw [Expr.code, convert]
    split
    · exact endsInReturn_append_right _ _ (List.mem_singleton.mpr rfl) (by simp)
    · exact endsInReturn_append_right _ _ (List.mem_singleton.mpr rfl) (by simp)

theorem Expr.endsInReturn_discarded (e : Expr) (k : Nat) :
    endsInReturn (e.discarded calls k) = false := by
  unfold Expr.discarded
  split
  · rw [List.append_nil]
    exact e.endsInReturn_code k
  · exact endsInReturn_append_right _ _ (List.mem_singleton.mpr rfl) (by simp)

theorem bind_ok {α β : Type} {x : Eval P α} {f : α → Eval P β} {s s'' : State P} {b : β}
    (h : (x >>= f) s = .ok b s'') : ∃ a s', x s = .ok a s' ∧ f a s' = .ok b s'' := by
  change EStateM.bind x f s = _ at h
  unfold EStateM.bind at h
  split at h
  · next a s' hx => exact ⟨a, s', hx, h⟩
  · cases h

mutual

/-- A statement whose code ends in a return never goes on behind it. -/
theorem Stmt.returns :
    ∀ (st : Stmt) {k n : Nat} {s s' : State P}, endsInReturn (st.code calls k) = true →
      execStmt t n st s ≠ .ok .next s'
  | st, _, 0, _, _, _ => by
    intro h
    simp only [execStmt] at h
    cases h
  | .declare vs, k, n + 1, s, s', hcode => by
    rw [Stmt.code, endsInReturn_reserve vs fun v => (v.id, v.ty)] at hcode
    cases hcode
  | .init v e, k, n + 1, s, s', hcode => by
    rw [Stmt.code, endsInReturn_append_right _ (.store v.ty v.id) (by simp) (by simp)] at hcode
    cases hcode
  | .expr e, k, n + 1, s, s', hcode => by
    rw [Stmt.code, e.endsInReturn_discarded] at hcode
    cases hcode
  | .ret none, k, n + 1, s, s', hcode => by
    intro h
    cases h
  | .ret (some e), k, n + 1, s, s', hcode => by
    intro h
    rw [execStmt] at h
    obtain ⟨x, s₁, -, h⟩ := bind_ok h
    cases h
  | .block body, k, n + 1, s, s', hcode => by
    rw [Stmt.code] at hcode
    rw [execStmt]
    exact block_returns body hcode
  | .whileLoop c body, k, n + 1, s, s', hcode => by
    rw [Stmt.code, endsInReturn_append_right _ (.emit (.label ⟨k + 1⟩)) (by simp) (by simp)]
      at hcode
    cases hcode
  | .forLoop init c step body, k, n + 1, s, s', hcode => by
    rw [Stmt.code, endsInReturn_append_right _ (.emit (.label ⟨k + optionalLabels init + 1⟩))
      (by simp) (by simp)] at hcode
    cases hcode
  | .ifThen c thenBranch, k, n + 1, s, s', hcode => by
    rw [Stmt.code, endsInReturn_append_right _ (.emit (.label ⟨k⟩)) (by simp) (by simp)] at hcode
    cases hcode
  | .ifElse c thenBranch elseBranch, k, n + 1, s, s', hcode => by
    rw [Stmt.code, endsInReturn_append_right _ (.emit (.label ⟨k + 1⟩)) (by simp) (by simp)]
      at hcode
    cases hcode

theorem block_returns :
    ∀ (ss : List Stmt) {k n : Nat} {s s' : State P},
      endsInReturn (codeOfBlock calls k ss) = true → execBlock t n ss s ≠ .ok .next s'
  | ss, _, 0, _, _, _ => by
    intro h
    simp only [execBlock] at h
    cases h
  | [], k, n + 1, s, s', hcode => by
    cases hcode
  | st :: ss, k, n + 1, s, s', hcode => by
    intro h
    rw [codeOfBlock] at hcode
    rw [execBlock] at h
    obtain ⟨completion, s₁, hst, h⟩ := bind_ok h
    cases completion with
    | returned x => cases h
    | next =>
      rcases endsInReturn_append hcode with hfirst | hrest
      · exact st.returns hfirst hst
      · exact block_returns ss hrest h

end

end MiniC.Core
