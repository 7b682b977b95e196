import MiniC.Surface.Parser

/-!
# Proper trees

The surface tree has a node of its own for assignments, and could hold them a second time, as a
binary operator. A tree is *proper* if it does not. The parser builds proper trees only, because it
makes a binary node for no other operators than those that are not an assignment.
-/

namespace MiniC

/-! ## What a parser ensures -/

namespace Parser

variable {α β : Type} {p : Parser α} {P Q : α → Prop}

/-- Whatever `p` reads satisfies `P`. -/
def Ensures (p : Parser α) (P : α → Prop) : Prop := ∀ s a s', p s = .ok a s' → P a

theorem ensures_true (p : Parser α) : Ensures p fun _ => True := fun _ _ _ _ => trivial

theorem ensures_pure {a : α} (h : P a) : Ensures (pure a) P := by
  intro s b s' heq
  cases heq
  exact h

theorem ensures_throw (e : ParseError) : Ensures (throw e : Parser α) P := by
  intro s a s' heq
  cases heq

theorem ensures_missing : Ensures (missing : Parser α) P := by
  intro s a s' heq
  cases heq

/-- What the first parser ensures may be used for what the second does. -/
theorem ensures_bind {f : α → Parser β} {R : β → Prop} (hp : Ensures p P)
    (hf : ∀ a, P a → Ensures (f a) R) : Ensures (p >>= f) R := by
  intro s b s' heq
  change EStateM.bind p f s = _ at heq
  unfold EStateM.bind at heq
  split at heq
  · next a s₁ ha => exact hf a (hp s a s₁ ha) s₁ b s' heq
  · cases heq

/-- What the first part reads does not matter. -/
theorem ensures_bind_any {f : α → Parser β} {R : β → Prop} (hf : ∀ a, Ensures (f a) R) :
    Ensures (p >>= f) R :=
  ensures_bind (ensures_true p) fun a _ => hf a

/-- Both ways of a choice have to ensure it. -/
theorem ensures_ite {c : Prop} [Decidable c] {q : Parser α} (hp : Ensures p P)
    (hq : Ensures q P) : Ensures (if c then p else q) P := by
  split
  · exact hp
  · exact hq

end Parser

namespace Surface

open MiniC.Parser

mutual

/-- No binary operator is an assignment. -/
def Expr.Proper : Expr → Prop
  | .const _ | .var _ | .step _ _ => True
  | .assign _ e | .negate _ e | .paren e => e.Proper
  | .call _ args => ProperArgs args
  | .binary op left right => op.value ≠ .assign ∧ left.Proper ∧ right.Proper

def ProperArgs : List Expr → Prop
  | [] => True
  | e :: es => e.Proper ∧ ProperArgs es

end

/-- An expression that may be left out. -/
def ProperOptional (e : Option Expr) : Prop := ∀ x, e = some x → x.Proper

mutual

def Stmt.Proper : Stmt → Prop
  | .declare _ _ => True
  | .init _ _ e | .expr e => e.Proper
  | .ret _ value => ProperOptional value
  | .block body => ProperBlock body
  | .whileLoop c body => c.Proper ∧ body.Proper
  | .forLoop init c step body =>
    ProperOptional init ∧ ProperOptional c ∧ ProperOptional step ∧ body.Proper
  | .ifThen c thenBranch => c.Proper ∧ thenBranch.Proper
  | .ifElse c thenBranch elseBranch => c.Proper ∧ thenBranch.Proper ∧ elseBranch.Proper

def ProperBlock : List Stmt → Prop
  | [] => True
  | s :: ss => s.Proper ∧ ProperBlock ss

end

/-- A program without an assignment among its binary operators. -/
def ProperProgram (p : Program) : Prop := ∀ f ∈ p, ProperBlock f.body

/-! ## Expressions -/

/-- Arguments are proper one by one. -/
theorem properArgs_iff {es : List Expr} : ProperArgs es ↔ ∀ e ∈ es, e.Proper := by
  induction es with
  | nil => simp [ProperArgs]
  | cons e es ih => simp [ProperArgs, ih]

theorem ensures_bounded {α : Type} {p : Nat → Parser α} {P : α → Prop}
    (h : ∀ fuel, Ensures (p fuel) P) : Ensures (bounded p) P :=
  fun s => h _ s

/-- What every item ensures holds of all items of a list. -/
theorem ensures_commaList {α : Type} {item : Parser α} {P : α → Prop} (h : Ensures item P)
    (fuel : Nat) : Ensures (commaList item fuel) fun xs => ∀ x ∈ xs, P x := by
  induction fuel with
  | zero => exact ensures_missing
  | succ fuel ih =>
    refine ensures_bind h fun x hx => ensures_bind_any fun t => ?_
    split
    · refine ensures_bind ih fun xs hxs => ensures_pure ?_
      intro y hy
      rcases List.mem_cons.mp hy with rfl | hy
      · exact hx
      · exact hxs y hy
    · exact ensures_pure (by simpa using hx)
    · exact ensures_throw _

theorem ensures_items {α : Type} {item : Parser α} {P : α → Prop} (h : Ensures item P) :
    Ensures (items item) fun xs => ∀ x ∈ xs, P x := by
  refine ensures_bind_any fun closed => ensures_ite (ensures_pure (by simp)) ?_
  exact ensures_bounded (ensures_commaList h)

/-- An atom is proper if what its readers give is. -/
theorem atom_proper {factor expr : Parser Expr} (hf : Ensures factor Expr.Proper)
    (he : Ensures expr Expr.Proper) (t : Located Token) :
    Ensures (atom factor expr t) Expr.Proper := by
  unfold atom
  split
  · exact ensures_bind_any fun x => ensures_pure trivial
  · exact ensures_bind_any fun x => ensures_pure trivial
  · exact ensures_pure trivial
  · exact ensures_bind hf fun e h => ensures_pure h
  · exact ensures_bind he fun e h => ensures_bind_any fun _ => ensures_pure h
  · refine ensures_bind_any fun opened => ensures_ite ?_ (ensures_pure trivial)
    exact ensures_bind (ensures_items he) fun args h => ensures_pure (properArgs_iff.mpr h)
  · exact ensures_throw _

/-- A step behind an expression is a step of a variable, hence proper. -/
theorem stepBehind_proper {e : Expr} (h : e.Proper) : Ensures (stepBehind e) Expr.Proper := by
  refine ensures_bind_any fun t? => ?_
  split
  · exact ensures_pure h
  · split
    · exact ensures_throw _
    · exact ensures_pure trivial

/-- All three readers at once, by induction on their fuel. -/
theorem expression_readers_proper (fuel : Nat) :
    Ensures (factor fuel) Expr.Proper ∧ (∀ least, Ensures (expr fuel least) Expr.Proper) ∧
      ∀ least left, left.Proper → Ensures (climb fuel least left) Expr.Proper := by
  induction fuel with
  | zero => exact ⟨ensures_missing, fun _ => ensures_missing, fun _ _ h => ensures_pure h⟩
  | succ fuel ih =>
    obtain ⟨hfactor, hexpr, hclimb⟩ := ih
    refine ⟨?_, fun least => ?_, fun least left hleft => ?_⟩
    · refine ensures_bind_any fun t => ?_
      exact ensures_bind (atom_proper hfactor (hexpr 0) t) fun e h => stepBehind_proper h
    · exact ensures_bind hfactor fun left h => hclimb least left h
    · refine ensures_bind_any fun op? => ?_
      split
      · exact ensures_pure hleft
      · next op =>
        split
        -- `=` makes an assignment of what stands on its left, or is an error
        · split
          · exact ensures_throw _
          · exact ensures_bind (hexpr _) fun e h => hclimb least _ h
        · next hop =>
          exact ensures_bind (hexpr _) fun right h => hclimb least _ ⟨hop, hleft, h⟩

/-- Expressions that are read are proper. -/
theorem expression_proper : Ensures expression Expr.Proper :=
  ensures_bounded fun fuel => (expression_readers_proper fuel).2.1 0

/-! ## Statements -/

theorem condition_proper : Ensures condition Expr.Proper :=
  ensures_bind_any fun _ => ensures_bind expression_proper fun _ h =>
    ensures_bind_any fun _ => ensures_pure h

theorem optionalExpression_proper (stop : Token) :
    Ensures (optionalExpression stop) ProperOptional := by
  refine ensures_bind_any fun stopped => ensures_ite (ensures_pure ?_) ?_
  · intro x hx
    cases hx
  · refine ensures_bind expression_proper fun e h => ensures_bind_any fun _ => ensures_pure ?_
    intro x hx
    cases hx
    exact h

theorem declaration_proper : Ensures declaration Stmt.Proper := by
  refine ensures_bind_any fun ty => ensures_bind_any fun x => ensures_bind_any fun initialised => ?_
  refine ensures_ite ?_ ?_
  · exact ensures_bind expression_proper fun e h => ensures_bind_any fun _ => ensures_pure h
  · exact ensures_bind_any fun xs => ensures_bind_any fun _ => ensures_pure trivial

/-- A statement is proper if the expressions and statements in it are. -/
theorem statementAt_proper {statement : Parser Stmt} {block : Parser (List Stmt)}
    (hs : Ensures statement Stmt.Proper) (hb : Ensures block ProperBlock) (t : Token) :
    Ensures (statementAt statement block t) Stmt.Proper := by
  unfold statementAt
  split
  · exact declaration_proper
  · exact ensures_bind_any fun pos =>
      ensures_bind (optionalExpression_proper _) fun e h => ensures_pure h
  · exact ensures_bind hb fun body h => ensures_pure h
  · refine ensures_bind_any fun _ => ensures_bind condition_proper fun c hc => ?_
    refine ensures_bind hs fun thenBranch hthen => ensures_bind_any fun more => ensures_ite ?_ ?_
    · exact ensures_bind hs fun elseBranch helse => ensures_pure ⟨hc, hthen, helse⟩
    · exact ensures_pure ⟨hc, hthen⟩
  · refine ensures_bind_any fun _ => ensures_bind condition_proper fun c hc => ?_
    exact ensures_bind hs fun body hbody => ensures_pure ⟨hc, hbody⟩
  · refine ensures_bind_any fun _ => ensures_bind_any fun _ => ?_
    refine ensures_bind (optionalExpression_proper _) fun init hinit => ?_
    refine ensures_bind (optionalExpression_proper _) fun c hc => ?_
    refine ensures_bind (optionalExpression_proper _) fun step hstep => ?_
    exact ensures_bind hs fun body hbody => ensures_pure ⟨hinit, hc, hstep, hbody⟩
  · exact ensures_bind expression_proper fun e h => ensures_bind_any fun _ => ensures_pure h

/-- Statements and blocks that are read are proper, by induction on the bound of both readers. -/
theorem statement_readers_proper (fuel : Nat) :
    Ensures (statement fuel) Stmt.Proper ∧ Ensures (statements fuel) ProperBlock := by
  induction fuel with
  | zero => exact ⟨ensures_missing, ensures_missing⟩
  | succ fuel ih =>
    obtain ⟨hs, hss⟩ := ih
    refine ⟨?_, ?_⟩
    · exact ensures_bind_any fun t =>
        statementAt_proper hs (ensures_bind_any fun _ => hss) t
    · refine ensures_bind_any fun t => ensures_ite ?_ ?_
      · exact ensures_bind_any fun _ => ensures_pure trivial
      · exact ensures_bind hs fun s h => ensures_bind hss fun ss hrest => ensures_pure ⟨h, hrest⟩

theorem block_proper : Ensures block ProperBlock :=
  ensures_bind_any fun _ => ensures_bounded fun fuel => (statement_readers_proper fuel).2

/-! ## Programs -/

theorem function_proper : Ensures function fun f => ProperBlock f.body := by
  refine ensures_bind_any fun ret => ensures_bind_any fun name => ensures_bind_any fun _ => ?_
  exact ensures_bind_any fun params => ensures_bind block_proper fun body h => ensures_pure h

/-- Functions that are read have proper bodies. -/
theorem functions_proper (fuel : Nat) : Ensures (functions fuel) ProperProgram := by
  induction fuel with
  | zero => exact ensures_pure (by intro f hf; cases hf)
  | succ fuel ih =>
    refine ensures_bind_any fun s => ensures_ite (ensures_pure (by intro f hf; cases hf)) ?_
    refine ensures_bind function_proper fun f hf => ensures_bind ih fun fs hfs => ensures_pure ?_
    intro g hg
    rcases List.mem_cons.mp hg with rfl | hg
    · exact hf
    · exact hfs g hg

/-- What the parser reads is proper. -/
theorem parse_proper {ts : List (Located Token)} {p : Program} (h : parse ts = .ok p) :
    ProperProgram p := by
  unfold parse at h
  split at h
  · next heq =>
    split at h
    · cases h
      exact ensures_bounded functions_proper _ _ _ heq
    · cases h
  · cases h

end Surface

end MiniC
