import Mathlib
import MiniC.Proofs.Surface.Reading

/-!
# What the parser has read

A tree that the parser gives spells the tokens that it was given, none lost and none added, and it
is normal.

That operands bind tight enough follows from where precedence climbing stops: behind an expression
that was read for the bound `least` no operator comes that binds at least as tightly
(`Stops least`), so the operator that does come next can have the expression for its left operand.
The fuel matters here, for a reader that stops for want of fuel stops anywhere; with two units of
fuel for each token it never does.
-/

namespace MiniC.Surface

open MiniC.Parser

/-! ## Lists in parentheses -/

section Items

variable {α : Type} {item : Parser α} (marks : α → List Mark) (P : α → Prop) {n : Nat}

/-- What is read as a comma list is its items with commas between them, up to the parenthesis. -/
theorem commaList_sound
    (hitem : ∀ s a s', s.rest.length ≤ n → item s = .ok a s' → Reads (marks a) s s' ∧ P a)
    (fuel : Nat) :
    ∀ s xs s', s.rest.length ≤ n → commaList item fuel s = .ok xs s' →
      Reads (separated (xs.map marks) ++ [bare .closeParen]) s s' ∧ xs ≠ [] ∧ ∀ x ∈ xs, P x := by
  induction fuel with
  | zero => exact fun s xs s' _ h => absurd h run_missing
  | succ fuel ih =>
    intro s xs s' hlen h
    simp only [commaList, run_bind] at h
    obtain ⟨x, s₁, hx, ⟨t, pos⟩, s₂, ht, h⟩ := h
    obtain ⟨hx, hP⟩ := hitem s x s₁ hlen hx
    have ht := reads_bare.mpr ⟨_, any_eq_ok.mp ht⟩
    cases t with
    | comma =>
      simp only [run_bind, run_pure] at h
      obtain ⟨ys, s₃, hys, rfl, rfl⟩ := h
      have hlen₂ := Nat.le_trans ht.length_le (Nat.le_trans hx.length_le hlen)
      obtain ⟨hys, hne, hPs⟩ := ih s₂ ys s₃ hlen₂ hys
      obtain ⟨y, ys, rfl⟩ := List.exists_cons_of_ne_nil hne
      refine ⟨?_, List.cons_ne_nil _ _, List.forall_mem_cons.mpr ⟨hP, hPs⟩⟩
      rw [List.map_cons, List.map_cons, separated_cons_cons, List.append_assoc, List.cons_append]
      exact hx.append (ht.andThen hys)
    | closeParen =>
      obtain ⟨rfl, rfl⟩ := run_pure.mp h
      refine ⟨?_, List.cons_ne_nil _ _, by simpa using hP⟩
      rw [List.map_singleton, separated_singleton]
      exact hx.append ht
    | _ => exact absurd h run_throw

theorem items_sound
    (hitem : ∀ s a s', s.rest.length ≤ n → item s = .ok a s' → Reads (marks a) s s' ∧ P a)
    {s s' : TokenStream} {xs : List α} (hlen : s.rest.length ≤ n) (h : items item s = .ok xs s') :
    Reads (separated (xs.map marks) ++ [bare .closeParen]) s s' ∧ ∀ x ∈ xs, P x := by
  simp only [items, run_bind] at h
  obtain ⟨closed, s₁, hclosed, h⟩ := h
  cases closed with
  | true =>
    obtain ⟨rfl, rfl⟩ := run_pure.mp h
    exact ⟨accept_eq_true.mp hclosed, by simp⟩
  | false =>
    obtain ⟨-, rfl⟩ := accept_eq_false.mp hclosed
    obtain ⟨hreads, -, hP⟩ := commaList_sound marks P hitem _ s xs s' hlen h
    exact ⟨hreads, hP⟩

end Items

/-! ## Expressions -/

/-- From streams of at most `n` tokens, `p` reads normal factors. -/
def ReadsFactors (n : Nat) (p : Parser Expr) : Prop :=
  ∀ s e s', s.rest.length ≤ n → p s = .ok e s' → Reads e.marks s s' ∧ e.Normal ∧ e.IsFactor

/-- From streams of at most `n` tokens, `p` reads normal expressions up to where the operators that
bind at least as tightly as `least` end. -/
def ReadsExprs (n least : Nat) (p : Parser Expr) : Prop :=
  ∀ s e s', s.rest.length ≤ n → p s = .ok e s' →
    Reads e.marks s s' ∧ e.Normal ∧ e.Fits least ∧ Stops least s'

section Expressions

variable {n : Nat} {s₀ s s' : TokenStream} {factor expr : Parser Expr} {e e' : Expr}

/-- `t` was read between `s₀` and `s`. -/
theorem atom_sound {t : Located Token} (hfactor : ReadsFactors n factor)
    (hexpr : ReadsExprs n 0 expr) (ht : Reads [placed t.value t.pos] s₀ s)
    (hlen : s.rest.length ≤ n) (h : atom factor expr t s = .ok e s') :
    Reads e.marks s₀ s' ∧ e.Normal ∧ e.IsFactor := by
  obtain ⟨value, pos⟩ := t
  have hbare := reads_bare.mpr ⟨pos, ht⟩
  cases value with
  | increment =>
    simp only [atom, run_bind, run_pure, stepTarget_eq_ok] at h
    obtain ⟨x, s₁, hx, rfl, rfl⟩ := h
    exact ⟨hbare.andThen (hfactor s _ s₁ hlen hx).1, trivial, trivial⟩
  | decrement =>
    simp only [atom, run_bind, run_pure, stepTarget_eq_ok] at h
    obtain ⟨x, s₁, hx, rfl, rfl⟩ := h
    exact ⟨hbare.andThen (hfactor s _ s₁ hlen hx).1, trivial, trivial⟩
  | const c =>
    obtain ⟨rfl, rfl⟩ := run_pure.mp h
    exact ⟨ht, trivial, trivial⟩
  | minus =>
    simp only [atom, run_bind, run_pure] at h
    obtain ⟨e, s₁, he, rfl, rfl⟩ := h
    obtain ⟨hreads, hnormal, hfac⟩ := hfactor s e s₁ hlen he
    exact ⟨ht.andThen hreads, ⟨hfac, hnormal⟩, trivial⟩
  | openParen =>
    simp only [atom, run_bind, run_pure] at h
    obtain ⟨e, s₁, he, p, s₂, hp, rfl, rfl⟩ := h
    obtain ⟨hreads, hnormal, -⟩ := hexpr s e s₁ hlen he
    have hclose := exists_expect_eq_ok.mp ⟨p, hp⟩
    exact ⟨hbare.andThen (hreads.append hclose), hnormal, trivial⟩
  | ident x =>
    simp only [atom, run_bind] at h
    obtain ⟨opened, s₁, hopened, h⟩ := h
    cases opened with
    | true =>
      have hopen := accept_eq_true.mp hopened
      simp only [if_true, run_bind, run_pure] at h
      obtain ⟨args, s₂, hargs, rfl, rfl⟩ := h
      have hlen₁ := Nat.le_trans hopen.length_le hlen
      have hitem : ∀ s e s', s.rest.length ≤ n → expr s = .ok e s' →
          Reads e.marks s s' ∧ e.Normal := by
        intro s e s' hs he
        obtain ⟨hreads, hnormal, -⟩ := hexpr s e s' hs he
        exact ⟨hreads, hnormal⟩
      obtain ⟨hreads, hnormal⟩ := items_sound Expr.marks Expr.Normal hitem hlen₁ hargs
      rw [← argMarks_eq_map] at hreads
      exact ⟨ht.andThen (hopen.andThen hreads), normalArgs_iff.mpr hnormal, trivial⟩
    | false =>
      obtain ⟨-, rfl⟩ := accept_eq_false.mp hopened
      obtain ⟨rfl, rfl⟩ := run_pure.mp h
      exact ⟨ht, trivial, trivial⟩
  | _ => exact absurd h run_throw

/-- A step behind a variable is read as one factor with it. -/
theorem stepBehind_sound (he : Reads e.marks s₀ s) (hnormal : e.Normal) (hfac : e.IsFactor)
    (h : stepBehind e s = .ok e' s') : Reads e'.marks s₀ s' ∧ e'.Normal ∧ e'.IsFactor := by
  rcases stepBehind_eq_ok.mp h with ⟨-, -, rfl, rfl⟩ | ⟨x, st, rfl, hpost, rfl, hstep⟩
  · exact ⟨he, hnormal, hfac⟩
  · refine ⟨?_, trivial, trivial⟩
    rw [Expr.marks, if_pos hpost]
    exact he.append hstep

/-- A factor under one more unit of bound, when its parts are read from fewer tokens. -/
theorem factor_succ_sound {fuel : Nat} (hfactor : ∀ m < n, ReadsFactors m (Surface.factor fuel))
    (hexpr : ∀ m < n, ReadsExprs m 0 (Surface.expr fuel 0)) :
    ReadsFactors n (Surface.factor (fuel + 1)) := by
  intro s e s' hlen h
  simp only [Surface.factor, run_bind] at h
  obtain ⟨t, s₁, ht, a, s₂, ha, h⟩ := h
  have ht := any_eq_ok.mp ht
  have hlt : s₁.rest.length < n := Nat.lt_of_lt_of_le ht.length_lt hlen
  obtain ⟨hreads, hnormal, hfac⟩ := atom_sound (hfactor _ hlt) (hexpr _ hlt) ht (Nat.le_refl _) ha
  exact stepBehind_sound hreads hnormal hfac h

/-- From streams of at most `n` tokens, `p` extends an expression that was read before, up to where
the operators that bind at least as tightly as `least` end. -/
def Climbs (n least : Nat) (p : Expr → Parser Expr) : Prop :=
  ∀ left s₀ s e s', s.rest.length ≤ n → Reads left.marks s₀ s → left.Normal → left.Fits least →
    left.ClosedBefore s → p left s = .ok e s' →
    Reads e.marks s₀ s' ∧ e.Normal ∧ e.Fits least ∧ Stops least s'

/-- An expression is a factor and the operators that climb behind it. -/
theorem expr_succ_sound {fuel least : Nat} (hfactor : ReadsFactors n (Surface.factor fuel))
    (hclimb : Climbs n least (climb fuel least)) :
    ReadsExprs n least (Surface.expr (fuel + 1) least) := by
  intro s e s' hlen h
  simp only [Surface.expr, run_bind] at h
  obtain ⟨left, s₁, hleft, h⟩ := h
  obtain ⟨hreads, hnormal, hfac⟩ := hfactor s left s₁ hlen hleft
  exact hclimb left s s₁ e s' (Nat.le_trans hreads.length_le hlen) hreads hnormal hfac.fits
    hfac.closedBefore h

/-- One round of climbing. -/
theorem climb_succ_sound {fuel least : Nat}
    (hexpr : ∀ m < n, ∀ least, ReadsExprs m least (Surface.expr fuel least))
    (hclimb : ∀ m < n, Climbs m least (climb fuel least)) :
    Climbs n least (climb (fuel + 1) least) := by
  intro left s₀ s e s' hlen hleft hnormal hfits hclosed h
  simp only [climb, run_bind] at h
  obtain ⟨op?, s₁, hop, h⟩ := h
  cases op? with
  | none =>
    obtain ⟨hstops, rfl⟩ := operator?_eq_none.mp hop
    obtain ⟨rfl, rfl⟩ := run_pure.mp h
    exact ⟨hleft, hnormal, hfits, hstops⟩
  | some op =>
    obtain ⟨hop, hle⟩ := operator?_eq_some.mp hop
    have hlt : s₁.rest.length < n := Nat.lt_of_lt_of_le hop.length_lt hlen
    by_cases hassign : op.value = .assign
    · -- the variable on the left is assigned all that follows
      simp only [hassign, if_true] at h hop hle
      cases left with
      | var x =>
        simp only [Expr.target?, run_bind] at h
        obtain ⟨value, s₂, hvalue, h⟩ := h
        obtain ⟨hreads, hnormal', -, hstops⟩ := hexpr _ hlt _ s₁ value s₂ (Nat.le_refl _) hvalue
        have hall : Reads (Expr.assign x value).marks s₀ s₂ :=
          hleft.andThen ((reads_bare.mpr ⟨_, hop⟩).andThen hreads)
        exact hclimb _ hlt (.assign x value) s₀ s₂ e s' hreads.length_le hall hnormal' hle hstops h
      | _ => exact absurd h run_throw
    · simp only [hassign, if_false, run_bind] at h
      obtain ⟨right, s₂, hright, h⟩ := h
      obtain ⟨hreads, hnormal', hfits', hstops⟩ := hexpr _ hlt _ s₁ right s₂ (Nat.le_refl _) hright
      have hall : Reads (Expr.binary op left right).marks s₀ s₂ := hleft.append (hop.andThen hreads)
      have hright := hfits'.isOperand (Nat.lt_succ_of_lt (assign_precedence_lt hassign))
      have hnode : (Expr.binary op left right).Normal :=
        ⟨hassign, hclosed.isOperand hop, hright, hnormal, hnormal'⟩
      exact hclimb _ hlt (.binary op left right) s₀ s₂ e s' hreads.length_le hall hnode hle hstops h

end Expressions

/-- All three readers at once, by induction on their fuel. Two units for each token are enough,
since every other call of a reader takes a token off the stream. -/
theorem expression_readers_sound (fuel : Nat) :
    (∀ n, 2 * n ≤ fuel → ReadsFactors n (factor fuel)) ∧
      (∀ n least, 2 * n + 1 ≤ fuel → ReadsExprs n least (expr fuel least)) ∧
      ∀ n least, 2 * n ≤ fuel → Climbs n least (climb fuel least) := by
  induction fuel with
  | zero =>
    refine ⟨fun n _ s e s' _ h => absurd h run_missing, fun n least hn => by omega, ?_⟩
    intro n least hn left s₀ s e s' hlen hleft hnormal hfits _ h
    obtain ⟨rfl, rfl⟩ := run_pure.mp h
    refine ⟨hleft, hnormal, hfits, ?_⟩
    -- no token is left, so no operator either
    have hrest : s.rest = [] := List.length_eq_zero_iff.mp (by omega)
    simp [Stops, TokenStream.peek?, hrest]
  | succ fuel ih =>
    obtain ⟨hfactor, hexpr, hclimb⟩ := ih
    refine ⟨fun n hn => ?_, fun n least hn => ?_, fun n least hn => ?_⟩
    · exact factor_succ_sound (fun m hm => hfactor m (by omega)) fun m hm => hexpr m 0 (by omega)
    · exact expr_succ_sound (hfactor n (by omega)) (hclimb n least (by omega))
    · exact climb_succ_sound (fun m hm least => hexpr m least (by omega))
        fun m hm => hclimb m least (by omega)

/-- What is read as an expression is spelled by the tokens taken, and is normal. -/
theorem expression_sound {s s' : TokenStream} {e : Expr} (h : expression s = .ok e s') :
    Reads e.marks s s' ∧ e.Normal := by
  obtain ⟨hreads, hnormal, -⟩ := (expression_readers_sound (2 * s.rest.length + 1)).2.1
    s.rest.length 0 (Nat.le_refl _) s e s' (Nat.le_refl _) h
  exact ⟨hreads, hnormal⟩

/-! ## Statements -/

section Statements

variable {s s' : TokenStream}

theorem condition_sound {c : Expr} (h : condition s = .ok c s') :
    Reads (conditionMarks c) s s' ∧ c.Normal := by
  obtain ⟨s₁, s₂, hopen, hc, hclose⟩ := condition_eq_ok.mp h
  obtain ⟨hreads, hnormal⟩ := expression_sound hc
  exact ⟨hopen.andThen (hreads.append hclose), hnormal⟩

theorem optionalExpression_sound {stop : Token} {e : Option Expr}
    (h : optionalExpression stop s = .ok e s') :
    Reads (optionalMarks e ++ [bare stop]) s s' ∧ NormalOptional e := by
  cases e with
  | none => exact ⟨optionalExpression_eq_none.mp h, trivial⟩
  | some e =>
    obtain ⟨-, s₁, he, hstop⟩ := optionalExpression_eq_some.mp h
    obtain ⟨hreads, hnormal⟩ := expression_sound he
    exact ⟨hreads.append hstop, hnormal⟩

/-- Further names are read with a comma in front of each. -/
theorem moreNames_sound (fuel : Nat) :
    ∀ {s s' : TokenStream} {xs : List Name}, moreNames fuel s = .ok xs s' →
      Reads (xs.flatMap fun x => [bare .comma, nameMark x]) s s' := by
  induction fuel with
  | zero =>
    intro s s' xs h
    obtain ⟨rfl, rfl⟩ := run_pure.mp h
    exact .nil
  | succ fuel ih =>
    intro s s' xs h
    simp only [moreNames, run_bind] at h
    obtain ⟨more, s₁, hmore, h⟩ := h
    cases more with
    | true =>
      simp only [if_true, run_bind, run_pure] at h
      obtain ⟨x, s₂, hx, xs, s₃, hxs, rfl, rfl⟩ := h
      exact (accept_eq_true.mp hmore).andThen ((identifier_eq_ok.mp hx).andThen (ih hxs))
    | false =>
      obtain ⟨-, rfl⟩ := accept_eq_false.mp hmore
      obtain ⟨rfl, rfl⟩ := run_pure.mp h
      exact .nil

/-- What a reader of statements has read. An `else` that could belong to the end of the statement is
not left behind. -/
def ReadsStmt (st : Stmt) (s s' : TokenStream) : Prop :=
  Reads st.marks s s' ∧ st.Normal ∧ (st.EndsOpen → s'.peek? ≠ some .kwElse)

theorem declaration_sound {st : Stmt} (h : declaration s = .ok st s') : ReadsStmt st s s' := by
  simp only [declaration, run_bind] at h
  obtain ⟨ty, s₁, hty, x, s₂, hx, initialised, s₃, hinit, h⟩ := h
  have hty := typeName_eq_ok.mp hty
  have hx := identifier_eq_ok.mp hx
  cases initialised with
  | true =>
    simp only [if_true, run_bind, run_pure] at h
    obtain ⟨e, s₄, he, p, s₅, hp, rfl, rfl⟩ := h
    obtain ⟨hreads, hnormal⟩ := expression_sound he
    have hend := exists_expect_eq_ok.mp ⟨p, hp⟩
    have hequal := accept_eq_true.mp hinit
    exact ⟨hty.andThen (hx.andThen (hequal.andThen (hreads.append hend))), hnormal, False.elim⟩
  | false =>
    obtain ⟨-, rfl⟩ := accept_eq_false.mp hinit
    simp only [Bool.false_eq_true, if_false, run_bind, run_pure] at h
    obtain ⟨xs, s₄, hxs, p, s₅, hp, rfl, rfl⟩ := h
    have hend := exists_expect_eq_ok.mp ⟨p, hp⟩
    have hmore := moreNames_sound _ hxs
    refine ⟨?_, List.cons_ne_nil _ _, False.elim⟩
    rw [Stmt.marks, List.map_cons, separated_cons, List.flatMap_map]
    exact hty.andThen ((hx.andThen hmore).append hend)

/-- What is read as a statement is spelled by the tokens taken, if its parts are. -/
theorem statementAt_sound {statement : Parser Stmt} {block : Parser (List Stmt)} {t : Token}
    {st : Stmt} (hstatement : ∀ s st s', statement s = .ok st s' → ReadsStmt st s s')
    (hblock : ∀ s ss s', block s = .ok ss s' → Reads (Stmt.block ss).marks s s' ∧ NormalBlock ss)
    (hpeek : s.peek? = some t) (h : statementAt statement block t s = .ok st s') :
    ReadsStmt st s s' := by
  cases t with
  | type ty => exact declaration_sound h
  | kwReturn =>
    simp only [statementAt, run_bind, run_pure] at h
    obtain ⟨pos, s₁, hpos, value, s₂, hvalue, rfl, rfl⟩ := h
    obtain ⟨hreads, hnormal⟩ := optionalExpression_sound hvalue
    exact ⟨(expect_eq_ok.mp hpos).andThen hreads, hnormal, False.elim⟩
  | openBrace =>
    simp only [statementAt, run_bind, run_pure] at h
    obtain ⟨body, s₁, hbody, rfl, rfl⟩ := h
    obtain ⟨hreads, hnormal⟩ := hblock s body s₁ hbody
    exact ⟨hreads, hnormal, False.elim⟩
  | kwIf =>
    simp only [statementAt, run_bind] at h
    obtain ⟨u, s₁, hu, c, s₂, hc, thenBranch, s₃, hthen, more, s₄, hmore, h⟩ := h
    have hif := (exists_any_eq_ok hpeek).mp ⟨u, hu⟩
    obtain ⟨hcreads, hcnormal⟩ := condition_sound hc
    obtain ⟨htreads, htnormal, htopen⟩ := hstatement s₂ thenBranch s₃ hthen
    cases more with
    | true =>
      have helse := accept_eq_true.mp hmore
      simp only [if_true, run_bind, run_pure] at h
      obtain ⟨elseBranch, s₅, hbranch, rfl, rfl⟩ := h
      obtain ⟨hereads, henormal, heopen⟩ := hstatement s₄ elseBranch s₅ hbranch
      -- the `else` was there when the first branch had ended, so that branch left it
      have hclosed : ¬thenBranch.EndsOpen := fun hopen => htopen hopen helse.peek?
      exact ⟨hif.andThen (hcreads.append (htreads.append (helse.andThen hereads))),
        ⟨hcnormal, hclosed, htnormal, henormal⟩, heopen⟩
    | false =>
      obtain ⟨hnoElse, rfl⟩ := accept_eq_false.mp hmore
      obtain ⟨rfl, rfl⟩ := run_pure.mp h
      exact ⟨hif.andThen (hcreads.append htreads), ⟨hcnormal, htnormal⟩, fun _ => hnoElse⟩
  | kwWhile =>
    simp only [statementAt, run_bind, run_pure] at h
    obtain ⟨u, s₁, hu, c, s₂, hc, body, s₃, hbody, rfl, rfl⟩ := h
    have hwhile := (exists_any_eq_ok hpeek).mp ⟨u, hu⟩
    obtain ⟨hcreads, hcnormal⟩ := condition_sound hc
    obtain ⟨hreads, hnormal, hopen⟩ := hstatement s₂ body s₃ hbody
    exact ⟨hwhile.andThen (hcreads.append hreads), ⟨hcnormal, hnormal⟩, hopen⟩
  | kwFor =>
    simp only [statementAt, run_bind, run_pure] at h
    obtain ⟨u, s₁, hu, p, s₂, hp, init, s₃, hinit, c, s₄, hc, step, s₅, hstep, body, s₆, hbody,
      rfl, rfl⟩ := h
    have hfor := (exists_any_eq_ok hpeek).mp ⟨u, hu⟩
    have hparen := exists_expect_eq_ok.mp ⟨p, hp⟩
    obtain ⟨hireads, hinormal⟩ := optionalExpression_sound hinit
    obtain ⟨hcreads, hcnormal⟩ := optionalExpression_sound hc
    obtain ⟨hsreads, hsnormal⟩ := optionalExpression_sound hstep
    obtain ⟨hreads, hnormal, hopen⟩ := hstatement s₅ body s₆ hbody
    have hhead := hireads.append (hcreads.append (hsreads.append hreads))
    refine ⟨hfor.andThen (hparen.andThen ?_), ⟨hinormal, hcnormal, hsnormal, hnormal⟩, hopen⟩
    simpa only [List.append_assoc, List.singleton_append] using hhead
  | _ =>
    simp only [statementAt, run_bind, run_pure] at h
    obtain ⟨e, s₁, he, p, s₂, hp, rfl, rfl⟩ := h
    obtain ⟨hreads, hnormal⟩ := expression_sound he
    exact ⟨hreads.append (exists_expect_eq_ok.mp ⟨p, hp⟩), hnormal, False.elim⟩

end Statements

/-- Statements and blocks are spelled by the tokens taken, by induction on the bound of both
readers. -/
theorem statement_readers_sound (fuel : Nat) :
    (∀ s st s', statement fuel s = .ok st s' → ReadsStmt st s s') ∧
      ∀ s ss s', statements fuel s = .ok ss s' →
        Reads (blockMarks ss ++ [bare .closeBrace]) s s' ∧ NormalBlock ss := by
  induction fuel with
  | zero => exact ⟨fun _ _ _ h => absurd h run_missing, fun _ _ _ h => absurd h run_missing⟩
  | succ fuel ih =>
    obtain ⟨hstatement, hstatements⟩ := ih
    refine ⟨fun s st s' h => ?_, fun s ss s' h => ?_⟩
    · simp only [statement, run_bind] at h
      obtain ⟨t, s₁, ht, h⟩ := h
      obtain ⟨hpeek, rfl⟩ := peek_eq_ok.mp ht
      refine statementAt_sound hstatement (fun s ss s' hss => ?_) hpeek h
      simp only [run_bind] at hss
      obtain ⟨p, s₂, hp, hss⟩ := hss
      obtain ⟨hreads, hnormal⟩ := hstatements s₂ ss s' hss
      exact ⟨(exists_expect_eq_ok.mp ⟨p, hp⟩).andThen hreads, hnormal⟩
    · simp only [statements, run_bind] at h
      obtain ⟨t, s₁, ht, h⟩ := h
      obtain ⟨hpeek, rfl⟩ := peek_eq_ok.mp ht
      split at h
      · next hclose =>
        simp only [run_bind, run_pure] at h
        obtain ⟨u, s₂, hu, rfl, rfl⟩ := h
        rw [hclose] at hpeek
        exact ⟨(exists_any_eq_ok hpeek).mp ⟨u, hu⟩, trivial⟩
      · simp only [run_bind, run_pure] at h
        obtain ⟨st, s₂, hst, rest, s₃, hrest, rfl, rfl⟩ := h
        obtain ⟨hreads, hnormal, -⟩ := hstatement s st s₂ hst
        obtain ⟨hreads', hnormal'⟩ := hstatements s₂ rest s₃ hrest
        refine ⟨?_, hnormal, hnormal'⟩
        rw [blockMarks, List.append_assoc]
        exact hreads.append hreads'

/-! ## Functions and programs -/

section Programs

variable {s s' : TokenStream}

theorem param_sound {p : Param} (h : param s = .ok p s') : Reads p.marks s s' := by
  simp only [param, run_bind, run_pure] at h
  obtain ⟨ty, s₁, hty, x, s₂, hx, rfl, rfl⟩ := h
  exact (typeName_eq_ok.mp hty).andThen (identifier_eq_ok.mp hx)

/-- What is read as a function is spelled by the tokens taken. -/
theorem function_sound {f : Function} (h : function s = .ok f s') :
    Reads f.marks s s' ∧ NormalBlock f.body := by
  simp only [function, block, run_bind, run_pure] at h
  obtain ⟨ret, s₁, hret, name, s₂, hname, p, s₃, hp, params, s₄, hparams, body, s₅,
    ⟨q, s₆, hq, hbody⟩, rfl, rfl⟩ := h
  have hopen := exists_expect_eq_ok.mp ⟨p, hp⟩
  have hbrace := exists_expect_eq_ok.mp ⟨q, hq⟩
  obtain ⟨hparams, -⟩ := items_sound Param.marks (fun _ => True)
    (fun s p s' _ hp => ⟨param_sound hp, trivial⟩) (Nat.le_refl _) hparams
  obtain ⟨hreads, hnormal⟩ := (statement_readers_sound _).2 s₆ body s₅ hbody
  refine ⟨?_, hnormal⟩
  have hrest := hparams.append (hbrace.andThen hreads)
  rw [List.append_assoc] at hrest
  exact (typeName_eq_ok.mp hret).andThen ((identifier_eq_ok.mp hname).andThen (hopen.andThen hrest))

/-- All tokens are read, since every function takes some. -/
theorem functions_sound (fuel : Nat) :
    ∀ {s s' : TokenStream} {p : Program}, s.rest.length ≤ fuel → functions fuel s = .ok p s' →
      Reads (programMarks p) s s' ∧ NormalProgram p ∧ s'.rest = [] := by
  induction fuel with
  | zero =>
    intro s s' p hlen h
    obtain ⟨rfl, rfl⟩ := run_pure.mp h
    exact ⟨.nil, by simp [NormalProgram], List.length_eq_zero_iff.mp (Nat.le_zero.mp hlen)⟩
  | succ fuel ih =>
    intro s s' p hlen h
    simp only [functions, run_bind] at h
    obtain ⟨_, s₁, hget, h⟩ := h
    cases hget
    split at h
    · next hempty =>
      obtain ⟨rfl, rfl⟩ := run_pure.mp h
      exact ⟨.nil, by simp [NormalProgram], by simpa [TokenStream.isEmpty] using hempty⟩
    · simp only [run_bind, run_pure] at h
      obtain ⟨f, s₂, hf, fs, s₃, hfs, rfl, rfl⟩ := h
      obtain ⟨hreads, hnormal⟩ := function_sound hf
      have hlt := Nat.lt_of_lt_of_le hreads.length_lt hlen
      obtain ⟨hreads', hnormal', hend⟩ := ih (Nat.lt_succ_iff.mp hlt) hfs
      exact ⟨hreads.append hreads', List.forall_mem_cons.mpr ⟨hnormal, hnormal'⟩, hend⟩

/-- The functions of a program are read up to its end, so that nothing is left to complain about. -/
theorem parse_eq (ts : List (Located Token)) :
    parse ts =
      match bounded functions (TokenStream.ofTokens ts) with
      | .ok p _ => .ok p
      | .error e _ => .error e := by
  unfold parse
  cases h : bounded functions (TokenStream.ofTokens ts) with
  | ok p s' =>
    obtain ⟨-, -, hend⟩ := functions_sound _ (by omega) h
    exact if_pos (List.isEmpty_iff.mpr hend)
  | error e s' => rfl

theorem parse_ok_iff {ts : List (Located Token)} {p : Program} :
    parse ts = .ok p ↔ ∃ s', bounded functions (TokenStream.ofTokens ts) = .ok p s' := by
  rw [parse_eq]
  cases bounded functions (TokenStream.ofTokens ts) <;> simp

end Programs

/-- The program that the parser gives spells the tokens that it was given, and is normal. -/
theorem parse_sound {ts : List (Located Token)} {p : Program} (h : parse ts = .ok p) :
    Spells (programMarks p) ts ∧ NormalProgram p := by
  obtain ⟨s', hrun⟩ := parse_ok_iff.mp h
  obtain ⟨hreads, hnormal, hend⟩ := functions_sound _ (by omega) hrun
  exact ⟨hreads.spells hend, hnormal⟩

/-- Tokens on the first line, one column each. -/
def inOneLine (ts : List Token) : List (Located Token) :=
  ts.mapIdx fun i t => ⟨t, ⟨1, i + 1⟩⟩

/-- `void main() { if (a) while (b) x = 1 - 2 - y * -z++; else return; }` -/
def loopOrLeave : List (Located Token) := inOneLine [
  .type .void, .ident "main", .openParen, .closeParen, .openBrace,
  .kwIf, .openParen, .ident "a", .closeParen, .kwWhile, .openParen, .ident "b", .closeParen,
  .ident "x", .equal, .const (.int 1), .minus, .const (.int 2), .minus, .ident "y", .star, .minus,
  .ident "z", .increment, .semicolon, .kwElse, .kwReturn, .semicolon, .closeBrace]

/-- Its tree: subtraction groups to the left, and the `else` belongs to the only `if`. -/
def loopOrLeaveTree : Program :=
  [⟨.void, ⟨"main", ⟨1, 2⟩⟩, [], [.ifElse (.var ⟨"a", ⟨1, 8⟩⟩)
    (.whileLoop (.var ⟨"b", ⟨1, 12⟩⟩) (.expr (.assign ⟨"x", ⟨1, 14⟩⟩
      (.binary ⟨.sub, ⟨1, 19⟩⟩
        (.binary ⟨.sub, ⟨1, 17⟩⟩ (.const ⟨.int 1, ⟨1, 16⟩⟩) (.const ⟨.int 2, ⟨1, 18⟩⟩))
        (.binary ⟨.mul, ⟨1, 21⟩⟩ (.var ⟨"y", ⟨1, 20⟩⟩)
          (.negate ⟨1, 22⟩ (.step .postIncrement ⟨"z", ⟨1, 23⟩⟩)))))))
    (.ret ⟨1, 27⟩ none)]⟩]

theorem parse_sound_loopOrLeave :
    parse loopOrLeave = .ok loopOrLeaveTree ∧
      Spells (programMarks loopOrLeaveTree) loopOrLeave ∧ NormalProgram loopOrLeaveTree := by
  have h : parse loopOrLeave = .ok loopOrLeaveTree := by cbv
  exact ⟨h, parse_sound h⟩

end MiniC.Surface
