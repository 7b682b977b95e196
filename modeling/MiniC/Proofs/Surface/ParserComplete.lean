import MiniC.Proofs.Surface.Reading

/-!
# The parser reads what a tree spells

The tokens of a normal tree are read as that tree. In every place a reader has to stop exactly
where its part of the tree ends, whatever follows there; what may follow an expression, a factor
or a statement is said by three conditions on the next token. A factor *ends* before any token but
an opening parenthesis and a step; an expression goes on for as long as operators bind tight enough
(`Stops`, `ClosedBefore`); and a statement that ends in an `if` without `else` must not stand
before an `else`.

Climbing does not read an operand in one go: the left operand of an operator is read by the same
call that reads the operator. So completeness for an expression does not say that the call gives
this expression, it says that the call arrives at climbing from it.
-/

namespace MiniC.Surface

open MiniC.Parser

/-! ## What may follow -/

/-- What comes next does not belong to a factor that was just read. -/
structure Ends (s : TokenStream) : Prop where
  openParen : s.peek? ≠ some .openParen
  increment : s.peek? ≠ some .increment
  decrement : s.peek? ≠ some .decrement

/-- The tokens behind a whole expression. -/
def IsDelimiter (t : Token) : Prop := t = .closeParen ∨ t = .comma ∨ t = .semicolon

section Follow

variable {s s' : TokenStream} {t : Token}

/-- No step stands in front of a delimiter. -/
theorem ends_of_delimiter (hpeek : s.peek? = some t) (ht : IsDelimiter t) : Ends s := by
  rcases ht with rfl | rfl | rfl <;> exact ⟨by simp [hpeek], by simp [hpeek], by simp [hpeek]⟩

/-- An expression does not go on with a delimiter. -/
theorem stops_of_delimiter (hpeek : s.peek? = some t) (ht : IsDelimiter t) (least : Nat) :
    Stops least s := by
  intro op hop
  rw [hpeek, Option.some.injEq] at hop
  rcases ht with rfl | rfl | rfl <;> cases op <;> cases hop

theorem ends_of_operator (op : BinaryOp) (hpeek : s.peek? = some op.token) : Ends s := by
  refine ⟨?_, ?_, ?_⟩ <;> rw [hpeek] <;> cases op <;> decide

/-- An expression that lets only stronger operators in stops before an operator. -/
theorem stops_of_operator {op : BinaryOp} (hpeek : s.peek? = some op.token) :
    Stops (op.precedence + 1) s := by
  intro op' hop'
  have htoken : op.token = op'.token := Option.some.inj (hpeek.symm.trans hop')
  have hop : op.token.binaryOp? = some op' := Token.binaryOp?_eq_some.mpr htoken
  rw [Token.binaryOp?_eq_some.mpr rfl, Option.some.injEq] at hop
  rw [hop]
  exact Nat.lt_succ_self _

end Follow

section Fitting

variable {e : Expr} {least : Nat} {s : TokenStream}

/-- Every expression fits where all operators are let in. -/
theorem Expr.fits_of_le (h : least ≤ BinaryOp.assign.precedence) : e.Fits least := by
  cases e with
  | assign x e => exact h
  | binary op left right => exact Nat.le_trans h (assign_precedence_le _)
  | _ => trivial

/-- Every expression is closed where no operator comes next. -/
theorem Expr.closedBefore_of_stops (h : Stops BinaryOp.assign.precedence s) :
    e.ClosedBefore s := by
  cases e with
  | assign x e => exact h
  | binary op left right => exact h.mono (Nat.le_succ_of_le (assign_precedence_le _))
  | _ => trivial

/-- An operand is not taken apart by what follows its operator. -/
theorem Expr.IsOperand.closedBefore (h : e.IsOperand least) (hstops : Stops (least + 1) s) :
    e.ClosedBefore s := by
  cases e with
  | assign x e => cases h
  | binary op left right => exact hstops.mono (Nat.succ_le_succ h)
  | _ => trivial

end Fitting

/-! ## How an expression starts -/

/-- The tokens that an expression can start with. -/
def StartsExpr : Token → Prop
  | .increment | .decrement | .const _ | .minus | .openParen | .ident _ => True
  | _ => False

/-- An expression is spelled by at least one token, and the first one can start an expression. -/
theorem Expr.marks_start : ∀ e : Expr, ∃ m ms, e.marks = m :: ms ∧ StartsExpr m.token
  | .const _ => ⟨_, _, rfl, trivial⟩
  | .var _ => ⟨_, _, rfl, trivial⟩
  | .assign _ _ => ⟨_, _, rfl, trivial⟩
  | .call _ _ => ⟨_, _, rfl, trivial⟩
  | .binary _ left _ => by
    obtain ⟨m, ms, hmarks, hstart⟩ := left.marks_start
    exact ⟨m, _, by rw [Expr.marks, hmarks, List.cons_append], hstart⟩
  | .step s _ => by cases s <;> exact ⟨_, _, rfl, trivial⟩
  | .negate _ _ => ⟨_, _, rfl, trivial⟩
  | .paren _ => ⟨_, _, rfl, trivial⟩

/-- Who reads an expression sees a token that can start one. -/
theorem Expr.peek?_of_reads {e : Expr} {s s' : TokenStream} (h : Reads e.marks s s') :
    ∃ t, s.peek? = some t ∧ StartsExpr t := by
  obtain ⟨m, ms, hmarks, hstart⟩ := e.marks_start
  rw [hmarks] at h
  exact ⟨m.token, h.peek?, hstart⟩

/-! ## Lists in parentheses -/

section Items

variable {α : Type} {item : Parser α} {marks : α → List Mark} {n : Nat}

/-- Every item is read for what it is, and the commas tell how many there are. -/
theorem commaList_complete {xs : List α} :
    ∀ {x : α} {fuel : Nat} {s s' : TokenStream},
      (∀ y ∈ x :: xs, ∀ s s₁, s.rest.length ≤ n → Reads (marks y) s s₁ →
        (s₁.peek? = some .comma ∨ s₁.peek? = some .closeParen) → item s = .ok y s₁) →
      s.rest.length ≤ n → s.rest.length < fuel →
      Reads (separated ((x :: xs).map marks) ++ [bare .closeParen]) s s' →
      commaList item fuel s = .ok (x :: xs) s' := by
  induction xs with
  | nil =>
    intro x fuel s s' hitem hlen hfuel h
    rw [List.map_singleton, separated_singleton] at h
    obtain ⟨s₁, hx, hclose⟩ := reads_append.mp h
    obtain ⟨fuel, rfl⟩ := Nat.exists_eq_succ_of_ne_zero (Nat.ne_zero_of_lt hfuel)
    obtain ⟨pos, hany⟩ := reads_bare.mp hclose
    simp only [commaList, run_bind]
    refine ⟨x, s₁, hitem x (by simp) s s₁ hlen hx (.inr hclose.peek?), ⟨.closeParen, pos⟩, s',
      any_eq_ok.mpr hany, run_pure.mpr ⟨rfl, rfl⟩⟩
  | cons y ys ih =>
    intro x fuel s s' hitem hlen hfuel h
    rw [List.map_cons, List.map_cons, separated_cons_cons, List.append_assoc,
      List.cons_append] at h
    obtain ⟨s₁, hx, h⟩ := reads_append.mp h
    obtain ⟨s₂, hcomma, hys⟩ := reads_cons.mp h
    obtain ⟨fuel, rfl⟩ := Nat.exists_eq_succ_of_ne_zero (Nat.ne_zero_of_lt hfuel)
    obtain ⟨pos, hany⟩ := reads_bare.mp hcomma
    have hlen₁ := hx.length_le
    have hlen₂ := hcomma.length_lt
    have hrest := ih (fun z hz => hitem z (List.mem_cons_of_mem x hz)) (by omega)
      (show s₂.rest.length < fuel by omega) hys
    simp only [commaList, run_bind]
    refine ⟨x, s₁, hitem x (by simp) s s₁ hlen hx (.inl hcomma.peek?), ⟨.comma, pos⟩, s₂,
      any_eq_ok.mpr hany, ?_⟩
    simp only [run_bind, run_pure]
    exact ⟨y :: ys, s', hrest, rfl, rfl⟩

/-- A list in parentheses that may be empty: no item starts with the closing parenthesis. -/
theorem items_complete {xs : List α} {s s' : TokenStream}
    (hitem : ∀ x ∈ xs, ∀ s s₁, s.rest.length ≤ n → Reads (marks x) s s₁ →
      (s₁.peek? = some .comma ∨ s₁.peek? = some .closeParen) → item s = .ok x s₁)
    (hstart : ∀ x ∈ xs, ∀ s s₁, Reads (marks x) s s₁ → s.peek? ≠ some .closeParen)
    (hlen : s.rest.length ≤ n)
    (h : Reads (separated (xs.map marks) ++ [bare .closeParen]) s s') :
    items item s = .ok xs s' := by
  simp only [items, run_bind]
  cases xs with
  | nil => exact ⟨true, s', accept_eq_true.mpr h, run_pure.mpr ⟨rfl, rfl⟩⟩
  | cons x xs =>
    have hpeek : s.peek? ≠ some .closeParen := by
      rw [List.map_cons, separated_cons, List.append_assoc] at h
      obtain ⟨s₁, hx, -⟩ := reads_append.mp h
      exact hstart x (by simp) s s₁ hx
    exact ⟨false, s, accept_eq_false.mpr ⟨hpeek, rfl⟩,
      commaList_complete hitem hlen (by omega) h⟩

end Items

/-! ## Factors -/

/-- The tokens of `e` are read as a factor. -/
def FactorComplete (e : Expr) : Prop :=
  ∀ fuel s s', 2 * s.rest.length ≤ fuel → Reads e.marks s s' → Ends s' → factor fuel s = .ok e s'

/-- Reading an expression at the tokens of `e` arrives at climbing from `e`. -/
def ExprComplete (e : Expr) : Prop :=
  ∀ fuel least s s', 2 * s.rest.length + 1 ≤ fuel → Reads e.marks s s' → Ends s' →
    e.Fits least → e.ClosedBefore s' →
    ∃ fuel', 2 * s'.rest.length ≤ fuel' ∧ expr fuel least s = climb fuel' least e s'

section Expressions

variable {fuel least : Nat} {s s₁ s₂ s' : TokenStream} {e : Expr} {x : Name}

/-- Without an operator that is let in, climbing leaves the expression as it is. -/
theorem climb_of_stops (h : Stops least s) : climb fuel least e s = .ok e s := by
  cases fuel with
  | zero => rfl
  | succ fuel =>
    simp only [climb, run_bind]
    exact ⟨none, s, operator?_eq_none.mpr ⟨h, rfl⟩, run_pure.mpr ⟨rfl, rfl⟩⟩

/-- Where no operator follows that binds tight enough, the expression is all that is read. -/
theorem ExprComplete.read (he : ExprComplete e) (hfuel : 2 * s.rest.length + 1 ≤ fuel)
    (h : Reads e.marks s s') (hend : Ends s') (hfits : e.Fits least) (hclosed : e.ClosedBefore s')
    (hstops : Stops least s') : expr fuel least s = .ok e s' := by
  obtain ⟨fuel', -, hclimb⟩ := he fuel least s s' hfuel h hend hfits hclosed
  rw [hclimb, climb_of_stops hstops]

/-- A whole expression, with the token behind it. -/
theorem ExprComplete.whole (he : ExprComplete e) (hfuel : 2 * s.rest.length + 1 ≤ fuel)
    (h : Reads e.marks s s') {t : Token} (hpeek : s'.peek? = some t) (ht : IsDelimiter t) :
    expr fuel 0 s = .ok e s' := by
  have hstops := stops_of_delimiter hpeek ht
  exact he.read hfuel h (ends_of_delimiter hpeek ht) (Expr.fits_of_le (Nat.zero_le _))
    (Expr.closedBefore_of_stops (hstops _)) (hstops 0)

/-- Whatever starts here, there is fuel for its first token and for what is behind. -/
theorem exists_fuel {m : Mark} {ms : List Mark} (hfuel : 2 * s.rest.length ≤ fuel)
    (h : Reads (m :: ms) s s') : ∃ fuel', fuel = fuel' + 1 ∧ 2 * s'.rest.length + 1 ≤ fuel' := by
  have hlen := h.length_lt
  exact ⟨fuel - 1, by omega, by omega⟩

/-- Without a step behind it, a factor is left as it is. -/
theorem stepBehind_of_ends (h : Ends s) : stepBehind e s = .ok e s :=
  stepBehind_eq_ok.mpr (.inl ⟨h.increment, h.decrement, rfl, rfl⟩)

/-- A factor is an atom and what `stepBehind` makes of it. -/
theorem factor_of_atom {t : Token} {pos : Pos} {e' : Expr} (ht : Reads [placed t pos] s s₁)
    (hatom : atom (factor fuel) (expr fuel 0) ⟨t, pos⟩ s₁ = .ok e s₂)
    (hstep : stepBehind e s₂ = .ok e' s') : factor (fuel + 1) s = .ok e' s' := by
  simp only [factor, run_bind]
  exact ⟨⟨t, pos⟩, s₁, any_eq_ok.mpr ht, e, s₂, hatom, hstep⟩

/-- A name is a variable unless a parenthesis follows. -/
theorem atom_var (hpeek : s.peek? ≠ some .openParen) {factor expr : Parser Expr} :
    atom factor expr ⟨.ident x.value, x.pos⟩ s = .ok (.var x) s := by
  simp only [atom, run_bind]
  exact ⟨false, s, accept_eq_false.mpr ⟨hpeek, rfl⟩, run_pure.mpr ⟨rfl, rfl⟩⟩

theorem var_complete (x : Name) : FactorComplete (.var x) := by
  intro fuel s s' hfuel h hend
  obtain ⟨fuel, rfl, -⟩ := exists_fuel hfuel h
  exact factor_of_atom h (atom_var hend.openParen) (stepBehind_of_ends hend)

theorem const_complete (c : Located Constant) : FactorComplete (.const c) := by
  intro fuel s s' hfuel h hend
  obtain ⟨fuel, rfl, -⟩ := exists_fuel hfuel h
  exact factor_of_atom h (run_pure.mpr ⟨rfl, rfl⟩) (stepBehind_of_ends hend)

theorem step_complete (st : Step) (x : Name) : FactorComplete (.step st x) := by
  intro fuel s s' hfuel h hend
  rw [Expr.marks] at h
  by_cases hpost : st.isPost = true
  · rw [if_pos hpost] at h
    obtain ⟨s₁, hx, hst⟩ := reads_cons.mp h
    obtain ⟨fuel, rfl, -⟩ := exists_fuel hfuel h
    have hpeek : s₁.peek? ≠ some .openParen := by
      rw [hst.peek?]
      cases st <;> decide
    exact factor_of_atom hx (atom_var hpeek)
      (stepBehind_eq_ok.mpr (.inr ⟨x, st, rfl, hpost, rfl, hst⟩))
  · rw [if_neg hpost] at h
    obtain ⟨s₁, hst, hx⟩ := reads_cons.mp h
    obtain ⟨pos, hst⟩ := reads_bare.mp hst
    obtain ⟨fuel, rfl, hfuel₁⟩ := exists_fuel hfuel hst
    have hvar : stepTarget (factor fuel) s₁ = .ok x s' :=
      stepTarget_eq_ok.mpr (var_complete x fuel s₁ s' (by omega) hx hend)
    refine factor_of_atom hst ?_ (stepBehind_of_ends hend)
    cases st with
    | postIncrement | postDecrement => exact absurd rfl hpost
    | preIncrement | preDecrement => exact run_bind.mpr ⟨x, s', hvar, rfl⟩

/-- A minus sign is followed by a factor, not by any expression. -/
theorem negate_complete (pos : Pos) (he : FactorComplete e) : FactorComplete (.negate pos e) := by
  intro fuel s s' hfuel h hend
  obtain ⟨s₁, hminus, he'⟩ := reads_cons.mp h
  obtain ⟨fuel, rfl, hfuel₁⟩ := exists_fuel hfuel hminus
  refine factor_of_atom hminus ?_ (stepBehind_of_ends hend)
  simp only [atom, run_bind]
  exact ⟨e, s', he fuel s₁ s' (by omega) he' hend, run_pure.mpr ⟨rfl, rfl⟩⟩

/-- Inside of parentheses any expression may stand. -/
theorem paren_complete (he : ExprComplete e) : FactorComplete (.paren e) := by
  intro fuel s s' hfuel h hend
  obtain ⟨s₁, hopen, h⟩ := reads_cons.mp h
  obtain ⟨s₂, he', hclose⟩ := reads_append.mp h
  obtain ⟨pos, hopen⟩ := reads_bare.mp hopen
  obtain ⟨fuel, rfl, hfuel₁⟩ := exists_fuel hfuel hopen
  obtain ⟨q, hq⟩ := exists_expect_eq_ok.mpr hclose
  refine factor_of_atom hopen ?_ (stepBehind_of_ends hend)
  simp only [atom, run_bind]
  exact ⟨e, s₂, he.whole hfuel₁ he' hclose.peek? (.inl rfl), q, s', hq, run_pure.mpr ⟨rfl, rfl⟩⟩

/-- Arguments are read like whole expressions, up to a comma or the closing parenthesis. -/
theorem call_complete (f : Name) {args : List Expr} (hargs : ∀ e ∈ args, ExprComplete e) :
    FactorComplete (.call f args) := by
  intro fuel s s' hfuel h hend
  obtain ⟨s₁, hf, h⟩ := reads_cons.mp h
  obtain ⟨s₂, hopen, hitems⟩ := reads_cons.mp h
  obtain ⟨fuel, rfl, hfuel₁⟩ := exists_fuel hfuel hf
  have hlen := hopen.length_lt
  rw [argMarks_eq_map] at hitems
  have hread : items (expr fuel 0) s₂ = .ok args s' := by
    refine items_complete (n := s₂.rest.length) (fun e he s s₁ hlen hreads hpeek => ?_)
      (fun e _ s s₁ hreads => ?_) (Nat.le_refl _) hitems
    · rcases hpeek with hpeek | hpeek
      · exact (hargs e he).whole (by omega) hreads hpeek (.inr (.inl rfl))
      · exact (hargs e he).whole (by omega) hreads hpeek (.inl rfl)
    · obtain ⟨t, hpeek, hstart⟩ := Expr.peek?_of_reads hreads
      intro hclose
      rw [hpeek, Option.some.injEq] at hclose
      rw [hclose] at hstart
      exact hstart
  refine factor_of_atom hf ?_ (stepBehind_of_ends hend)
  simp only [atom, run_bind]
  refine ⟨true, s₂, accept_eq_true.mpr hopen, ?_⟩
  simp only [if_true, run_bind]
  exact ⟨args, s', hread, run_pure.mpr ⟨rfl, rfl⟩⟩

/-! ## Expressions -/

/-- From a factor the operators behind it are climbed. -/
theorem FactorComplete.expr (he : FactorComplete e) : ExprComplete e := by
  intro fuel least s s' hfuel h hend _ _
  obtain ⟨fuel, rfl⟩ : ∃ f, fuel = f + 1 := ⟨fuel - 1, by omega⟩
  have hlen := h.length_le
  have hfactor := he fuel s s' (by omega) h hend
  refine ⟨fuel, by omega, ?_⟩
  rw [Surface.expr]
  exact run_bind_of_ok hfactor

/-- An assignment reaches as far to the right as it can. -/
theorem assign_complete (x : Name) (he : ExprComplete e) : ExprComplete (.assign x e) := by
  intro fuel least s s' hfuel h hend hfits hclosed
  obtain ⟨s₁, hx, h⟩ := reads_cons.mp h
  obtain ⟨s₂, hequal, he'⟩ := reads_cons.mp h
  have hlen₁ := hx.length_lt
  have hlen₂ := hequal.length_lt
  have hlen := he'.length_le
  obtain ⟨fuel₁, hfuel₁, hvar⟩ := (var_complete x).expr fuel least s s₁ hfuel hx
    (ends_of_operator .assign hequal.peek?) trivial trivial
  obtain ⟨pos, hequal⟩ := reads_bare.mp hequal
  obtain ⟨fuel₁, rfl⟩ : ∃ f, fuel₁ = f + 1 := ⟨fuel₁ - 1, by omega⟩
  have hright : Surface.expr fuel₁ BinaryOp.assign.precedence s₂ = .ok e s' :=
    he.read (by omega) he' hend (Expr.fits_of_le (Nat.le_refl _))
      (Expr.closedBefore_of_stops hclosed) hclosed
  refine ⟨fuel₁, by omega, ?_⟩
  have hop : operator? least s₁ = .ok (some ⟨.assign, pos⟩) s₂ :=
    operator?_eq_some.mpr ⟨hequal, hfits⟩
  rw [hvar, climb, run_bind_of_ok hop]
  exact run_bind_of_ok hright

/-- The left operand is read first; climbing then finds the operator and reads the right one, which
binds more strongly. -/
theorem binary_complete {op : Located BinaryOp} {left right : Expr} (hop : op.value ≠ .assign)
    (hleftOp : left.IsOperand op.value.precedence)
    (hrightOp : right.IsOperand (op.value.precedence + 1)) (hleft : ExprComplete left)
    (hright : ExprComplete right) : ExprComplete (.binary op left right) := by
  intro fuel least s s' hfuel h hend hfits hclosed
  obtain ⟨s₁, hl, h⟩ := reads_append.mp h
  obtain ⟨s₂, ho, hr⟩ := reads_cons.mp h
  have hlen₁ := hl.length_le
  have hlen₂ := ho.length_lt
  have hlen := hr.length_le
  obtain ⟨fuel₁, hfuel₁, hclimb⟩ := hleft fuel least s s₁ hfuel hl (ends_of_operator _ ho.peek?)
    (Expr.IsOperand.fits hleftOp hfits)
    (Expr.IsOperand.closedBefore hleftOp (stops_of_operator ho.peek?))
  obtain ⟨fuel₁, rfl⟩ : ∃ f, fuel₁ = f + 1 := ⟨fuel₁ - 1, by omega⟩
  have hread : Surface.expr fuel₁ (op.value.precedence + 1) s₂ = .ok right s' :=
    hright.read (by omega) hr hend (Expr.IsOperand.fits hrightOp (Nat.le_refl _))
      (Expr.IsOperand.closedBefore hrightOp (hclosed.mono (Nat.le_succ _))) hclosed
  refine ⟨fuel₁, by omega, ?_⟩
  rw [hclimb, climb, run_bind_of_ok (operator?_eq_some.mpr ⟨ho, hfits⟩)]
  simp only [if_neg hop]
  exact run_bind_of_ok hread

end Expressions

mutual

/-- Along the tree: every normal expression is read back, and factors are read back as such. -/
theorem expr_complete : ∀ e : Expr, e.Normal → (e.IsFactor → FactorComplete e) ∧ ExprComplete e
  | .const c, _ => ⟨fun _ => const_complete c, (const_complete c).expr⟩
  | .var x, _ => ⟨fun _ => var_complete x, (var_complete x).expr⟩
  | .step st x, _ => ⟨fun _ => step_complete st x, (step_complete st x).expr⟩
  | .assign x e, h => ⟨False.elim, assign_complete x (expr_complete e h).2⟩
  | .call f args, h =>
    have hcall := call_complete f (args_complete args h)
    ⟨fun _ => hcall, hcall.expr⟩
  | .binary _ left right, ⟨hop, hleft, hright, hl, hr⟩ =>
    ⟨False.elim,
      binary_complete hop hleft hright (expr_complete left hl).2 (expr_complete right hr).2⟩
  | .negate pos e, ⟨hfactor, h⟩ =>
    have hnegate := negate_complete pos ((expr_complete e h).1 hfactor)
    ⟨fun _ => hnegate, hnegate.expr⟩
  | .paren e, h =>
    have hparen := paren_complete (expr_complete e h).2
    ⟨fun _ => hparen, hparen.expr⟩

/-- The arguments of a call, each by itself. -/
theorem args_complete : ∀ args : List Expr, NormalArgs args → ∀ e ∈ args, ExprComplete e
  | [], _ => by simp
  | e :: es, ⟨h, hs⟩ => List.forall_mem_cons.mpr ⟨(expr_complete e h).2, args_complete es hs⟩

end

section Statements

variable {s s₁ s' : TokenStream} {e : Expr}

/-- A normal expression in front of a delimiter is read back. -/
theorem expression_complete {t : Token} (he : e.Normal) (h : Reads e.marks s s')
    (hpeek : s'.peek? = some t) (ht : IsDelimiter t) : expression s = .ok e s' :=
  (expr_complete e he).2.whole (Nat.le_refl _) h hpeek ht

theorem condition_complete (he : e.Normal) (h : Reads (conditionMarks e) s s') :
    condition s = .ok e s' := by
  obtain ⟨s₁, hopen, h⟩ := reads_cons.mp h
  obtain ⟨s₂, h, hclose⟩ := reads_append.mp h
  have hread := expression_complete he h hclose.peek? (.inl rfl)
  exact condition_eq_ok.mpr ⟨s₁, s₂, hopen, hread, hclose⟩

/-- If there is no expression, then the token behind it comes at once. -/
theorem optionalExpression_complete {e : Option Expr} {stop : Token} (he : NormalOptional e)
    (hdelim : IsDelimiter stop) (h : Reads (optionalMarks e) s s₁)
    (hstop : Reads [bare stop] s₁ s') :
    optionalExpression stop s = .ok e s' := by
  cases e with
  | none =>
    obtain rfl := reads_nil.mp h
    exact optionalExpression_eq_none.mpr hstop
  | some e =>
    obtain ⟨t, hpeek, hstart⟩ := Expr.peek?_of_reads h
    have hgoesOn : s.peek? ≠ some stop := by
      intro heq
      obtain rfl : t = stop := Option.some.inj (hpeek.symm.trans heq)
      rcases hdelim with rfl | rfl | rfl <;> exact hstart
    exact optionalExpression_eq_some.mpr
      ⟨hgoesOn, s₁, expression_complete he h hstop.peek? hdelim, hstop⟩

/-- The names behind the first, each after a comma. -/
theorem moreNames_complete {xs : List Name} :
    ∀ {fuel : Nat} {s s' : TokenStream}, s.rest.length ≤ fuel →
      Reads (xs.flatMap fun x => [bare .comma, nameMark x]) s s' → s'.peek? ≠ some .comma →
      moreNames fuel s = .ok xs s' := by
  induction xs with
  | nil =>
    intro fuel s s' _ h hend
    obtain rfl := reads_nil.mp h
    cases fuel with
    | zero => rfl
    | succ fuel =>
      simp only [moreNames, run_bind]
      exact ⟨false, s, accept_eq_false.mpr ⟨hend, rfl⟩, run_pure.mpr ⟨rfl, rfl⟩⟩
  | cons x xs ih =>
    intro fuel s s' hfuel h hend
    obtain ⟨s₁, hcomma, h⟩ := reads_cons.mp h
    obtain ⟨s₂, hx, h⟩ := reads_cons.mp h
    have hlen₁ := hcomma.length_lt
    have hlen₂ := hx.length_lt
    obtain ⟨fuel, rfl⟩ : ∃ f, fuel = f + 1 := ⟨fuel - 1, by omega⟩
    simp only [moreNames, run_bind]
    refine ⟨true, s₁, accept_eq_true.mpr hcomma, ?_⟩
    simp only [if_true, run_bind]
    exact ⟨x, s₂, identifier_eq_ok.mpr hx, xs, s', ih (by omega) h hend, run_pure.mpr ⟨rfl, rfl⟩⟩

/-! ## Statements -/

/-- Neither an `else` nor a closing brace: with these a statement cannot start. -/
theorem Stmt.marks_start (st : Stmt) :
    ∃ m ms, st.marks = m :: ms ∧ m.token ≠ .kwElse ∧ m.token ≠ .closeBrace := by
  cases st with
  | expr e =>
    obtain ⟨m, ms, hmarks, hstart⟩ := e.marks_start
    refine ⟨m, _, by rw [Stmt.marks, hmarks, List.cons_append], ?_, ?_⟩
    · intro heq
      rw [heq] at hstart
      exact hstart
    · intro heq
      rw [heq] at hstart
      exact hstart
  | _ => exact ⟨_, _, rfl, nofun, nofun⟩

/-- The tokens of `st` are read as this statement. -/
def StmtComplete (st : Stmt) : Prop :=
  ∀ fuel s s', 2 * s.rest.length ≤ fuel → Reads st.marks s s' →
    (st.EndsOpen → s'.peek? ≠ some .kwElse) → statement fuel s = .ok st s'

/-- The tokens of `ss` and of a closing brace are read as these statements. -/
def BlockComplete (ss : List Stmt) : Prop :=
  ∀ fuel s s', 2 * s.rest.length + 1 ≤ fuel → Reads (blockMarks ss ++ [bare .closeBrace]) s s' →
    statements fuel s = .ok ss s'

/-- The first token decides how a statement is read. -/
theorem statement_of_peek {fuel : Nat} {t : Token} {st : Stmt} (hpeek : s.peek? = some t)
    (h : statementAt (statement fuel) (do let _ ← expect .openBrace; statements fuel) t s =
      .ok st s') : statement (fuel + 1) s = .ok st s' := by
  rw [statement, run_bind]
  exact ⟨t, s, peek_eq_ok.mpr ⟨hpeek, rfl⟩, h⟩

/-- A declaration of one or more variables. -/
theorem declare_complete (ty : Ty) {xs : List Name} (hxs : xs ≠ []) :
    StmtComplete (.declare ty xs) := by
  intro fuel s s' hfuel h _
  obtain ⟨x, xs, rfl⟩ := List.exists_cons_of_ne_nil hxs
  obtain ⟨fuel, rfl, -⟩ := exists_fuel hfuel h
  rw [Stmt.marks, List.map_cons, separated_cons, List.flatMap_map] at h
  obtain ⟨s₁, hty, h⟩ := reads_cons.mp h
  obtain ⟨s₂, hnames, hend⟩ := reads_append.mp h
  obtain ⟨s₃, hx, hmore⟩ := reads_append.mp hnames
  obtain ⟨p, hp⟩ := exists_expect_eq_ok.mpr hend
  have hnoComma : s₂.peek? ≠ some .comma := by
    rw [hend.peek?]
    decide
  have hnoEqual : s₃.peek? ≠ some .equal := by
    cases xs with
    | nil =>
      rw [reads_nil.mp hmore, hend.peek?]
      decide
    | cons y ys =>
      rw [hmore.peek?]
      decide
  refine statement_of_peek hty.peek? ?_
  simp only [bare, statementAt, declaration, run_bind]
  refine ⟨ty, s₁, typeName_eq_ok.mpr hty, x, s₃, identifier_eq_ok.mpr hx, false, s₃,
    accept_eq_false.mpr ⟨hnoEqual, rfl⟩, ?_⟩
  simp only [Bool.false_eq_true, if_false, run_bind]
  exact ⟨xs, s₂, moreNames_complete (by omega) hmore hnoComma, p, s', hp, run_pure.mpr ⟨rfl, rfl⟩⟩

/-- The sign after the first name tells an initialisation from a declaration. -/
theorem init_complete (ty : Ty) (x : Name) (he : e.Normal) : StmtComplete (.init ty x e) := by
  intro fuel s s' hfuel h _
  obtain ⟨fuel, rfl, -⟩ := exists_fuel hfuel h
  obtain ⟨s₁, hty, h⟩ := reads_cons.mp h
  obtain ⟨s₂, hx, h⟩ := reads_cons.mp h
  obtain ⟨s₃, hequal, h⟩ := reads_cons.mp h
  obtain ⟨s₄, he', hend⟩ := reads_append.mp h
  obtain ⟨p, hp⟩ := exists_expect_eq_ok.mpr hend
  have hread := expression_complete he he' hend.peek? (.inr (.inr rfl))
  refine statement_of_peek hty.peek? ?_
  simp only [bare, statementAt, declaration, run_bind]
  refine ⟨ty, s₁, typeName_eq_ok.mpr hty, x, s₂, identifier_eq_ok.mpr hx, true, s₃,
    accept_eq_true.mpr hequal, ?_⟩
  simp only [if_true, run_bind]
  exact ⟨e, s₄, hread, p, s', hp, run_pure.mpr ⟨rfl, rfl⟩⟩

/-- A token that starts an expression starts no other statement. -/
theorem statementAt_of_startsExpr {statement : Parser Stmt} {block : Parser (List Stmt)} {t : Token}
    (h : StartsExpr t) :
    statementAt statement block t = (do
      let e ← expression
      let _ ← expect .semicolon
      return .expr e) := by
  cases t with
  | increment | decrement | const c | minus | openParen | ident x => rfl
  | _ => cases h

/-- A statement that starts like an expression is one. -/
theorem exprStmt_complete (he : e.Normal) : StmtComplete (.expr e) := by
  intro fuel s s' hfuel h _
  obtain ⟨s₁, he', hend⟩ := reads_append.mp h
  obtain ⟨t, hpeek, hstart⟩ := Expr.peek?_of_reads he'
  have hlen := he'.length_le
  have hlen₁ := hend.length_lt
  obtain ⟨fuel, rfl⟩ : ∃ f, fuel = f + 1 := ⟨fuel - 1, by omega⟩
  obtain ⟨p, hp⟩ := exists_expect_eq_ok.mpr hend
  have hread := expression_complete he he' hend.peek? (.inr (.inr rfl))
  refine statement_of_peek hpeek ?_
  rw [statementAt_of_startsExpr hstart]
  simp only [run_bind]
  exact ⟨e, s₁, hread, p, s', hp, run_pure.mpr ⟨rfl, rfl⟩⟩

theorem ret_complete (pos : Pos) {value : Option Expr} (hvalue : NormalOptional value) :
    StmtComplete (.ret pos value) := by
  intro fuel s s' hfuel h _
  obtain ⟨fuel, rfl, -⟩ := exists_fuel hfuel h
  obtain ⟨s₁, hret, h⟩ := reads_cons.mp h
  obtain ⟨s₂, hvalue', hend⟩ := reads_append.mp h
  have hread := optionalExpression_complete hvalue (.inr (.inr rfl)) hvalue' hend
  refine statement_of_peek hret.peek? ?_
  simp only [placed, statementAt, run_bind]
  exact ⟨pos, s₁, expect_eq_ok.mpr hret, value, s', hread, run_pure.mpr ⟨rfl, rfl⟩⟩

/-- The braces tell where a block ends. -/
theorem block_complete {body : List Stmt} (hbody : BlockComplete body) :
    StmtComplete (.block body) := by
  intro fuel s s' hfuel h _
  obtain ⟨s₁, hopen, h⟩ := reads_cons.mp h
  obtain ⟨fuel, rfl, hfuel₁⟩ := exists_fuel hfuel hopen
  obtain ⟨p, hp⟩ := exists_expect_eq_ok.mpr hopen
  refine statement_of_peek hopen.peek? ?_
  simp only [bare, statementAt, run_bind]
  exact ⟨body, s', ⟨p, s₁, hp, hbody fuel s₁ s' hfuel₁ h⟩, run_pure.mpr ⟨rfl, rfl⟩⟩

section Nested

variable {c : Expr} {body thenBranch elseBranch : Stmt}

theorem whileLoop_complete (hc : c.Normal) (hbody : StmtComplete body) :
    StmtComplete (.whileLoop c body) := by
  intro fuel s s' hfuel h hopen
  obtain ⟨s₁, hwhile, h⟩ := reads_cons.mp h
  obtain ⟨s₂, hc', h⟩ := reads_append.mp h
  obtain ⟨fuel, rfl, hfuel₁⟩ := exists_fuel hfuel hwhile
  obtain ⟨u, hu⟩ := (exists_any_eq_ok hwhile.peek?).mpr hwhile
  have hlen := hc'.length_le
  refine statement_of_peek hwhile.peek? ?_
  simp only [bare, statementAt, run_bind]
  exact ⟨u, s₁, hu, c, s₂, condition_complete hc hc', body, s',
    hbody fuel s₂ s' (by omega) h hopen, run_pure.mpr ⟨rfl, rfl⟩⟩

theorem forLoop_complete {init c step : Option Expr} (hinit : NormalOptional init)
    (hc : NormalOptional c) (hstep : NormalOptional step) (hbody : StmtComplete body) :
    StmtComplete (.forLoop init c step body) := by
  intro fuel s s' hfuel h hopen
  obtain ⟨s₁, hfor, h⟩ := reads_cons.mp h
  obtain ⟨s₂, hparen, h⟩ := reads_cons.mp h
  obtain ⟨s₃, hinit', h⟩ := reads_append.mp h
  obtain ⟨s₄, hsemi, h⟩ := reads_cons.mp h
  obtain ⟨s₅, hc', h⟩ := reads_append.mp h
  obtain ⟨s₆, hsemi', h⟩ := reads_cons.mp h
  obtain ⟨s₇, hstep', h⟩ := reads_append.mp h
  obtain ⟨s₈, hclose, h⟩ := reads_cons.mp h
  obtain ⟨fuel, rfl, hfuel₁⟩ := exists_fuel hfuel hfor
  obtain ⟨u, hu⟩ := (exists_any_eq_ok hfor.peek?).mpr hfor
  obtain ⟨p, hp⟩ := exists_expect_eq_ok.mpr hparen
  have hlen : s₈.rest.length ≤ s₁.rest.length :=
    (hparen.append (hinit'.append (hsemi.append (hc'.append
      (hsemi'.append (hstep'.append hclose)))))).length_le
  refine statement_of_peek hfor.peek? ?_
  simp only [bare, statementAt, run_bind]
  exact ⟨u, s₁, hu, p, s₂, hp,
    init, s₄, optionalExpression_complete hinit (.inr (.inr rfl)) hinit' hsemi,
    c, s₆, optionalExpression_complete hc (.inr (.inr rfl)) hc' hsemi',
    step, s₈, optionalExpression_complete hstep (.inl rfl) hstep' hclose,
    body, s', hbody fuel s₈ s' (by omega) h hopen, run_pure.mpr ⟨rfl, rfl⟩⟩

/-- No `else` follows, so the condition has one branch. -/
theorem ifThen_complete (hc : c.Normal) (hthen : StmtComplete thenBranch) :
    StmtComplete (.ifThen c thenBranch) := by
  intro fuel s s' hfuel h hopen
  obtain ⟨s₁, hif, h⟩ := reads_cons.mp h
  obtain ⟨s₂, hc', h⟩ := reads_append.mp h
  obtain ⟨fuel, rfl, hfuel₁⟩ := exists_fuel hfuel hif
  obtain ⟨u, hu⟩ := (exists_any_eq_ok hif.peek?).mpr hif
  have hlen := hc'.length_le
  have hnoElse : s'.peek? ≠ some .kwElse := hopen trivial
  refine statement_of_peek hif.peek? ?_
  simp only [bare, statementAt, run_bind]
  exact ⟨u, s₁, hu, c, s₂, condition_complete hc hc', thenBranch, s',
    hthen fuel s₂ s' (by omega) h fun _ => hnoElse, false, s',
    accept_eq_false.mpr ⟨hnoElse, rfl⟩, run_pure.mpr ⟨rfl, rfl⟩⟩

/-- The `else` belongs to this condition, for the first branch does not end in an open one. -/
theorem ifElse_complete (hc : c.Normal) (hclosed : ¬thenBranch.EndsOpen)
    (hthen : StmtComplete thenBranch) (helse : StmtComplete elseBranch) :
    StmtComplete (.ifElse c thenBranch elseBranch) := by
  intro fuel s s' hfuel h hopen
  obtain ⟨s₁, hif, h⟩ := reads_cons.mp h
  obtain ⟨s₂, hc', h⟩ := reads_append.mp h
  obtain ⟨s₃, hthen', h⟩ := reads_append.mp h
  obtain ⟨s₄, hkw, h⟩ := reads_cons.mp h
  obtain ⟨fuel, rfl, hfuel₁⟩ := exists_fuel hfuel hif
  obtain ⟨u, hu⟩ := (exists_any_eq_ok hif.peek?).mpr hif
  have hlen₂ := hc'.length_le
  have hlen₄ := (hthen'.append hkw).length_le
  refine statement_of_peek hif.peek? ?_
  simp only [bare, statementAt, run_bind]
  refine ⟨u, s₁, hu, c, s₂, condition_complete hc hc', thenBranch, s₃,
    hthen fuel s₂ s₃ (by omega) hthen' fun h => absurd h hclosed, true, s₄,
    accept_eq_true.mpr hkw, ?_⟩
  simp only [if_true, run_bind]
  exact ⟨elseBranch, s', helse fuel s₄ s' (by omega) h hopen, run_pure.mpr ⟨rfl, rfl⟩⟩

end Nested

theorem nil_complete : BlockComplete [] := by
  intro fuel s s' hfuel h
  obtain ⟨fuel, rfl⟩ : ∃ f, fuel = f + 1 := ⟨fuel - 1, by omega⟩
  obtain ⟨u, hu⟩ := (exists_any_eq_ok h.peek?).mpr h
  simp only [statements, run_bind]
  refine ⟨.closeBrace, s, peek_eq_ok.mpr ⟨h.peek?, rfl⟩, ?_⟩
  simp only [if_true, run_bind]
  exact ⟨u, s', hu, run_pure.mpr ⟨rfl, rfl⟩⟩

/-- Behind a statement of a block comes another one or the closing brace, never an `else`. -/
theorem peek?_ne_kwElse {ss : List Stmt} (h : Reads (blockMarks ss ++ [bare .closeBrace]) s s') :
    s.peek? ≠ some .kwElse := by
  cases ss with
  | nil =>
    rw [h.peek?]
    decide
  | cons st ss =>
    obtain ⟨m, ms, hmarks, hnoElse, -⟩ := st.marks_start
    rw [blockMarks, hmarks] at h
    rw [h.peek?]
    exact fun heq => hnoElse (Option.some.inj heq)

/-- The rest of the block cannot be mistaken for a part of the first statement. -/
theorem cons_complete {st : Stmt} {ss : List Stmt} (hst : StmtComplete st)
    (hss : BlockComplete ss) : BlockComplete (st :: ss) := by
  intro fuel s s' hfuel h
  rw [blockMarks, List.append_assoc] at h
  obtain ⟨s₁, hst', h⟩ := reads_append.mp h
  obtain ⟨fuel, rfl⟩ : ∃ f, fuel = f + 1 := ⟨fuel - 1, by omega⟩
  obtain ⟨m, ms, hmarks, -, hnoBrace⟩ := st.marks_start
  rw [hmarks] at hst'
  have hlen := hst'.length_lt
  have hpeek := hst'.peek?
  rw [← hmarks] at hst'
  simp only [statements, run_bind]
  refine ⟨m.token, s, peek_eq_ok.mpr ⟨hpeek, rfl⟩, ?_⟩
  simp only [if_neg hnoBrace, run_bind]
  exact ⟨st, s₁, hst fuel s s₁ (by omega) hst' fun _ => peek?_ne_kwElse h, ss, s',
    hss fuel s₁ s' (by omega) h, run_pure.mpr ⟨rfl, rfl⟩⟩

end Statements

mutual

/-- All normal statements, along the tree. -/
theorem stmt_complete : ∀ st : Stmt, st.Normal → StmtComplete st
  | .declare ty _, h => declare_complete ty h
  | .init ty x _, h => init_complete ty x h
  | .expr _, h => exprStmt_complete h
  | .ret pos _, h => ret_complete pos h
  | .block body, h => block_complete (stmts_complete body h)
  | .whileLoop _ body, ⟨hc, hbody⟩ => whileLoop_complete hc (stmt_complete body hbody)
  | .forLoop _ _ _ body, ⟨hinit, hc, hstep, hbody⟩ =>
    forLoop_complete hinit hc hstep (stmt_complete body hbody)
  | .ifThen _ thenBranch, ⟨hc, hthen⟩ => ifThen_complete hc (stmt_complete thenBranch hthen)
  | .ifElse _ thenBranch elseBranch, ⟨hc, hclosed, hthen, helse⟩ =>
    ifElse_complete hc hclosed (stmt_complete thenBranch hthen) (stmt_complete elseBranch helse)

theorem stmts_complete : ∀ ss : List Stmt, NormalBlock ss → BlockComplete ss
  | [], _ => nil_complete
  | st :: ss, ⟨hst, hss⟩ => cons_complete (stmt_complete st hst) (stmts_complete ss hss)

end

/-! ## Programs -/

section Programs

variable {s s' : TokenStream}

theorem param_complete {p : Param} (h : Reads p.marks s s') : param s = .ok p s' := by
  obtain ⟨s₁, hty, hname⟩ := reads_cons.mp h
  simp only [param, run_bind]
  exact ⟨p.ty, s₁, typeName_eq_ok.mpr hty, p.name, s', identifier_eq_ok.mpr hname,
    run_pure.mpr ⟨rfl, rfl⟩⟩

/-- A function is read up to the brace that closes its body. -/
theorem function_complete {f : Function} (hf : NormalBlock f.body) (h : Reads f.marks s s') :
    function s = .ok f s' := by
  obtain ⟨s₁, hret, h⟩ := reads_cons.mp h
  obtain ⟨s₂, hname, h⟩ := reads_cons.mp h
  obtain ⟨s₃, hopen, h⟩ := reads_cons.mp h
  obtain ⟨s₄, hparams, h⟩ := reads_append.mp h
  obtain ⟨s₅, hclose, h⟩ := reads_cons.mp h
  obtain ⟨s₆, hbrace, hbody⟩ := reads_cons.mp h
  obtain ⟨p, hp⟩ := exists_expect_eq_ok.mpr hopen
  obtain ⟨q, hq⟩ := exists_expect_eq_ok.mpr hbrace
  have hitems : items param s₃ = .ok f.params s₅ := by
    refine items_complete (n := s₃.rest.length) (fun x _ s s₁ _ hx _ => param_complete hx)
      (fun x _ s s₁ hx => ?_) (Nat.le_refl _) (hparams.append hclose)
    rw [hx.peek?]
    exact nofun
  simp only [function, block, run_bind]
  exact ⟨f.ret, s₁, typeName_eq_ok.mpr hret, f.name, s₂, identifier_eq_ok.mpr hname, p, s₃, hp,
    f.params, s₅, hitems, f.body, s',
    ⟨q, s₆, hq, stmts_complete f.body hf _ s₆ s' (Nat.le_refl _) hbody⟩, run_pure.mpr ⟨rfl, rfl⟩⟩

/-- Functions are read until the tokens are used up. -/
theorem functions_complete {p : Program} (hp : NormalProgram p) :
    ∀ {fuel : Nat} {s s' : TokenStream}, s.rest.length ≤ fuel → Reads (programMarks p) s s' →
      s'.rest = [] → functions fuel s = .ok p s' := by
  induction p with
  | nil =>
    intro fuel s s' hfuel h hend
    obtain rfl := reads_nil.mp h
    cases fuel with
    | zero => rfl
    | succ fuel =>
      simp only [functions, run_bind]
      exact ⟨s, s, rfl, by simp [TokenStream.isEmpty, hend, run_pure]⟩
  | cons f p ih =>
    intro fuel s s' hfuel h hend
    obtain ⟨hf, hp⟩ := List.forall_mem_cons.mp hp
    obtain ⟨s₁, hf', h⟩ := reads_append.mp h
    have hlen := hf'.length_lt
    obtain ⟨fuel, rfl⟩ : ∃ f, fuel = f + 1 := ⟨fuel - 1, by omega⟩
    have hmore : s.isEmpty = false := by
      rw [TokenStream.isEmpty, List.isEmpty_eq_false_iff]
      exact List.ne_nil_of_length_pos (by omega)
    simp only [functions, run_bind]
    refine ⟨s, s, rfl, ?_⟩
    simp only [hmore, Bool.false_eq_true, if_false, run_bind]
    exact ⟨f, s₁, function_complete hf hf', p, s', ih hp (by omega) h hend,
      run_pure.mpr ⟨rfl, rfl⟩⟩

end Programs

/-- Whatever spells a normal program is read as this program, wherever the tokens stand whose
positions it does not store. -/
theorem parse_complete {p : Program} {ts : List (Located Token)} (hp : NormalProgram p)
    (h : Spells (programMarks p) ts) : parse ts = .ok p := by
  have hread : bounded functions (TokenStream.ofTokens ts) = .ok p ⟨[], _⟩ :=
    functions_complete hp (by omega) (reads_of_spells h) rfl
  rw [parse, hread]
  rfl

/-- `int f(int n, bool b) { if (b) if (n < 1) f(n - 1, b); else n = n = -(n); }`: the `else` belongs
to the inner `if`. -/
def innerElse : Program :=
  [⟨.int, ⟨"f", ⟨1, 5⟩⟩, [⟨.int, ⟨"n", ⟨1, 11⟩⟩⟩, ⟨.bool, ⟨"b", ⟨1, 19⟩⟩⟩],
    [.ifThen (.var ⟨"b", ⟨2, 5⟩⟩)
      (.ifElse (.binary ⟨.lt, ⟨2, 14⟩⟩ (.var ⟨"n", ⟨2, 12⟩⟩) (.const ⟨.int 1, ⟨2, 16⟩⟩))
        (.expr (.call ⟨"f", ⟨3, 3⟩⟩ [.binary ⟨.sub, ⟨3, 7⟩⟩ (.var ⟨"n", ⟨3, 5⟩⟩)
          (.const ⟨.int 1, ⟨3, 9⟩⟩), .var ⟨"b", ⟨3, 12⟩⟩]))
        (.expr (.assign ⟨"n", ⟨4, 6⟩⟩ (.assign ⟨"n", ⟨4, 10⟩⟩
          (.negate ⟨4, 14⟩ (.paren (.var ⟨"n", ⟨4, 16⟩⟩)))))))]⟩]

/-- A token that stands where the tree does not say. -/
def unplaced (t : Token) : Located Token := ⟨t, ⟨0, 0⟩⟩

def innerElseTokens : List (Located Token) := [
  unplaced (.type .int), ⟨.ident "f", ⟨1, 5⟩⟩, unplaced .openParen, unplaced (.type .int),
  ⟨.ident "n", ⟨1, 11⟩⟩, unplaced .comma, unplaced (.type .bool), ⟨.ident "b", ⟨1, 19⟩⟩,
  unplaced .closeParen, unplaced .openBrace,
  unplaced .kwIf, unplaced .openParen, ⟨.ident "b", ⟨2, 5⟩⟩, unplaced .closeParen, unplaced .kwIf,
  unplaced .openParen, ⟨.ident "n", ⟨2, 12⟩⟩, ⟨.less, ⟨2, 14⟩⟩, ⟨.const (.int 1), ⟨2, 16⟩⟩,
  unplaced .closeParen,
  ⟨.ident "f", ⟨3, 3⟩⟩, unplaced .openParen, ⟨.ident "n", ⟨3, 5⟩⟩, ⟨.minus, ⟨3, 7⟩⟩,
  ⟨.const (.int 1), ⟨3, 9⟩⟩, unplaced .comma, ⟨.ident "b", ⟨3, 12⟩⟩, unplaced .closeParen,
  unplaced .semicolon,
  unplaced .kwElse, ⟨.ident "n", ⟨4, 6⟩⟩, unplaced .equal, ⟨.ident "n", ⟨4, 10⟩⟩, unplaced .equal,
  ⟨.minus, ⟨4, 14⟩⟩, unplaced .openParen, ⟨.ident "n", ⟨4, 16⟩⟩, unplaced .closeParen,
  unplaced .semicolon, unplaced .closeBrace]

theorem parse_complete_innerElse :
    NormalProgram innerElse ∧ Spells (programMarks innerElse) innerElseTokens ∧
      parse innerElseTokens = .ok innerElse := by
  have hnormal : NormalProgram innerElse := by
    simp [NormalProgram, innerElse, NormalBlock, Stmt.Normal, Expr.Normal, NormalArgs,
      Expr.IsOperand, Expr.IsFactor, Stmt.EndsOpen]
  have hspells : Spells (programMarks innerElse) innerElseTokens := by decide
  exact ⟨hnormal, hspells, parse_complete hnormal hspells⟩

end MiniC.Surface
