import MiniC.Proofs.Surface.ParserSound

/-!
# Fuel is a bound and nothing else

The recursive readers count down a fuel, and a reader that has none left gives up. This never shows:
with the fuel that `bounded` gives, or with any more than that, a reader does the same.

Two readers are compared on short streams. `Agree d n p q` says that they do the same there, and
that at least `d` tokens are read if they succeed. So what follows them is compared on shorter
streams, where less fuel is needed; the induction is on the number of tokens.
-/

namespace MiniC

namespace Parser

variable {α β : Type} {d e n : Nat} {p q : Parser α} {f g : α → Parser β}

/-- On streams of at most `n` tokens, `p` and `q` do the same, and read at least `d` tokens. -/
def Agree (d n : Nat) (p q : Parser α) : Prop :=
  ∀ s : TokenStream, s.rest.length ≤ n →
    p s = q s ∧ ∀ a s', q s = .ok a s' → s'.rest.length + d ≤ s.rest.length

/-! ## Sequencing -/

/-- Agreement on longer streams, and with more tokens read, is the stronger one. -/
theorem Agree.mono {d' n' : Nat} (h : Agree d n p q) (hd : d' ≤ d) (hn : n' ≤ n) :
    Agree d' n' p q := by
  intro s hs
  obtain ⟨heq, hreads⟩ := h s (Nat.le_trans hs hn)
  refine ⟨heq, fun a s' ha => ?_⟩
  have hle := hreads a s' ha
  omega

/-- After the first reader has taken `d` tokens, the second has that many fewer to agree on. -/
theorem Agree.bind (hp : Agree d n p q) (hf : ∀ a j, j + d ≤ n → Agree e j (f a) (g a)) :
    Agree (d + e) n (p >>= f) (q >>= g) := by
  intro s hs
  obtain ⟨heq, hreads⟩ := hp s hs
  have hrest : ∀ a s', q s = .ok a s' → f a s' = g a s' ∧
      ∀ b s'', g a s' = .ok b s'' → s''.rest.length + e ≤ s'.rest.length :=
    fun a s' ha => hf a s'.rest.length (Nat.le_trans (hreads a s' ha) hs) s' (Nat.le_refl _)
  refine ⟨run_bind_congr heq fun a s' ha => (hrest a s' ha).1, fun b s'' hb => ?_⟩
  obtain ⟨a, s', ha, hb⟩ := run_bind.mp hb
  have hfirst := hreads a s' ha
  have hsecond := (hrest a s' ha).2 b s'' hb
  omega

/-- Where the number of tokens that the first reader takes does not matter. -/
theorem Agree.andThen (hp : Agree d n p q) (hf : ∀ a, Agree e n (f a) (g a)) :
    Agree e n (p >>= f) (q >>= g) :=
  (hp.bind fun a j hj => (hf a).mono (Nat.le_refl e) (by omega)).mono (Nat.le_add_left e d)
    (Nat.le_refl n)

/-- Where the first reader takes a token, whatever the others do. -/
theorem Agree.first (hp : Agree 1 n p q) (hf : ∀ a j, j < n → Agree 0 j (f a) (g a)) :
    Agree 1 n (p >>= f) (q >>= g) :=
  hp.bind hf

theorem agree_pure (a : α) : Agree 0 n (pure a) (pure a) := by
  refine fun s _ => ⟨rfl, fun b s' h => ?_⟩
  obtain ⟨-, rfl⟩ := run_pure.mp h
  exact Nat.le_refl _

theorem agree_throw (err : ParseError) : Agree d n (throw err : Parser α) (throw err) :=
  fun _ _ => ⟨rfl, fun _ _ h => absurd h run_throw⟩

/-- Without more tokens nothing is read, under any bound. -/
theorem agree_missing : Agree d n (missing : Parser α) missing :=
  fun _ _ => ⟨rfl, fun _ _ h => absurd h run_missing⟩

/-- Readers that do the same where no token is left. -/
theorem Agree.of_nil {p' q' : Parser α} (h : Agree d 0 p q)
    (hp : ∀ stop, p' ⟨[], stop⟩ = p ⟨[], stop⟩) (hq : ∀ stop, q' ⟨[], stop⟩ = q ⟨[], stop⟩) :
    Agree d 0 p' q' := by
  rintro ⟨rest, stop⟩ hs
  obtain rfl : rest = [] := List.length_eq_zero_iff.mp (Nat.le_zero.mp hs)
  rw [hp, hq]
  exact h _ hs

/-! ## Readers without fuel -/

/-- A reader agrees with itself if it reads what some marks say. -/
theorem agree_of_reads {p : Parser α}
    (h : ∀ s a s', p s = .ok a s' → ∃ ms, Reads ms s s' ∧ d ≤ ms.length) : Agree d n p p := by
  refine fun s _ => ⟨rfl, fun a s' ha => ?_⟩
  obtain ⟨ms, hreads, hd⟩ := h s a s' ha
  have hlength := hreads.length
  omega

theorem agree_any : Agree 1 n any any :=
  agree_of_reads fun _ _ _ h => ⟨_, any_eq_ok.mp h, Nat.le_refl 1⟩

theorem agree_expect (t : Token) : Agree 1 n (expect t) (expect t) :=
  agree_of_reads fun _ _ _ h => ⟨_, expect_eq_ok.mp h, Nat.le_refl 1⟩

theorem agree_identifier : Agree 1 n identifier identifier :=
  agree_of_reads fun _ _ _ h => ⟨_, identifier_eq_ok.mp h, Nat.le_refl 1⟩

theorem agree_peek : Agree 0 n peek peek := by
  refine agree_of_reads fun s t s' h => ⟨[], ?_, Nat.le_refl 0⟩
  exact reads_nil.mpr (peek_eq_ok.mp h).2

theorem agree_get : Agree 0 n (get : Parser TokenStream) get := by
  refine agree_of_reads fun s t s' h => ⟨[], ?_, Nat.le_refl 0⟩
  cases h
  exact .nil

theorem agree_nextPos : Agree 0 n nextPos nextPos := by
  refine agree_of_reads fun s pos s' h => ⟨[], ?_, Nat.le_refl 0⟩
  cases h
  exact .nil

theorem agree_nextIf (p : Token → Bool) : Agree 0 n (nextIf p) (nextIf p) := by
  refine agree_of_reads fun s t? s' h => ?_
  cases t? with
  | none => exact ⟨[], reads_nil.mpr (nextIf_eq_none.mp h).2, Nat.le_refl 0⟩
  | some t => exact ⟨_, (nextIf_eq_some.mp h).1, Nat.zero_le 1⟩

/-- What follows a reader is compared on the streams that it leaves. -/
theorem agree_bind_of_run {p : Parser α}
    (h : ∀ s a s', s.rest.length ≤ n → p s = .ok a s' →
      s'.rest.length ≤ s.rest.length ∧ Agree e s'.rest.length (f a) (g a)) :
    Agree e n (p >>= f) (p >>= g) := by
  intro s hs
  refine ⟨run_bind_congr rfl fun a s' ha => ?_, fun b s'' hb => ?_⟩
  · exact ((h s a s' hs ha).2 s' (Nat.le_refl _)).1
  · obtain ⟨a, s', ha, hb⟩ := run_bind.mp hb
    obtain ⟨hle, hagree⟩ := h s a s' hs ha
    exact Nat.le_trans ((hagree s' (Nat.le_refl _)).2 b s'' hb) hle

/-- What follows an accepted token has fewer tokens to read. -/
theorem agree_accept_bind {t : Token} {f g : Bool → Parser β}
    (hyes : ∀ j, j < n → Agree e j (f true) (g true)) (hno : Agree e n (f false) (g false)) :
    Agree e n (accept t >>= f) (accept t >>= g) := by
  refine agree_bind_of_run fun s b s' hs hb => ?_
  cases b with
  | true =>
    have hlt := (accept_eq_true.mp hb).length_lt
    exact ⟨Nat.le_of_lt hlt, hyes _ (Nat.lt_of_lt_of_le hlt hs)⟩
  | false =>
    obtain ⟨-, rfl⟩ := accept_eq_false.mp hb
    exact ⟨Nat.le_refl _, hno.mono (Nat.le_refl e) hs⟩

end Parser

namespace Surface

open MiniC.Parser

variable {α : Type} {k n m least : Nat}

/-! ## Lists in parentheses -/

/-- Every round reads a token, be it the one behind the item. -/
theorem agree_commaList {item item' : Parser α} (hitem : Agree 0 k item item') (hn : k < n)
    (hm : k < m) : Agree 1 k (commaList item n) (commaList item' m) := by
  induction n generalizing k m with
  | zero => exact absurd hn (Nat.not_lt_zero k)
  | succ n ih =>
    obtain ⟨m, rfl⟩ := Nat.exists_eq_add_one_of_ne_zero (Nat.ne_zero_of_lt hm)
    refine hitem.andThen fun x => agree_any.first fun t j hj => ?_
    have hrest := ih (m := m) (hitem.mono (Nat.le_refl 0) (Nat.le_of_lt hj)) (by omega)
      (by omega)
    obtain ⟨value, pos⟩ := t
    cases value with
    | comma => exact hrest.andThen fun _ => agree_pure _
    | closeParen => exact agree_pure _
    | _ => exact agree_throw _

/-- A list in parentheses inherits the agreement of its items. -/
theorem agree_items {item item' : Parser α} (hitem : Agree 0 k item item') :
    Agree 0 k (items item) (items item') := by
  refine agree_accept_bind (fun j _ => agree_pure _) fun s hs => ?_
  have hlist := agree_commaList (hitem.mono (Nat.le_refl 0) hs) (n := 2 * s.rest.length + 1)
    (m := 2 * s.rest.length + 1) (by omega) (by omega)
  exact (hlist.mono (Nat.zero_le 1) (Nat.le_refl _)) s (Nat.le_refl _)

/-! ## Expressions -/

theorem agree_stepTarget {factor factor' : Parser Expr} (h : Agree 0 k factor factor') :
    Agree 0 k (stepTarget factor) (stepTarget factor') := by
  refine agree_nextPos.andThen fun pos => h.andThen fun e => ?_
  cases e with
  | var x => exact agree_pure _
  | _ => exact agree_throw _

/-- An atom agrees where the two readers of its parts do. -/
theorem agree_atom {factor factor' expr expr' : Parser Expr} (hfactor : Agree 0 k factor factor')
    (hexpr : Agree 0 k expr expr') (t : Located Token) :
    Agree 0 k (atom factor expr t) (atom factor' expr' t) := by
  obtain ⟨value, pos⟩ := t
  cases value with
  | increment | decrement => exact (agree_stepTarget hfactor).andThen fun _ => agree_pure _
  | const c => exact agree_pure _
  | minus => exact hfactor.andThen fun _ => agree_pure _
  | openParen => exact hexpr.andThen fun _ => (agree_expect _).andThen fun _ => agree_pure _
  | ident x =>
    refine agree_accept_bind (fun j hj => ?_) (agree_pure _)
    have hargs := agree_items (hexpr.mono (Nat.le_refl 0) (Nat.le_of_lt hj))
    exact hargs.andThen fun _ => agree_pure _
  | _ => exact agree_throw _

theorem agree_stepBehind (e : Expr) : Agree 0 k (stepBehind e) (stepBehind e) := by
  refine (agree_nextIf _).andThen fun t? => ?_
  cases t? with
  | none => exact agree_pure _
  | some t =>
    dsimp only
    cases e.target? with
    | none => exact agree_throw _
    | some x => exact agree_pure _

/-- What follows an operator has fewer tokens to read. -/
theorem agree_operator?_bind {f g : Option (Located BinaryOp) → Parser α}
    (hsome : ∀ op j, j < k → Agree 0 j (f (some op)) (g (some op)))
    (hnone : Agree 0 k (f none) (g none)) :
    Agree 0 k (operator? least >>= f) (operator? least >>= g) := by
  refine agree_bind_of_run fun s op? s' hs hop => ?_
  cases op? with
  | some op =>
    have hlt := (operator?_eq_some.mp hop).1.length_lt
    exact ⟨Nat.le_of_lt hlt, hsome op _ (Nat.lt_of_lt_of_le hlt hs)⟩
  | none =>
    obtain ⟨-, rfl⟩ := operator?_eq_none.mp hop
    exact ⟨Nat.le_refl _, hnone.mono (Nat.le_refl 0) hs⟩

/-- Without tokens the bound of the reader does not show. -/
theorem factor_nil (n : Nat) (stop : Pos) : factor n ⟨[], stop⟩ = missing ⟨[], stop⟩ := by
  cases n <;> rfl

theorem climb_nil (least : Nat) (left : Expr) (n : Nat) (stop : Pos) :
    climb n least left ⟨[], stop⟩ = (pure left : Parser Expr) ⟨[], stop⟩ := by
  cases n <;> rfl

/-- Two units for each token are enough, and one more where the first call reads none. -/
theorem agree_expression_readers (k : Nat) :
    ∀ n m, 2 * k ≤ n → 2 * k ≤ m → Agree 0 k (factor n) (factor m) ∧
      (∀ least left, Agree 0 k (climb n least left) (climb m least left)) ∧
      ∀ least, Agree 0 k (expr (n + 1) least) (expr (m + 1) least) := by
  induction k using Nat.strongRecOn with
  | _ k ih =>
    intro n m hn hm
    have hfactor : Agree 0 k (factor n) (factor m) := by
      rcases Nat.eq_zero_or_pos k with rfl | hk
      · exact agree_missing.of_nil (factor_nil n) (factor_nil m)
      · obtain ⟨n, rfl⟩ : ∃ i, n = i + 2 := ⟨n - 2, by omega⟩
        obtain ⟨m, rfl⟩ : ∃ i, m = i + 2 := ⟨m - 2, by omega⟩
        refine (agree_any.first fun t j hj => ?_).mono (Nat.zero_le 1) (Nat.le_refl k)
        obtain ⟨-, -, hexpr⟩ := ih j hj n m (by omega) (by omega)
        obtain ⟨hfactor, -, -⟩ := ih j hj (n + 1) (m + 1) (by omega) (by omega)
        exact (agree_atom hfactor (hexpr 0) t).andThen agree_stepBehind
    have hclimb : ∀ least left, Agree 0 k (climb n least left) (climb m least left) := by
      intro least left
      rcases Nat.eq_zero_or_pos k with rfl | hk
      · exact (agree_pure left).of_nil (climb_nil least left n) (climb_nil least left m)
      · obtain ⟨n, rfl⟩ : ∃ i, n = i + 2 := ⟨n - 2, by omega⟩
        obtain ⟨m, rfl⟩ : ∃ i, m = i + 2 := ⟨m - 2, by omega⟩
        refine agree_operator?_bind (fun op j hj => ?_) (agree_pure left)
        obtain ⟨-, -, hexpr⟩ := ih j hj n m (by omega) (by omega)
        obtain ⟨-, hclimb, -⟩ := ih j hj (n + 1) (m + 1) (by omega) (by omega)
        by_cases hassign : op.value = .assign
        · simp only [hassign, if_true]
          cases left.target? with
          | none => exact agree_throw _
          | some x => exact (hexpr _).andThen fun e => hclimb least _
        · simp only [hassign, if_false]
          exact (hexpr _).andThen fun right => hclimb least _
    exact ⟨hfactor, hclimb, fun least => hfactor.andThen fun left => hclimb least left⟩

/-! ## Statements -/

/-- Expressions take their bound from the stream, and leave no more of it than there was. -/
theorem agree_expression : Agree 0 k expression expression :=
  agree_of_reads fun _ _ _ h => ⟨_, (expression_sound h).1, Nat.zero_le _⟩

theorem agree_optionalExpression (stop : Token) :
    Agree 0 k (optionalExpression stop) (optionalExpression stop) :=
  agree_of_reads fun _ _ _ h => ⟨_, (optionalExpression_sound h).1, Nat.zero_le _⟩

theorem agree_condition : Agree 0 k condition condition :=
  agree_of_reads fun _ _ _ h => ⟨_, (condition_sound h).1, Nat.zero_le _⟩

theorem moreNames_nil (n : Nat) (stop : Pos) :
    moreNames n ⟨[], stop⟩ = (pure [] : Parser (List Name)) ⟨[], stop⟩ := by
  cases n <;> rfl

/-- Every further name takes a token, so the bound need not exceed the tokens left. -/
theorem agree_moreNames (k : Nat) :
    ∀ n m, k ≤ n → k ≤ m → Agree 0 k (moreNames n) (moreNames m) := by
  induction k using Nat.strongRecOn with
  | _ k ih =>
    intro n m hn hm
    rcases Nat.eq_zero_or_pos k with rfl | hk
    · exact (agree_pure []).of_nil (moreNames_nil n) (moreNames_nil m)
    · obtain ⟨n, rfl⟩ : ∃ i, n = i + 1 := ⟨n - 1, by omega⟩
      obtain ⟨m, rfl⟩ : ∃ i, m = i + 1 := ⟨m - 1, by omega⟩
      refine agree_accept_bind (fun j hj => ?_) (agree_pure _)
      refine agree_identifier.andThen fun x => ?_
      exact (ih j hj n m (by omega) (by omega)).andThen fun _ => agree_pure _

theorem agree_declaration : Agree 1 k declaration declaration := by
  refine agree_of_reads fun s st s' h => ⟨_, (declaration_sound h).1, ?_⟩
  cases st <;> simp [Stmt.marks]

/-- Every statement reads a token before the next one is read. -/
theorem agree_statementAt {statement statement' : Parser Stmt} {block block' : Parser (List Stmt)}
    (hstatement : ∀ j, j < k → Agree 1 j statement statement') (hblock : Agree 1 k block block')
    (t : Token) : Agree 1 k (statementAt statement block t) (statementAt statement' block' t) := by
  cases t with
  | type ty => exact agree_declaration
  | kwReturn =>
    refine (agree_expect _).first fun pos j hj => ?_
    exact (agree_optionalExpression _).andThen fun _ => agree_pure _
  | openBrace => exact hblock.first fun _ _ _ => agree_pure _
  | kwIf =>
    refine agree_any.first fun _ j hj => agree_condition.andThen fun c => ?_
    refine (hstatement j hj).andThen fun thenBranch => ?_
    refine agree_accept_bind (fun i hi => ?_) (agree_pure _)
    exact (hstatement i (Nat.lt_trans hi hj)).andThen fun _ => agree_pure _
  | kwWhile =>
    refine agree_any.first fun _ j hj => agree_condition.andThen fun c => ?_
    exact (hstatement j hj).andThen fun _ => agree_pure _
  | kwFor =>
    refine agree_any.first fun _ j hj => (agree_expect _).andThen fun _ => ?_
    refine (agree_optionalExpression _).andThen fun init => ?_
    refine (agree_optionalExpression _).andThen fun c => ?_
    refine (agree_optionalExpression _).andThen fun step => ?_
    exact (hstatement j hj).andThen fun _ => agree_pure _
  | _ => exact agree_expression.andThen fun e => (agree_expect _).first fun _ _ _ => agree_pure _

theorem statement_nil (n : Nat) (stop : Pos) : statement n ⟨[], stop⟩ = missing ⟨[], stop⟩ := by
  cases n <;> rfl

/-- Two units for each token are enough, and one more where the first call reads none. -/
theorem agree_statement_readers (k : Nat) :
    ∀ n m, 2 * k ≤ n → 2 * k ≤ m → Agree 1 k (statement n) (statement m) ∧
      Agree 1 k (statements (n + 1)) (statements (m + 1)) := by
  induction k using Nat.strongRecOn with
  | _ k ih =>
    intro n m hn hm
    have hstatement : Agree 1 k (statement n) (statement m) := by
      rcases Nat.eq_zero_or_pos k with rfl | hk
      · exact agree_missing.of_nil (statement_nil n) (statement_nil m)
      · obtain ⟨n, rfl⟩ : ∃ i, n = i + 2 := ⟨n - 2, by omega⟩
        obtain ⟨m, rfl⟩ : ∃ i, m = i + 2 := ⟨m - 2, by omega⟩
        refine agree_peek.andThen fun t => agree_statementAt (fun j hj => ?_) ?_ t
        · exact (ih j hj (n + 1) (m + 1) (by omega) (by omega)).1
        · refine (agree_expect _).first fun _ j hj => ?_
          exact (ih j hj n m (by omega) (by omega)).2.mono (Nat.zero_le 1) (Nat.le_refl j)
    refine ⟨hstatement, agree_peek.andThen fun t => ?_⟩
    by_cases hclose : t = .closeBrace
    · simp only [hclose, if_true]
      exact agree_any.first fun _ _ _ => agree_pure _
    · simp only [hclose, if_false]
      refine hstatement.first fun st j hj => ?_
      obtain ⟨n, rfl⟩ : ∃ i, n = i + 1 := ⟨n - 1, by omega⟩
      obtain ⟨m, rfl⟩ : ∃ i, m = i + 1 := ⟨m - 1, by omega⟩
      exact (ih j hj n m (by omega) (by omega)).2.andThen fun _ => agree_pure _

/-! ## Functions -/

/-- A function takes a token at least, its result type. -/
theorem agree_function : Agree 1 k function function :=
  agree_of_reads fun _ _ _ h => ⟨_, (function_sound h).1, Nat.le_add_left 1 _⟩

theorem functions_nil (n : Nat) (stop : Pos) :
    functions n ⟨[], stop⟩ = (pure [] : Parser Program) ⟨[], stop⟩ := by
  cases n <;> rfl

/-- Every function takes a token, so the bound need not exceed the tokens left. -/
theorem agree_functions (k : Nat) :
    ∀ n m, k ≤ n → k ≤ m → Agree 0 k (functions n) (functions m) := by
  induction k using Nat.strongRecOn with
  | _ k ih =>
    intro n m hn hm
    rcases Nat.eq_zero_or_pos k with rfl | hk
    · exact (agree_pure []).of_nil (functions_nil n) (functions_nil m)
    · obtain ⟨n, rfl⟩ : ∃ i, n = i + 1 := ⟨n - 1, by omega⟩
      obtain ⟨m, rfl⟩ : ∃ i, m = i + 1 := ⟨m - 1, by omega⟩
      refine agree_get.andThen fun s => ?_
      cases s.isEmpty with
      | true => exact agree_pure _
      | false =>
        refine (agree_function.first fun f j hj => ?_).mono (Nat.zero_le 1) (Nat.le_refl k)
        exact (ih j hj n m (by omega) (by omega)).andThen fun _ => agree_pure _

/-! ## All readers -/

variable {s : TokenStream}

/-- Every function takes a token, so as much fuel as there are tokens is enough. -/
theorem functions_fuel (hn : s.rest.length ≤ n) (hm : s.rest.length ≤ m) :
    functions n s = functions m s :=
  (agree_functions _ n m hn hm s (Nat.le_refl _)).1

/-- With more fuel than `bounded` gives, no reader does anything else. -/
theorem readers_of_enough_fuel (hn : 2 * s.rest.length + 1 ≤ n) :
    factor n s = bounded factor s ∧
      (∀ least, expr n least s = bounded (expr · least) s) ∧
      (∀ least left, climb n least left s = bounded (climb · least left) s) ∧
      moreNames n s = bounded moreNames s ∧
      statement n s = bounded statement s ∧
      statements n s = bounded statements s ∧
      functions n s = bounded functions s ∧
      ∀ (α : Type) (item : Parser α),
        (∀ s a s', item s = .ok a s' → s'.rest.length ≤ s.rest.length) →
        commaList item n s = bounded (commaList item) s := by
  obtain ⟨n, rfl⟩ : ∃ i, n = i + 1 := ⟨n - 1, by omega⟩
  have hle : s.rest.length ≤ s.rest.length := Nat.le_refl _
  -- what is left of the fuel of `bounded` after one step is still enough
  have hexpr := agree_expression_readers s.rest.length n (2 * s.rest.length) (by omega) (by omega)
  have hfull := agree_expression_readers s.rest.length (n + 1) (2 * s.rest.length + 1) (by omega)
    (by omega)
  have hblock := agree_statement_readers s.rest.length n (2 * s.rest.length) (by omega) (by omega)
  have hstatement := agree_statement_readers s.rest.length (n + 1) (2 * s.rest.length + 1)
    (by omega) (by omega)
  refine ⟨(hfull.1 s hle).1, fun least => (hexpr.2.2 least s hle).1,
    fun least left => (hfull.2.1 least left s hle).1, ?_, (hstatement.1 s hle).1,
    (hblock.2 s hle).1, functions_fuel (by omega) (by omega), fun α item hitem => ?_⟩
  · exact (agree_moreNames s.rest.length (n + 1) (2 * s.rest.length + 1) (by omega) (by omega) s
      hle).1
  · have hagree : Agree 0 s.rest.length item item := fun s _ => ⟨rfl, fun a s' => hitem s a s'⟩
    exact (agree_commaList hagree (by omega) (by omega) s hle).1

end Surface

end MiniC
