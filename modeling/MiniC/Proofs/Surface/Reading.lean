import MiniC.Proofs.Surface.Grammar
import MiniC.Surface.Parser

/-!
# What the readers of single tokens read

A reader that succeeds takes some tokens off the stream. `Reads ms s s'` says that the tokens
between `s` and `s'` are those of `ms`. Each of the basic readers is pinned by an equivalence: it
gives a value exactly if the marks of that value are read. The equivalences serve both directions,
what a reader has read and that it reads what is there.
-/

namespace MiniC

open Surface (Mark bare placed nameMark Spells)

/-- From `s` to `s'` exactly the tokens of `ms` are read. -/
inductive Reads : List Mark → TokenStream → TokenStream → Prop where
  | nil {s : TokenStream} : Reads [] s s
  | cons {m : Mark} {ms : List Mark} {t : Located Token} {rest : List (Located Token)} {stop : Pos}
      {s' : TokenStream} : m.Matches t → Reads ms ⟨rest, stop⟩ s' →
      Reads (m :: ms) ⟨t :: rest, stop⟩ s'

section Reads

variable {s s₁ s' : TokenStream} {m : Mark} {ms ns : List Mark}

theorem reads_nil : Reads [] s s' ↔ s = s' := by
  constructor
  · rintro ⟨⟩
    rfl
  · rintro rfl
    exact .nil

/-- What is read in two parts is read at once. -/
theorem reads_append : Reads (ms ++ ns) s s' ↔ ∃ s₁, Reads ms s s₁ ∧ Reads ns s₁ s' := by
  constructor
  · intro h
    induction ms generalizing s with
    | nil => exact ⟨s, .nil, h⟩
    | cons m ms ih =>
      cases h with
      | cons hm h =>
        obtain ⟨s₁, h₁, h₂⟩ := ih h
        exact ⟨s₁, .cons hm h₁, h₂⟩
  · rintro ⟨s₁, h₁, h₂⟩
    induction h₁ with
    | nil => exact h₂
    | cons hm _ ih => exact .cons hm (ih h₂)

theorem reads_cons : Reads (m :: ms) s s' ↔ ∃ s₁, Reads [m] s s₁ ∧ Reads ms s₁ s' :=
  @reads_append s s' [m] ms

theorem Reads.append (h₁ : Reads ms s s₁) (h₂ : Reads ns s₁ s') : Reads (ms ++ ns) s s' :=
  reads_append.mpr ⟨s₁, h₁, h₂⟩

theorem Reads.andThen (h₁ : Reads [m] s s₁) (h₂ : Reads ms s₁ s') : Reads (m :: ms) s s' :=
  reads_cons.mpr ⟨s₁, h₁, h₂⟩

/-- Every mark stands for one token. -/
theorem Reads.length (h : Reads ms s s') : s.rest.length = s'.rest.length + ms.length := by
  induction h with
  | nil => rfl
  | cons _ _ ih =>
    rw [List.length_cons, ih, List.length_cons, Nat.add_assoc]

theorem Reads.length_le (h : Reads ms s s') : s'.rest.length ≤ s.rest.length := by
  rw [h.length]
  exact Nat.le_add_right _ _

/-- Reading at least one mark takes at least one token. -/
theorem Reads.length_lt (h : Reads (m :: ms) s s') : s'.rest.length < s.rest.length := by
  rw [h.length]
  exact Nat.lt_add_of_pos_right (Nat.succ_pos _)

/-- The one token that a mark stands for is the first that is left. -/
theorem reads_singleton :
    Reads [m] s s' ↔ ∃ t, m.Matches t ∧ s = ⟨t :: s'.rest, s'.stop⟩ := by
  constructor
  · intro h
    cases h with
    | cons hm h =>
      obtain rfl := reads_nil.mp h
      exact ⟨_, hm, rfl⟩
  · rintro ⟨t, hm, rfl⟩
    exact .cons hm .nil

/-- A mark with a position stands for one token only. -/
theorem reads_placed {t : Token} {pos : Pos} :
    Reads [placed t pos] s s' ↔ s = ⟨⟨t, pos⟩ :: s'.rest, s'.stop⟩ := by
  rw [reads_singleton]
  constructor
  · rintro ⟨⟨value, p⟩, ⟨hvalue, hpos⟩, rfl⟩
    obtain rfl : value = t := hvalue
    obtain rfl : p = pos := hpos pos rfl
    rfl
  · rintro rfl
    exact ⟨_, ⟨rfl, by simp [placed]⟩, rfl⟩

/-- A mark without a position stands for a token at any position. -/
theorem reads_bare {t : Token} : Reads [bare t] s s' ↔ ∃ pos, Reads [placed t pos] s s' := by
  rw [reads_singleton]
  constructor
  · rintro ⟨⟨value, pos⟩, ⟨hvalue, -⟩, rfl⟩
    obtain rfl : value = t := hvalue
    exact ⟨pos, reads_placed.mpr rfl⟩
  · rintro ⟨pos, h⟩
    exact ⟨_, ⟨rfl, by simp [bare]⟩, reads_placed.mp h⟩

/-- The token that comes next. -/
theorem Reads.peek? (h : Reads (m :: ms) s s') : s.peek? = some m.token := by
  cases h with
  | cons hm _ => exact congrArg some hm.1

/-- Who has read everything has read the spelling of it. -/
theorem Reads.spells (h : Reads ms s s') (hend : s'.rest = []) : Spells ms s.rest := by
  induction h with
  | nil =>
    rw [hend]
    exact .nil
  | cons hm _ ih => exact .cons hm (ih hend)

/-- A spelling is read from its start to its end. -/
theorem reads_of_spells {ts : List (Located Token)} {stop : Pos} (h : Spells ms ts) :
    Reads ms ⟨ts, stop⟩ ⟨[], stop⟩ := by
  induction h with
  | nil => exact .nil
  | cons hm _ ih => exact .cons hm ih

end Reads

namespace Parser

variable {α β : Type} {s s' : TokenStream} {t : Token} {pos : Pos}

/-! ## Sequencing -/

/-- A sequence succeeds just if its parts do, one behind the other. -/
theorem run_bind {p : Parser α} {f : α → Parser β} {b : β} :
    (p >>= f) s = .ok b s' ↔ ∃ a s₁, p s = .ok a s₁ ∧ f a s₁ = .ok b s' := by
  change EStateM.bind p f s = .ok b s' ↔ _
  unfold EStateM.bind
  constructor
  · intro h
    split at h
    · next a s₁ ha => exact ⟨a, s₁, ha, h⟩
    · cases h
  · rintro ⟨a, s₁, ha, h⟩
    rw [ha]
    exact h

/-- A success hands its value on to what follows. -/
theorem run_bind_of_ok {p : Parser α} {f : α → Parser β} {a : α} (h : p s = .ok a s') :
    (p >>= f) s = f a s' := by
  change EStateM.bind p f s = _
  rw [EStateM.bind, h]

/-- The second part matters only where the first one leads. -/
theorem run_bind_congr {p q : Parser α} {f g : α → Parser β} (hp : p s = q s)
    (hf : ∀ a s', q s = .ok a s' → f a s' = g a s') : (p >>= f) s = (q >>= g) s := by
  change EStateM.bind p f s = EStateM.bind q g s
  unfold EStateM.bind
  rw [hp]
  split
  · next a s' h => exact hf a s' h
  · rfl

/-- Readers that agree still agree when their values are mapped. -/
theorem run_map_congr {p q : Parser α} {f : α → β} (h : p s = q s') :
    (f <$> p) s = (f <$> q) s' := by
  change EStateM.map f p s = EStateM.map f q s'
  unfold EStateM.map
  rw [h]

theorem run_map_of_ok {p : Parser α} {f : α → β} {a : α} (h : p s = .ok a s') :
    (f <$> p) s = .ok (f a) s' := by
  change EStateM.map f p s = _
  rw [EStateM.map, h]

theorem run_map_of_error {p : Parser α} {f : α → β} {e : ParseError} (h : p s = .error e s') :
    (f <$> p) s = .error e s' := by
  change EStateM.map f p s = _
  rw [EStateM.map, h]

theorem run_pure {a b : α} : (pure a : Parser α) s = .ok b s' ↔ a = b ∧ s = s' := by
  constructor
  · intro h
    cases h
    exact ⟨rfl, rfl⟩
  · rintro ⟨rfl, rfl⟩
    rfl

@[simp] theorem run_throw {e : ParseError} {a : α} : (throw e : Parser α) s ≠ .ok a s' := by
  intro h
  cases h

@[simp] theorem run_missing {a : α} : (missing : Parser α) s ≠ .ok a s' := by
  intro h
  cases h

/-! ## Single tokens -/

/-- Any token is taken as it stands. -/
theorem any_eq_ok {u : Located Token} : any s = .ok u s' ↔ Reads [placed u.value u.pos] s s' := by
  rw [reads_placed]
  rcases s with ⟨_ | ⟨v, rest⟩, stop⟩
  · simp [any]
  · simp only [any, EStateM.Result.ok.injEq, TokenStream.mk.injEq, List.cons.injEq]
    constructor
    · rintro ⟨rfl, rfl⟩
      exact ⟨⟨rfl, rfl⟩, rfl⟩
    · rintro ⟨⟨rfl, rfl⟩, rfl⟩
      exact ⟨rfl, rfl⟩

/-- The token that is expected is taken, and nothing else. -/
theorem expect_eq_ok : expect t s = .ok pos s' ↔ Reads [placed t pos] s s' := by
  simp only [expect, run_bind, any_eq_ok]
  constructor
  · rintro ⟨u, s₁, hu, h⟩
    split at h
    · next heq =>
      obtain ⟨rfl, rfl⟩ := run_pure.mp h
      rwa [← heq]
    · cases h
  · intro h
    exact ⟨⟨t, pos⟩, s', h, by simp [run_pure]⟩

/-- Where the position is of no interest. -/
theorem exists_expect_eq_ok : (∃ pos, expect t s = .ok pos s') ↔ Reads [bare t] s s' := by
  simp only [expect_eq_ok, reads_bare]

/-- Reads a token that was looked at before. -/
theorem exists_any_eq_ok (hpeek : s.peek? = some t) :
    (∃ u, any s = .ok u s') ↔ Reads [bare t] s s' := by
  simp only [any_eq_ok, reads_bare]
  constructor
  · rintro ⟨u, h⟩
    obtain rfl : u.value = t := Option.some.inj (h.peek?.symm.trans hpeek)
    exact ⟨u.pos, h⟩
  · rintro ⟨pos, h⟩
    exact ⟨⟨t, pos⟩, h⟩

/-- An identifier is a name with its position. -/
theorem identifier_eq_ok {x : Name} : identifier s = .ok x s' ↔ Reads [nameMark x] s s' := by
  simp only [identifier, run_bind, any_eq_ok]
  constructor
  · rintro ⟨⟨value, p⟩, s₁, hu, h⟩
    cases value with
    | ident y =>
      obtain ⟨rfl, rfl⟩ := run_pure.mp h
      exact hu
    | _ => cases h
  · intro h
    exact ⟨⟨.ident x.value, x.pos⟩, s', h, run_pure.mpr ⟨rfl, rfl⟩⟩

theorem typeName_eq_ok {ty : Ty} : typeName s = .ok ty s' ↔ Reads [bare (.type ty)] s s' := by
  simp only [typeName, run_bind, any_eq_ok, reads_bare]
  constructor
  · rintro ⟨⟨value, p⟩, s₁, hu, h⟩
    cases value with
    | type ty' =>
      obtain ⟨rfl, rfl⟩ := run_pure.mp h
      exact ⟨p, hu⟩
    | _ => cases h
  · rintro ⟨pos, h⟩
    exact ⟨⟨.type ty, pos⟩, s', h, run_pure.mpr ⟨rfl, rfl⟩⟩

/-- Looking at the next token takes nothing. -/
theorem peek_eq_ok : peek s = .ok t s' ↔ s.peek? = some t ∧ s = s' := by
  rcases s with ⟨_ | ⟨u, rest⟩, stop⟩
  · simp [peek, TokenStream.peek?]
  · simp [peek, TokenStream.peek?]

/-- A token that passes the test is taken. -/
theorem nextIf_eq_some {p : Token → Bool} {u : Located Token} :
    nextIf p s = .ok (some u) s' ↔ Reads [placed u.value u.pos] s s' ∧ p u.value = true := by
  rw [← any_eq_ok]
  rcases s with ⟨_ | ⟨v, rest⟩, stop⟩
  · simp [nextIf, any]
  · by_cases hp : p v.value = true
    · simp only [nextIf, any, hp, if_pos, EStateM.Result.ok.injEq, Option.some.injEq]
      constructor
      · rintro ⟨rfl, rfl⟩
        exact ⟨⟨rfl, rfl⟩, hp⟩
      · exact And.left
    · simp only [nextIf, any, hp, EStateM.Result.ok.injEq]
      constructor
      · rintro ⟨⟨⟩, -⟩
      · rintro ⟨⟨rfl, -⟩, h⟩
        exact absurd h hp

/-- If no token passes the test, then nothing is taken. -/
theorem nextIf_eq_none {p : Token → Bool} :
    nextIf p s = .ok none s' ↔ (∀ u, s.peek? = some u → p u = false) ∧ s = s' := by
  rcases s with ⟨_ | ⟨v, rest⟩, stop⟩
  · simp [nextIf, TokenStream.peek?]
  · by_cases hp : p v.value = true
    · simp [nextIf, TokenStream.peek?, hp]
    · simp [nextIf, TokenStream.peek?, hp]

/-- A token is accepted if it is the one that is asked for. -/
theorem accept_eq_true : accept t s = .ok true s' ↔ Reads [bare t] s s' := by
  simp only [accept, run_bind, run_pure, reads_bare]
  constructor
  · rintro ⟨u?, s₁, hu, hsome, rfl⟩
    obtain ⟨u, rfl⟩ := Option.isSome_iff_exists.mp hsome
    obtain ⟨hu, heq⟩ := nextIf_eq_some.mp hu
    rw [decide_eq_true_eq] at heq
    rw [heq] at hu
    exact ⟨u.pos, hu⟩
  · rintro ⟨pos, h⟩
    exact ⟨some ⟨t, pos⟩, s', nextIf_eq_some.mpr ⟨h, by simp⟩, rfl, rfl⟩

/-- Nothing is taken if another token comes, or none. -/
theorem accept_eq_false : accept t s = .ok false s' ↔ s.peek? ≠ some t ∧ s = s' := by
  simp only [accept, run_bind, run_pure]
  constructor
  · rintro ⟨u?, s₁, hu, hnone, rfl⟩
    obtain rfl : u? = none := by simpa using hnone
    obtain ⟨hpeek, rfl⟩ := nextIf_eq_none.mp hu
    refine ⟨fun heq => ?_, rfl⟩
    simpa using hpeek t heq
  · rintro ⟨hpeek, rfl⟩
    refine ⟨none, s, nextIf_eq_none.mpr ⟨fun u hu => ?_, rfl⟩, rfl, rfl⟩
    rw [decide_eq_false_iff_not]
    rintro rfl
    exact hpeek hu

end Parser

/-! ## Operators -/

namespace Surface

open MiniC.Parser

variable {s s' : TokenStream} {least : Nat}

/-- No operator that binds at least as tightly as `least` comes next. -/
def Stops (least : Nat) (s : TokenStream) : Prop :=
  ∀ op : BinaryOp, s.peek? = some op.token → op.precedence < least

/-- Where operators of some strength stop, stronger ones are not looked for. -/
theorem Stops.mono {least' : Nat} (h : Stops least s) (hle : least ≤ least') : Stops least' s :=
  fun op hop => Nat.lt_of_lt_of_le (h op hop) hle

/-- An operator is taken if it binds at least as strongly as asked for. -/
theorem operator?_eq_some {op : Located BinaryOp} :
    operator? least s = .ok (some op) s' ↔
      Reads [placed op.value.token op.pos] s s' ∧ least ≤ op.value.precedence := by
  rw [reads_placed]
  rcases s with ⟨_ | ⟨⟨t, pos⟩, rest⟩, stop⟩
  · simp [operator?]
  · simp only [operator?, TokenStream.mk.injEq, List.cons.injEq, Located.mk.injEq,
      ← Token.binaryOp?_eq_some]
    constructor
    · intro h
      split at h
      · cases h
      · next op' hop =>
        split at h
        · next hle =>
          cases h
          exact ⟨⟨⟨⟨hop, rfl⟩, rfl⟩, rfl⟩, hle⟩
        · cases h
    · rintro ⟨⟨⟨⟨hop, rfl⟩, rfl⟩, rfl⟩, hle⟩
      simp only [hop, if_pos hle]

/-- No operator is taken where an expression stops. -/
theorem operator?_eq_none : operator? least s = .ok none s' ↔ Stops least s ∧ s = s' := by
  rcases s with ⟨_ | ⟨⟨t, pos⟩, rest⟩, stop⟩
  · simp [operator?, Stops, TokenStream.peek?]
  · have hstops : Stops least ⟨⟨t, pos⟩ :: rest, stop⟩ ↔
        ∀ op, t.binaryOp? = some op → op.precedence < least := by
      simp only [Stops, TokenStream.peek?, List.head?_cons, Option.map_some, Option.some.injEq,
        Token.binaryOp?_eq_some]
    rw [hstops]
    cases hop : t.binaryOp? with
    | none => simp [operator?, hop]
    | some op =>
      by_cases hle : least ≤ op.precedence
      · simp [operator?, hop, hle, Nat.not_lt.mpr hle]
      · simp [operator?, hop, hle, Nat.lt_of_not_le hle]

/-- The expression can stand where operators have to bind at least as tightly as `least`. -/
def Expr.Fits (least : Nat) : Expr → Prop
  | .assign _ _ => least ≤ BinaryOp.assign.precedence
  | .binary op _ _ => least ≤ op.value.precedence
  | _ => True

/-- The operator that comes next, if any, takes the whole expression for its left operand. Behind an
assignment, whose right side takes all that follows, none can come. -/
def Expr.ClosedBefore (s : TokenStream) : Expr → Prop
  | .assign _ _ => Stops BinaryOp.assign.precedence s
  | .binary op _ _ => Stops (op.value.precedence + 1) s
  | _ => True

/-- An assignment binds less strongly than anything else. -/
theorem assign_precedence_le (op : BinaryOp) : BinaryOp.assign.precedence ≤ op.precedence := by
  cases op <;> decide

theorem assign_precedence_lt {op : BinaryOp} (h : op ≠ .assign) :
    BinaryOp.assign.precedence < op.precedence := by
  revert h
  cases op <;> decide

/-- A factor fits everywhere, as it has no operator outside of parentheses. -/
theorem Expr.IsFactor.fits {e : Expr} (h : e.IsFactor) : e.Fits least := by
  cases e <;> trivial

theorem Expr.IsFactor.closedBefore {e : Expr} (h : e.IsFactor) : e.ClosedBefore s := by
  cases e <;> trivial

/-- An operand fits where weaker operators are let in as well. -/
theorem Expr.IsOperand.fits {e : Expr} {least' : Nat} (h : e.IsOperand least')
    (hle : least ≤ least') : e.Fits least := by
  cases e with
  | assign x e => cases h
  | binary op left right => exact Nat.le_trans hle h
  | _ => trivial

/-- Operators other than `=` have no assignment for an operand. -/
theorem Expr.Fits.isOperand {e : Expr} (h : e.Fits least)
    (hlt : BinaryOp.assign.precedence < least) : e.IsOperand least := by
  cases e with
  | assign x e => exact absurd h (Nat.not_le.mpr hlt)
  | binary op left right => exact h
  | _ => trivial

/-- The operator that comes next can have the expression for its left operand. -/
theorem Expr.ClosedBefore.isOperand {e : Expr} {op : Located BinaryOp} (h : e.ClosedBefore s)
    (hop : Reads [placed op.value.token op.pos] s s') : e.IsOperand op.value.precedence := by
  have hpeek : s.peek? = some op.value.token := hop.peek?
  cases e with
  | assign x e => exact absurd (h op.value hpeek) (Nat.not_lt.mpr (assign_precedence_le _))
  | binary op' left right => exact Nat.lt_succ_iff.mp (h op.value hpeek)
  | _ => trivial

/-! ## Steps -/

/-- Steps apply to variables only. -/
theorem stepTarget_eq_ok {factor : Parser Expr} {x : Name} :
    stepTarget factor s = .ok x s' ↔ factor s = .ok (.var x) s' := by
  simp only [stepTarget, run_bind]
  constructor
  · rintro ⟨pos, s₁, hpos, e, s₂, he, h⟩
    cases hpos
    cases e with
    | var y =>
      obtain ⟨rfl, rfl⟩ := run_pure.mp h
      exact he
    | _ => cases h
  · intro h
    exact ⟨s.pos, s, rfl, .var x, s', h, run_pure.mpr ⟨rfl, rfl⟩⟩

/-- Either no step follows and nothing happens, or the expression is a variable and the step behind
it is read. -/
theorem stepBehind_eq_ok {e e' : Expr} :
    stepBehind e s = .ok e' s' ↔
      (s.peek? ≠ some .increment ∧ s.peek? ≠ some .decrement ∧ e = e' ∧ s = s') ∨
        ∃ x, ∃ st : Step, e = .var x ∧ st.isPost = true ∧ e' = .step st x ∧
          Reads [bare st.token] s s' := by
  simp only [stepBehind, run_bind]
  constructor
  · rintro ⟨u?, s₁, hu, h⟩
    cases u? with
    | none =>
      obtain ⟨hpeek, rfl⟩ := nextIf_eq_none.mp hu
      obtain ⟨rfl, rfl⟩ := run_pure.mp h
      refine .inl ⟨fun hi => ?_, fun hd => ?_, rfl, rfl⟩
      · simpa using hpeek _ hi
      · simpa using hpeek _ hd
    | some u =>
      obtain ⟨hu, hstep⟩ := nextIf_eq_some.mp hu
      simp only [Bool.or_eq_true, decide_eq_true_eq] at hstep
      cases e with
      | var x =>
        obtain ⟨rfl, rfl⟩ := run_pure.mp h
        refine .inr ⟨x, _, rfl, ?_, rfl, ?_⟩
        · split <;> rfl
        · rcases hstep with hv | hv
          · rw [hv] at hu ⊢
            exact reads_bare.mpr ⟨_, hu⟩
          · rw [hv] at hu ⊢
            exact reads_bare.mpr ⟨_, hu⟩
      | _ => cases h
  · rintro (⟨hi, hd, rfl, rfl⟩ | ⟨x, st, rfl, hpost, rfl, h⟩)
    · refine ⟨none, s, nextIf_eq_none.mpr ⟨fun u hu => ?_, rfl⟩, run_pure.mpr ⟨rfl, rfl⟩⟩
      rw [Bool.or_eq_false_iff, decide_eq_false_iff_not, decide_eq_false_iff_not]
      constructor
      · rintro rfl
        exact hi hu
      · rintro rfl
        exact hd hu
    · obtain ⟨pos, h⟩ := reads_bare.mp h
      refine ⟨some ⟨st.token, pos⟩, s', nextIf_eq_some.mpr ⟨h, ?_⟩, run_pure.mpr ⟨?_, rfl⟩⟩
      · cases st <;> rfl
      · cases st with
        | preIncrement | preDecrement => cases hpost
        | postIncrement | postDecrement => rfl

/-! ## Conditions and optional expressions -/

/-- A condition stands in parentheses. -/
theorem condition_eq_ok {e : Expr} :
    condition s = .ok e s' ↔
      ∃ s₁ s₂, Reads [bare .openParen] s s₁ ∧ expression s₁ = .ok e s₂ ∧
        Reads [bare .closeParen] s₂ s' := by
  simp only [condition, run_bind, run_pure, ← exists_expect_eq_ok]
  constructor
  · rintro ⟨p, s₁, hp, e, s₂, he, q, s₃, hq, rfl, rfl⟩
    exact ⟨s₁, s₂, ⟨p, hp⟩, he, ⟨q, hq⟩⟩
  · rintro ⟨s₁, s₂, ⟨p, hp⟩, he, ⟨q, hq⟩⟩
    exact ⟨p, s₁, hp, e, s₂, he, q, s', hq, rfl, rfl⟩

/-- If the token behind it comes at once, there is no expression. -/
theorem optionalExpression_eq_none {stop : Token} :
    optionalExpression stop s = .ok none s' ↔ Reads [bare stop] s s' := by
  simp only [optionalExpression, run_bind]
  constructor
  · rintro ⟨b, s₁, hb, h⟩
    cases b with
    | true =>
      obtain ⟨-, rfl⟩ := run_pure.mp h
      exact accept_eq_true.mp hb
    | false =>
      simp only [Bool.false_eq_true, if_false, run_bind, run_pure] at h
      obtain ⟨_, _, _, _, _, _, ⟨⟩, _⟩ := h
  · intro h
    exact ⟨true, s', accept_eq_true.mpr h, run_pure.mpr ⟨rfl, rfl⟩⟩

/-- If it does not, there is one. -/
theorem optionalExpression_eq_some {stop : Token} {e : Expr} :
    optionalExpression stop s = .ok (some e) s' ↔
      s.peek? ≠ some stop ∧ ∃ s₁, expression s = .ok e s₁ ∧ Reads [bare stop] s₁ s' := by
  simp only [optionalExpression, run_bind]
  constructor
  · rintro ⟨b, s₁, hb, h⟩
    cases b with
    | true =>
      obtain ⟨⟨⟩, -⟩ := run_pure.mp h
    | false =>
      obtain ⟨hpeek, rfl⟩ := accept_eq_false.mp hb
      simp only [Bool.false_eq_true, if_false, run_bind, run_pure, Option.some.injEq] at h
      obtain ⟨x, s₂, hx, p, s₃, hp, rfl, rfl⟩ := h
      exact ⟨hpeek, s₂, hx, exists_expect_eq_ok.mp ⟨p, hp⟩⟩
  · rintro ⟨hpeek, s₁, he, hstop⟩
    obtain ⟨p, hp⟩ := exists_expect_eq_ok.mpr hstop
    refine ⟨false, s, accept_eq_false.mpr ⟨hpeek, rfl⟩, ?_⟩
    simp only [Bool.false_eq_true, if_false, run_bind, run_pure]
    exact ⟨e, s₁, he, p, s', hp, rfl, rfl⟩

end Surface

end MiniC
