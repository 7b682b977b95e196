import MiniC.Proofs.Surface.Concatenation

/-!
# Texts that break off

If the tokens of a program are cut short, the parser finds a shorter program or says that the input
has ended; it never blames a token.

The readers are compared on `a ++ c` and on `a` alone, `c` being what is cut off. As long as both
see the same next token they do the same. At the cut a reader that needs a token reports the end of
the input. A reader that only looks whether some token comes next finds none there and goes on; it
may give another value than on the whole text, but from then on nothing is left, so whoever needs a
token reports the end of the input (`AtEnd`).

There is one place where a value could still be blamed: what follows `++` or `--` has to be a
variable. If it is one on the whole text then it is a name before a token that does not belong to
it, and so it is one at the cut as well.
-/

namespace MiniC

namespace Parser

open EStateM (Result)

variable {α β : Type} {early late : Prop} {a b c : List (Located Token)} {stop : Pos}

/-! ## Reading up to the cut -/

/-- How a reader may end without any token: a token is missing or, if `content` holds, nothing is
read. -/
inductive EndResult (content : Prop) (stop : Pos) :
    Result ParseError TokenStream α → Prop where
  | missing {s : TokenStream} : EndResult content stop (.error ⟨.endOfInput, stop⟩ s)
  | content {x : α} : content → EndResult content stop (.ok x ⟨[], stop⟩)

/-- The reader ends like that. -/
def AtEnd (content : Prop) (p : Parser α) : Prop := ∀ stop, EndResult content stop (p ⟨[], stop⟩)

/-- How a reader of `a ++ c` ends, and how a reader of `a` does. -/
inductive CutResult (early : Prop) (a c : List (Located Token)) (stop : Pos) :
    Result ParseError TokenStream α → Result ParseError TokenStream α → Prop where
  /-- Only what is read on the whole text matters. -/
  | failed {e : ParseError} {s : TokenStream} {r : Result ParseError TokenStream α} :
      CutResult early a c stop (.error e s) r
  /-- The cut has not been reached. -/
  | same {x : α} {b : List (Located Token)} {stop' : Pos} : b.length ≤ a.length →
      CutResult early a c stop (.ok x ⟨b ++ c, stop'⟩) (.ok x ⟨b, stop⟩)
  | ended {x : α} {s : TokenStream} {r : Result ParseError TokenStream α} :
      EndResult early stop r → CutResult early a c stop (.ok x s) r

/-- The readers `p` of `a ++ c` and `q` of `a` end like that. -/
def Cut (early : Prop) (a c : List (Located Token)) (p q : Parser α) : Prop :=
  ∀ stop' stop, CutResult early a c stop (p ⟨a ++ c, stop'⟩) (q ⟨a, stop⟩)

/-- What may happen at the end of the tokens may happen at a cut. -/
theorem EndResult.cut {r r' : Result ParseError TokenStream α} (h : EndResult early stop r') :
    CutResult early a c stop r r' := by
  cases r with
  | ok x s => exact .ended h
  | error e s => exact .failed

theorem AtEnd.cut {p q : Parser α} (h : AtEnd early q) : Cut early [] c p q :=
  fun _ stop => (h stop).cut

/-- A reader that starts further on may say what it says to one that starts here. -/
theorem CutResult.of_le {r r' : Result ParseError TokenStream α}
    (h : CutResult early b c stop r r') (hle : b.length ≤ a.length) :
    CutResult early a c stop r r' := by
  cases h with
  | failed => exact .failed
  | same hb => exact .same (Nat.le_trans hb hle)
  | ended h => exact .ended h

/-! ## Sequencing -/

section Sequencing

variable {p q : Parser α} {f g : α → Parser β} {x : α}

/-- A failure ends a sequence. -/
theorem run_bind_of_error {s s' : TokenStream} {e : ParseError} (h : p s = .error e s') :
    (p >>= f) s = .error e s' := by
  change EStateM.bind p f s = _
  rw [EStateM.bind, h]

theorem atEnd_pure : AtEnd True (pure x) := fun _ => .content trivial

theorem atEnd_missing : AtEnd early (missing : Parser α) := fun _ => .missing

/-- The second reader of a sequence matters only if the first one can do with nothing. -/
theorem AtEnd.bind (hp : AtEnd early p) (hf : early → ∀ x, AtEnd late (f x)) :
    AtEnd late (p >>= f) := by
  intro stop
  change EndResult late stop (EStateM.bind p f ⟨[], stop⟩)
  have hresult := hp stop
  unfold EStateM.bind
  generalize p ⟨[], stop⟩ = r at hresult ⊢
  cases hresult with
  | missing => exact .missing
  | content h => exact hf h _ stop

theorem cut_pure : Cut early a c (pure x) (pure x) := fun _ _ => .same (Nat.le_refl _)

/-- Where the whole text is refused, nothing is asked of the part. -/
theorem cut_throw {e : ParseError} : Cut early a c (throw e : Parser α) q := fun _ _ => .failed

theorem cut_missing : Cut early a c (missing : Parser α) q := fun _ _ => .failed

/-- The second parts are compared where the first ones have not reached the cut; if they can have
reached it, the second part has to end well there. -/
theorem Cut.bind_of_run (hp : Cut early a c p q)
    (hf : ∀ x b, b.length ≤ a.length →
      (∃ stop stop', p ⟨a ++ c, stop⟩ = .ok x ⟨b ++ c, stop'⟩) → Cut late b c (f x) (g x))
    (hend : early → ∀ x, AtEnd late (g x)) : Cut late a c (p >>= f) (q >>= g) := by
  intro stop' stop
  change CutResult late a c stop (EStateM.bind p f _) (EStateM.bind q g _)
  have hresult := hp stop' stop
  unfold EStateM.bind
  generalize hr : p ⟨a ++ c, stop'⟩ = r at hresult ⊢
  generalize q ⟨a, stop⟩ = r' at hresult ⊢
  cases hresult with
  | failed => exact .failed
  | same hb => exact (hf _ _ hb ⟨_, _, hr⟩ _ _).of_le hb
  | ended h =>
    refine EndResult.cut ?_
    cases h with
    | missing => exact .missing
    | content h => exact hend h _ stop

/-- The second reader starts where the first one has stopped: somewhere before the cut, or at it. -/
theorem Cut.bind (hp : Cut early a c p q)
    (hf : ∀ x b, b.length ≤ a.length → Cut late b c (f x) (g x))
    (hend : early → ∀ x, AtEnd late (g x)) : Cut late a c (p >>= f) (q >>= g) :=
  hp.bind_of_run (fun x b hb _ => hf x b hb) hend

/-- A result that is only handed on. -/
theorem Cut.bind_pure {f : α → β} (hp : Cut early a c p q) (hlate : early → late) :
    Cut late a c (do let x ← p; pure (f x)) (do let x ← q; pure (f x)) :=
  hp.bind (fun _ _ _ => cut_pure) fun h _ _ => .content (hlate h)

theorem Cut.map {f : α → β} (hp : Cut early a c p q) : Cut early a c (f <$> p) (f <$> q) := by
  rw [map_eq_pure_bind, map_eq_pure_bind]
  exact hp.bind_pure id

end Sequencing

/-! ## Readers of one token -/

/-- The reader needs a token, and takes it without a look at what follows. -/
structure TakesOne (p : Parser α) : Prop where
  nil : AtEnd False p
  cons : ∀ t, (∃ x, ∀ rest stop, p ⟨t :: rest, stop⟩ = .ok x ⟨rest, stop⟩) ∨
    ∃ e, ∀ rest stop, p ⟨t :: rest, stop⟩ = .error e ⟨rest, stop⟩

/-- The reader looks at the next token and takes it, or gives `no` and leaves it. -/
structure LooksAhead (p : Parser α) (no : α) : Prop where
  nil : ∀ stop, p ⟨[], stop⟩ = .ok no ⟨[], stop⟩
  cons : ∀ t, (∃ x, x ≠ no ∧ ∀ rest stop, p ⟨t :: rest, stop⟩ = .ok x ⟨rest, stop⟩) ∨
    ∀ rest stop, p ⟨t :: rest, stop⟩ = .ok no ⟨t :: rest, stop⟩

section OneToken

variable {p : Parser α} {no : α} {f g : α → Parser β}

/-- Without a token, a reader of one token misses it, whatever comes next. -/
theorem TakesOne.atEnd (hp : TakesOne p) : AtEnd late (p >>= f) := hp.nil.bind False.elim

/-- After a reader of one token there are fewer tokens before the cut. -/
theorem TakesOne.cut_bind (hp : TakesOne p)
    (hf : ∀ x b, b.length < a.length → Cut late b c (f x) (g x)) :
    Cut late a c (p >>= f) (p >>= g) := by
  cases a with
  | nil => exact hp.atEnd.cut
  | cons t b =>
    intro stop' stop
    rcases hp.cons t with ⟨x, hx⟩ | ⟨e, he⟩
    · rw [List.cons_append, run_bind_of_ok (hx _ _), run_bind_of_ok (hx _ _)]
      have hlt : b.length < (t :: b).length := Nat.lt_succ_self _
      exact (hf x b hlt stop' stop).of_le (Nat.le_of_lt hlt)
    · rw [List.cons_append, run_bind_of_error (he _ _)]
      exact .failed

theorem LooksAhead.atEnd (hp : LooksAhead p no) (h : AtEnd late (f no)) :
    AtEnd late (p >>= f) := by
  intro stop
  rw [run_bind_of_ok (hp.nil stop)]
  exact h stop

/-- A reader that looks ahead either takes a token before the cut, or leaves all as it is. -/
theorem LooksAhead.cut_bind (hp : LooksAhead p no)
    (htake : ∀ x b, x ≠ no → b.length < a.length → Cut late b c (f x) (g x))
    (hleave : Cut late a c (f no) (g no)) (hend : AtEnd late (g no)) :
    Cut late a c (p >>= f) (p >>= g) := by
  cases a with
  | nil => exact (hp.atEnd hend).cut
  | cons t b =>
    intro stop' stop
    rcases hp.cons t with ⟨x, hne, hx⟩ | hno
    · rw [List.cons_append, run_bind_of_ok (hx _ _), run_bind_of_ok (hx _ _)]
      have hlt : b.length < (t :: b).length := Nat.lt_succ_self _
      exact (htake x b hne hlt stop' stop).of_le (Nat.le_of_lt hlt)
    · rw [List.cons_append, run_bind_of_ok (hno _ _), run_bind_of_ok (hno _ _)]
      exact hleave stop' stop

/-- A token is taken first, and then all depends on it alone. -/
theorem takesOne_any_bind {f : Located Token → Parser α}
    (h : ∀ t, (∃ x, f t = pure x) ∨ ∃ e, f t = throw e) : TakesOne (any >>= f) where
  nil _ := .missing
  cons t := by
    rcases h t with ⟨x, hx⟩ | ⟨e, he⟩
    · refine .inl ⟨x, fun rest stop => ?_⟩
      rw [run_bind_of_ok (show any ⟨t :: rest, stop⟩ = .ok t ⟨rest, stop⟩ from rfl), hx]
      rfl
    · refine .inr ⟨e, fun rest stop => ?_⟩
      rw [run_bind_of_ok (show any ⟨t :: rest, stop⟩ = .ok t ⟨rest, stop⟩ from rfl), he]
      rfl

theorem takesOne_any : TakesOne any where
  nil _ := .missing
  cons t := .inl ⟨t, fun _ _ => rfl⟩

theorem takesOne_expect (t : Token) : TakesOne (expect t) := by
  refine takesOne_any_bind fun u => ?_
  split
  · exact .inl ⟨_, rfl⟩
  · exact .inr ⟨_, rfl⟩

theorem takesOne_identifier : TakesOne identifier := by
  refine takesOne_any_bind fun u => ?_
  cases u.value with
  | ident x => exact .inl ⟨_, rfl⟩
  | _ => exact .inr ⟨_, rfl⟩

theorem takesOne_typeName : TakesOne typeName := by
  refine takesOne_any_bind fun u => ?_
  cases u.value with
  | type ty => exact .inl ⟨_, rfl⟩
  | _ => exact .inr ⟨_, rfl⟩

theorem looksAhead_nextIf (p : Token → Bool) : LooksAhead (nextIf p) none where
  nil _ := rfl
  cons t := by
    by_cases hp : p t.value = true
    · exact .inl ⟨some t, Option.some_ne_none _, fun _ _ => by simp [nextIf, hp]⟩
    · exact .inr fun _ _ => by simp [nextIf, hp]

/-- At the end of the tokens there is nothing to accept. -/
theorem looksAhead_accept (t : Token) : LooksAhead (accept t) false where
  nil _ := rfl
  cons u := by
    rcases (looksAhead_nextIf (· = t)).cons u with ⟨x, hne, hx⟩ | hno
    · refine .inl ⟨true, by decide, fun rest stop => ?_⟩
      rw [accept, run_bind_of_ok (hx rest stop), Option.isSome_iff_ne_none.mpr hne]
      rfl
    · refine .inr fun rest stop => ?_
      rw [accept, run_bind_of_ok (hno rest stop)]
      rfl

/-- What has to be followed by a token may end at the cut. -/
theorem Cut.bind_expect {p q : Parser α} {f : α → β} {t : Token} (hp : Cut early a c p q) :
    Cut late a c (do let x ← p; let _ ← expect t; pure (f x))
      (do let x ← q; let _ ← expect t; pure (f x)) :=
  hp.bind (fun _ _ _ => (takesOne_expect t).cut_bind fun _ _ _ => cut_pure)
    fun _ _ => (takesOne_expect t).atEnd

theorem cut_accept_bind {t : Token} {f g : Bool → Parser β}
    (htake : ∀ b, b.length < a.length → Cut late b c (f true) (g true))
    (hleave : Cut late a c (f false) (g false)) (hend : AtEnd late (g false)) :
    Cut late a c (accept t >>= f) (accept t >>= g) := by
  refine (looksAhead_accept t).cut_bind (fun taken b hne hb => ?_) hleave hend
  rw [Bool.ne_false_iff.mp hne]
  exact htake b hb

theorem atEnd_peek : AtEnd False peek := fun _ => .missing

/-- Looking at a token that is needed. -/
theorem cut_peek_bind {f g : Token → Parser β} (hf : ∀ t, Cut late a c (f t) (g t)) :
    Cut late a c (peek >>= f) (peek >>= g) := by
  cases a with
  | nil => exact AtEnd.cut (atEnd_peek.bind False.elim)
  | cons t b => exact fun stop' stop => hf t.value stop' stop

end OneToken

end Parser

namespace Surface

open MiniC.Parser

variable {early late : Prop} {a c : List (Located Token)} {k m least : Nat} {e : Expr}

section Fuel

variable {α : Type} {p q : Nat → Parser α}

theorem atEnd_bounded (h : AtEnd early (q 1)) : AtEnd early (bounded q) := h

/-- The fuel for the whole text and the fuel for the part are both enough. -/
theorem cut_bounded (h : Cut early a c (p (2 * (a.length + c.length) + 1)) (q (2 * a.length + 1))) :
    Cut early a c (bounded p) (bounded q) := by
  intro stop' stop
  rw [bounded, bounded, List.length_append]
  exact h stop' stop

end Fuel

/-! ## Lists in parentheses -/

section Items

variable {α : Type} {item item' : Parser α}

/-- A list must be closed, so it cannot end with the tokens. -/
theorem atEnd_commaList (h : AtEnd False item') : AtEnd False (commaList item' m) := by
  cases m with
  | zero => exact atEnd_missing
  | succ m => exact h.bind False.elim

/-- The list goes on behind each comma, with fewer tokens before the cut. -/
theorem cut_commaList (hitem : ∀ b, b.length ≤ a.length → Cut early b c item item')
    (hk : a.length + c.length < k) (hm : a.length < m) :
    Cut False a c (commaList item k) (commaList item' m) := by
  induction k generalizing a m with
  | zero => omega
  | succ k ih =>
    obtain ⟨m, rfl⟩ := Nat.exists_eq_succ_of_ne_zero (Nat.ne_zero_of_lt hm)
    refine (hitem a (Nat.le_refl _)).bind (fun x b hb => ?_) fun _ _ => takesOne_any.atEnd
    refine takesOne_any.cut_bind fun t b' hb' => ?_
    cases t.value with
    | comma =>
      have hrest : Cut False b' c (commaList item k) (commaList item' m) :=
        ih (fun b'' hb'' => hitem b'' (by omega)) (by omega) (by omega)
      exact hrest.bind_pure False.elim
    | closeParen => exact cut_pure
    | _ => exact cut_throw

theorem cut_items (hitem : ∀ b, b.length ≤ a.length → Cut early b c item item')
    (hend : AtEnd False item') : Cut False a c (items item) (items item') := by
  refine cut_accept_bind (fun _ _ => cut_pure) ?_ ?_
  · exact cut_bounded (cut_commaList hitem (by omega) (by omega))
  · exact atEnd_bounded (atEnd_commaList hend)

end Items

/-! ## Expressions -/

/-- At the end of the tokens there is no operator. -/
theorem looksAhead_operator (least : Nat) : LooksAhead (operator? least) none where
  nil _ := rfl
  cons t := by
    cases hop : t.value.binaryOp? with
    | none => exact .inr fun _ _ => by simp [operator?, hop]
    | some op =>
      by_cases hle : least ≤ op.precedence
      · refine .inl ⟨some ⟨op, t.pos⟩, Option.some_ne_none _, fun _ _ => ?_⟩
        simp [operator?, hop, hle]
      · exact .inr fun _ _ => by simp [operator?, hop, hle]

theorem atEnd_factor : AtEnd False (factor m) := by
  cases m with
  | zero => exact atEnd_missing
  | succ m => exact takesOne_any.atEnd

theorem atEnd_expr : AtEnd False (expr m least) := by
  cases m with
  | zero => exact atEnd_missing
  | succ m => exact atEnd_factor.bind False.elim

/-- An expression that could go on with an operator may also end. -/
theorem atEnd_climb : AtEnd True (climb m least e) := by
  cases m with
  | zero => exact atEnd_pure
  | succ m => exact (looksAhead_operator least).atEnd atEnd_pure

theorem atEnd_stepBehind : AtEnd True (stepBehind e) := (looksAhead_nextIf _).atEnd atEnd_pure

/-- A step behind a variable may be cut off, and then the variable alone is read. -/
theorem cut_stepBehind : Cut True a c (stepBehind e) (stepBehind e) := by
  refine (looksAhead_nextIf _).cut_bind (fun u b hne _ => ?_) cut_pure atEnd_pure
  obtain ⟨t, rfl⟩ := Option.ne_none_iff_exists'.mp hne
  cases e.target? with
  | none => exact cut_throw
  | some x => exact cut_pure

/-- A factor that is a variable is a name before a token that does not belong to it. -/
theorem factor_eq_var {s s' : TokenStream} {x : Name} (h : factor k s = .ok (.var x) s') :
    Reads [nameMark x] s s' ∧ Ends s' := by
  cases k with
  | zero => exact absurd h run_missing
  | succ k =>
    simp only [factor, run_bind] at h
    obtain ⟨⟨value, pos⟩, s₁, ht, e, s₂, he, h⟩ := h
    have ht := any_eq_ok.mp ht
    rcases stepBehind_eq_ok.mp h with ⟨hi, hd, rfl, rfl⟩ | ⟨_, _, _, _, ⟨⟩, _⟩
    cases value with
    | ident y =>
      simp only [atom, run_bind] at he
      obtain ⟨opened, s₃, hopened, he⟩ := he
      cases opened with
      | true =>
        simp only [if_true, run_bind, run_pure] at he
        obtain ⟨_, _, _, ⟨⟩, _⟩ := he
      | false =>
        obtain ⟨hp, rfl⟩ := accept_eq_false.mp hopened
        simp only [Bool.false_eq_true, if_false, run_pure, Expr.var.injEq] at he
        obtain ⟨rfl, rfl⟩ := he
        exact ⟨ht, hp, hi, hd⟩
    | const v =>
      obtain ⟨⟨⟩, _⟩ := run_pure.mp he
    | increment | decrement | minus =>
      simp only [atom, run_bind, run_pure] at he
      obtain ⟨_, _, _, ⟨⟩, _⟩ := he
    | openParen =>
      simp only [atom, run_bind, run_pure] at he
      obtain ⟨_, _, _, _, _, _, ⟨⟩, _⟩ := he
    | _ => exact absurd he run_throw

/-- Where the text is cut, nothing comes next. -/
theorem ends_of_append {stop stop' : Pos} (h : Ends ⟨a ++ c, stop'⟩) : Ends ⟨a, stop⟩ := by
  cases a with
  | nil => exact ⟨nofun, nofun, nofun⟩
  | cons t a => exact ⟨h.openParen, h.increment, h.decrement⟩

/-- What a step stands before cannot be missing. -/
theorem atEnd_stepTarget : AtEnd False (stepTarget (factor m)) :=
  fun stop => atEnd_factor.bind False.elim stop

theorem cut_stepTarget (hm : 2 * a.length ≤ m) :
    Cut False a c (stepTarget (factor k)) (stepTarget (factor m)) := by
  cases a with
  | nil => exact atEnd_stepTarget.cut
  | cons t b =>
    intro stop' stop
    cases hrun : stepTarget (factor k) ⟨t :: b ++ c, stop'⟩ with
    | error e s => exact .failed
    | ok x s =>
      -- `x` is read by completeness, since `Cut` says too little: a reader that ends at the cut
      -- may give anything, and here anything but a variable would be blamed
      obtain ⟨hreads, hends⟩ := factor_eq_var (stepTarget_eq_ok.mp hrun)
      obtain ⟨rest, stop''⟩ := s
      have heq := reads_placed.mp hreads
      simp only [List.cons_append, TokenStream.mk.injEq, List.cons.injEq] at heq
      obtain ⟨⟨rfl, rfl⟩, rfl⟩ := heq
      have hname : Reads (Expr.var x).marks ⟨⟨.ident x.value, x.pos⟩ :: b, stop⟩ ⟨b, stop⟩ :=
        reads_placed.mpr rfl
      rw [stepTarget_eq_ok.mpr (var_complete x m _ _ hm hname (ends_of_append hends))]
      exact .same (Nat.le_succ _)

/-- How a factor goes on is decided by its first token, which is before the cut. -/
theorem cut_atom {factor factor' expr expr' : Parser Expr} (t : Located Token)
    (htarget : Cut False a c (stepTarget factor) (stepTarget factor'))
    (hfactor : Cut True a c factor factor')
    (hexpr : ∀ b, b.length ≤ a.length → Cut True b c expr expr') (hend : AtEnd False expr') :
    Cut True a c (atom factor expr t) (atom factor' expr' t) := by
  obtain ⟨value, pos⟩ := t
  cases value with
  | increment => exact htarget.bind_pure False.elim
  | decrement => exact htarget.bind_pure False.elim
  | const v => exact cut_pure
  | minus => exact hfactor.bind_pure id
  | openParen => exact (hexpr a (Nat.le_refl _)).bind_expect
  | ident x =>
    refine cut_accept_bind (fun b hb => ?_) cut_pure atEnd_pure
    have hargs : Cut False b c (items expr) (items expr') :=
      cut_items (fun b' hb' => hexpr b' (by omega)) hend
    exact hargs.bind_pure False.elim
  | _ => exact cut_throw

/-- All three readers at once, by induction on the fuel for the whole text. -/
theorem cut_expression_readers (k : Nat) :
    (∀ a m, 2 * (a.length + c.length) ≤ k → 2 * a.length ≤ m →
        Cut True a c (factor k) (factor m)) ∧
      (∀ a m least, 2 * (a.length + c.length) + 1 ≤ k → 2 * a.length + 1 ≤ m →
        Cut True a c (expr k least) (expr m least)) ∧
      ∀ a m least left, 2 * (a.length + c.length) ≤ k → 2 * a.length ≤ m →
        Cut True a c (climb k least left) (climb m least left) := by
  induction k with
  | zero =>
    refine ⟨fun a m hk hm => cut_missing, fun a m least hk hm => by omega, ?_⟩
    intro a m least left hk hm
    obtain rfl : a = [] := List.length_eq_zero_iff.mp (by omega)
    exact atEnd_climb.cut
  | succ k ih =>
    obtain ⟨hfactor, hexpr, hclimb⟩ := ih
    refine ⟨fun a m hk hm => ?_, fun a m least hk hm => ?_, fun a m least left hk hm => ?_⟩
    · cases m with
      | zero =>
        obtain rfl : a = [] := List.length_eq_zero_iff.mp (by omega)
        exact AtEnd.cut atEnd_missing
      | succ m =>
        refine takesOne_any.cut_bind fun t b hb => ?_
        have hatom := cut_atom t (cut_stepTarget (by omega)) (hfactor b m (by omega) (by omega))
          (fun b' hb' => hexpr b' m 0 (by omega) (by omega)) atEnd_expr
        exact hatom.bind (fun _ _ _ => cut_stepBehind) fun _ _ => atEnd_stepBehind
    · obtain ⟨m, rfl⟩ : ∃ n, m = n + 1 := ⟨m - 1, by omega⟩
      refine (hfactor a m (by omega) (by omega)).bind (fun left b hb => ?_) fun _ _ => atEnd_climb
      exact hclimb b m least left (by omega) (by omega)
    · cases m with
      | zero =>
        obtain rfl : a = [] := List.length_eq_zero_iff.mp (by omega)
        exact AtEnd.cut atEnd_climb
      | succ m =>
        refine (looksAhead_operator least).cut_bind (fun op? b hne hb => ?_) cut_pure atEnd_pure
        obtain ⟨op, rfl⟩ := Option.ne_none_iff_exists'.mp hne
        have hright : ∀ (least' : Nat) (node : Expr → Expr),
            Cut True b c (do let e ← expr k least'; climb k least (node e))
              (do let e ← expr m least'; climb m least (node e)) := fun least' node =>
          (hexpr b m least' (by omega) (by omega)).bind
            (fun e b' hb' => hclimb b' m least _ (by omega) (by omega)) fun _ _ => atEnd_climb
        by_cases hassign : op.value = .assign
        · simp only [hassign, if_true]
          cases left.target? with
          | none => exact cut_throw
          | some x => exact hright _ (Expr.assign x)
        · simp only [hassign, if_false]
          exact hright _ (Expr.binary op left)

theorem atEnd_expression : AtEnd False expression := atEnd_bounded atEnd_expr

/-- A whole expression, read with the fuel for all the tokens that are left. -/
theorem cut_expression : Cut True a c expression expression :=
  cut_bounded ((cut_expression_readers _).2.1 a _ 0 (Nat.le_refl _) (Nat.le_refl _))

/-! ## Statements -/

theorem cut_condition : Cut False a c condition condition :=
  (takesOne_expect _).cut_bind fun _ _ _ => cut_expression.bind_expect

theorem cut_optionalExpression {t : Token} :
    Cut False a c (optionalExpression t) (optionalExpression t) :=
  cut_accept_bind (fun _ _ => cut_pure) cut_expression.bind_expect
    (atEnd_expression.bind False.elim)

theorem atEnd_moreNames : AtEnd True (moreNames m) := by
  cases m with
  | zero => exact atEnd_pure
  | succ m => exact (looksAhead_accept _).atEnd atEnd_pure

/-- The names of a declaration may end at the cut, but not behind a comma. -/
theorem cut_moreNames (hk : a.length + c.length ≤ k) (hm : a.length ≤ m) :
    Cut True a c (moreNames k) (moreNames m) := by
  induction k generalizing a m with
  | zero =>
    obtain rfl : a = [] := List.length_eq_zero_iff.mp (by omega)
    exact atEnd_moreNames.cut
  | succ k ih =>
    cases m with
    | zero =>
      obtain rfl : a = [] := List.length_eq_zero_iff.mp (by omega)
      exact atEnd_moreNames.cut
    | succ m =>
      refine cut_accept_bind (fun b hb => ?_) cut_pure atEnd_pure
      refine takesOne_identifier.cut_bind fun x b' hb' => ?_
      have hrest : Cut True b' c (moreNames k) (moreNames m) := ih (by omega) (by omega)
      exact hrest.bind_pure id

/-- A declaration ends with a semicolon, so a cut in it is missed. -/
theorem cut_declaration : Cut late a c declaration declaration := by
  refine takesOne_typeName.cut_bind fun ty b _ => takesOne_identifier.cut_bind fun x b' _ => ?_
  refine cut_accept_bind (fun b'' _ => ?_) ?_ ?_
  · exact cut_expression.bind_expect
  · have hnames : Cut True b' c (bounded moreNames) (bounded moreNames) :=
      cut_bounded (cut_moreNames (by omega) (by omega))
    exact hnames.bind_expect
  · exact (atEnd_bounded atEnd_moreNames).bind fun _ _ => (takesOne_expect _).atEnd

/-- An `if` may lose its `else` at the cut, and is then another statement. -/
theorem cut_statementAt {statement statement' : Parser Stmt} {block block' : Parser (List Stmt)}
    (hstatement : ∀ b, b.length < a.length → Cut True b c statement statement')
    (hblock : Cut False a c block block') (t : Token) :
    Cut True a c (statementAt statement block t) (statementAt statement' block' t) := by
  cases t with
  | type ty => exact cut_declaration
  | kwReturn =>
    refine (takesOne_expect _).cut_bind fun _ _ _ => ?_
    exact cut_optionalExpression.bind_pure False.elim
  | openBrace => exact hblock.bind_pure False.elim
  | kwIf =>
    refine takesOne_any.cut_bind fun _ b hb => ?_
    refine cut_condition.bind (fun e b₁ hb₁ => ?_) False.elim
    refine (hstatement b₁ (by omega)).bind (fun thenBranch b₂ hb₂ => ?_)
      fun _ _ => (looksAhead_accept _).atEnd atEnd_pure
    refine cut_accept_bind (fun b₃ hb₃ => ?_) cut_pure atEnd_pure
    exact (hstatement b₃ (by omega)).bind_pure id
  | kwWhile =>
    refine takesOne_any.cut_bind fun _ b hb => ?_
    refine cut_condition.bind (fun e b₁ hb₁ => ?_) False.elim
    exact (hstatement b₁ (by omega)).bind_pure id
  | kwFor =>
    refine takesOne_any.cut_bind fun _ b hb => (takesOne_expect _).cut_bind fun _ b₁ hb₁ => ?_
    refine cut_optionalExpression.bind (fun start b₂ hb₂ => ?_) False.elim
    refine cut_optionalExpression.bind (fun e b₃ hb₃ => ?_) False.elim
    refine cut_optionalExpression.bind (fun step b₄ hb₄ => ?_) False.elim
    exact (hstatement b₄ (by omega)).bind_pure id
  | _ => exact cut_expression.bind_expect

/-- A block must be closed. -/
theorem atEnd_statements : AtEnd False (statements m) := by
  cases m with
  | zero => exact atEnd_missing
  | succ m => exact atEnd_peek.bind False.elim

/-- Every statement has a token. -/
theorem length_lt_of_statement {s s' : TokenStream} {st : Stmt} (h : statement k s = .ok st s') :
    s'.rest.length < s.rest.length := by
  obtain ⟨hreads, -⟩ := (statement_readers_sound k).1 s st s' h
  obtain ⟨mark, marks, hmarks, -⟩ := st.marks_start
  rw [hmarks] at hreads
  exact hreads.length_lt

/-- Statements and blocks, together by the tokens that are left: a block is closed by a token of its
own. -/
theorem cut_statement_readers (k : Nat) :
    (∀ a m, 2 * (a.length + c.length) ≤ k → 2 * a.length ≤ m →
        Cut True a c (statement k) (statement m)) ∧
      ∀ a m, 2 * (a.length + c.length) + 1 ≤ k → 2 * a.length + 1 ≤ m →
        Cut False a c (statements k) (statements m) := by
  induction k with
  | zero => exact ⟨fun a m hk hm => cut_missing, fun a m hk hm => by omega⟩
  | succ k ih =>
    obtain ⟨hstatement, hstatements⟩ := ih
    refine ⟨fun a m hk hm => ?_, fun a m hk hm => ?_⟩
    · cases m with
      | zero =>
        obtain rfl : a = [] := List.length_eq_zero_iff.mp (by omega)
        exact AtEnd.cut atEnd_missing
      | succ m =>
        refine cut_peek_bind (cut_statementAt (fun b hb => ?_) ?_)
        · exact hstatement b m (by omega) (by omega)
        · exact (takesOne_expect _).cut_bind fun _ b hb => hstatements b m (by omega) (by omega)
    · obtain ⟨m, rfl⟩ : ∃ n, m = n + 1 := ⟨m - 1, by omega⟩
      refine cut_peek_bind fun t => ?_
      by_cases hclose : t = .closeBrace
      · simp only [hclose, if_true]
        exact takesOne_any.cut_bind fun _ _ _ => cut_pure
      · simp only [hclose, if_false]
        refine (hstatement a m (by omega) (by omega)).bind_of_run (fun st b hb hrun => ?_)
          fun _ _ => atEnd_statements.bind False.elim
        -- the fuel for the statements behind is enough only because this one took a token
        obtain ⟨_, _, hrun⟩ := hrun
        have hlt := length_lt_of_statement hrun
        simp only [List.length_append] at hlt
        have hrest := hstatements b m (by omega) (by omega)
        exact hrest.bind_pure False.elim

/-! ## Functions and programs -/

theorem cut_block : Cut False a c block block := by
  refine (takesOne_expect _).cut_bind fun _ b _ => cut_bounded ?_
  exact (cut_statement_readers _).2 b _ (Nat.le_refl _) (Nat.le_refl _)

theorem cut_param : Cut False a c param param :=
  takesOne_typeName.cut_bind fun _ _ _ => takesOne_identifier.cut_bind fun _ _ _ => cut_pure

/-- A function ends with its body, so a cut in it is missed. -/
theorem cut_function : Cut False a c function function := by
  refine takesOne_typeName.cut_bind fun _ _ _ => takesOne_identifier.cut_bind fun _ _ _ => ?_
  refine (takesOne_expect _).cut_bind fun _ b _ => ?_
  have hparams : Cut False b c (items param) (items param) :=
    cut_items (fun _ _ => cut_param) takesOne_typeName.atEnd
  refine hparams.bind (fun _ _ _ => ?_) False.elim
  exact cut_block.bind_pure False.elim

/-- Between two functions a program may end. -/
theorem atEnd_functions : AtEnd True (functions m) := by
  intro stop
  rw [functions_nil]
  exact .content trivial

/-- Functions are read one by one, each with fewer tokens before the cut. -/
theorem cut_functions (hk : a.length + c.length ≤ k) (hm : a.length ≤ m) :
    Cut True a c (functions k) (functions m) := by
  induction k generalizing a m with
  | zero =>
    obtain rfl : a = [] := List.length_eq_zero_iff.mp (by omega)
    exact atEnd_functions.cut
  | succ k ih =>
    by_cases hne : a = []
    · rw [hne]
      exact atEnd_functions.cut
    · have hpos := List.length_pos_iff.mpr hne
      obtain ⟨m, rfl⟩ : ∃ n, m = n + 1 := ⟨m - 1, by omega⟩
      intro stop' stop
      rw [functions_of_nonempty (List.append_ne_nil_of_left_ne_nil hne c),
        functions_of_nonempty hne]
      refine Cut.bind_of_run cut_function (fun f b hb hrun => ?_) False.elim stop' stop
      obtain ⟨_, _, hrun⟩ := hrun
      have hlt := (function_sound hrun).1.length_lt
      simp only [List.length_append] at hlt
      exact (ih (by omega) (by omega)).map

/-- If a text and its beginning are programs, the beginning has the first functions. -/
theorem isPrefix_of_parse {ts us : List (Located Token)} {p q : Program}
    (h : parse (ts ++ us) = .ok p) (hts : parse ts = .ok q) : q <+: p := by
  by_cases hne : us = []
  · rw [hne, List.append_nil, hts] at h
    cases h
    exact List.prefix_refl _
  · obtain ⟨s', hrun⟩ := parse_ok_iff.mp h
    rw [bounded_functions_append hts hne] at hrun
    cases hus : bounded functions (TokenStream.ofTokens us) with
    | ok r s =>
      rw [run_map_of_ok hus] at hrun
      cases hrun
      exact List.prefix_append _ _
    | error e s =>
      rw [run_map_of_error hus] at hrun
      cases hrun

/-- The tokens of a program, cut short anywhere, are those of its first functions, or they end too
early: the error says so, and is at the last token that is there. -/
theorem parse_truncated {ts ts' : List (Located Token)} {p : Program} (h : parse ts = .ok p)
    (hcut : ts' <+: ts) :
    (∃ p', parse ts' = .ok p' ∧ p' <+: p) ∨
      ∃ t, ts'.getLast? = some t ∧ parse ts' = .error ⟨.endOfInput, t.pos⟩ := by
  obtain ⟨c, rfl⟩ := hcut
  obtain ⟨s', hrun⟩ := parse_ok_iff.mp h
  cases hlast : ts'.getLast? with
  | none =>
    obtain rfl := List.getLast?_eq_none_iff.mp hlast
    exact .inl ⟨[], rfl, List.nil_prefix⟩
  | some t =>
    have hstream : TokenStream.ofTokens ts' = ⟨ts', t.pos⟩ := by
      rw [TokenStream.ofTokens, hlast, Option.map_some, Option.getD_some]
    have hresult : Parser.CutResult True ts' c t.pos
        (bounded functions (TokenStream.ofTokens (ts' ++ c))) (bounded functions ⟨ts', t.pos⟩) :=
      cut_bounded (cut_functions (by omega) (by omega)) _ _
    cases hcut : bounded functions ⟨ts', t.pos⟩ with
    | ok q s =>
      have hq : parse ts' = .ok q := by rw [parse_eq, hstream, hcut]
      exact .inl ⟨q, hq, isPrefix_of_parse h hq⟩
    | error e s =>
      rw [hrun, hcut] at hresult
      cases hresult with
      | ended hend =>
        cases hend with
        | missing => exact .inr ⟨t, rfl, by rw [parse_eq, hstream, hcut]⟩

/-- `void f() { ++x; }` -/
def countUp : List (Located Token) := inOneLine [
  .type .void, .ident "f", .openParen, .closeParen, .openBrace, .increment, .ident "x",
  .semicolon, .closeBrace]

def countUpTree : Program :=
  [⟨.void, ⟨"f", ⟨1, 2⟩⟩, [], [.expr (.step .preIncrement ⟨"x", ⟨1, 7⟩⟩)]⟩]

/-- Cut behind `++x`, where the name could have been that of a function. -/
theorem parse_truncated_countUp :
    parse countUp = .ok countUpTree ∧ countUp.take 7 <+: countUp ∧
      ((∃ p', parse (countUp.take 7) = .ok p' ∧ p' <+: countUpTree) ∨
        ∃ t, (countUp.take 7).getLast? = some t ∧
          parse (countUp.take 7) = .error ⟨.endOfInput, t.pos⟩) ∧
      parse (countUp.take 7) = .error ⟨.endOfInput, ⟨1, 7⟩⟩ := by
  have h : parse countUp = .ok countUpTree := by cbv
  have hcut : countUp.take 7 <+: countUp := List.take_prefix 7 countUp
  exact ⟨h, hcut, parse_truncated h hcut, by cbv⟩

end Surface

end MiniC
