import MiniC.Core.Elaboration
import MiniC.Proofs.Surface.Concatenation
import MiniC.Proofs.Surface.Contexts
import MiniC.Proofs.Token.LexerSound

/-!
# The position of an expression

Diagnostics name an expression by a position, which the tree does not always store: parentheses and
the steps in front of variables leave no position behind. So the position of an expression is not
that of its first token. It is that of the first token which is neither an opening parenthesis nor
a step, whichever way the parser came to build the expression.
-/

namespace MiniC

/-- An opening parenthesis or a step. In front of an expression they leave no position in its
tree. -/
def Token.isPassed : Token → Bool
  | .openParen | .increment | .decrement => true
  | _ => false

/-- The tokens that were read. -/
theorem Reads.run {ms : List Surface.Mark} {s s' : TokenStream} (h : Reads ms s s') :
    ∃ run, s.rest = run ++ s'.rest ∧ Surface.Spells ms run := by
  induction h with
  | nil => exact ⟨[], rfl, .nil⟩
  | @cons m ms t rest stop s' hm _ ih =>
    obtain ⟨run, hrun, hspells⟩ := ih
    exact ⟨t :: run, congrArg (t :: ·) hrun, .cons hm hspells⟩

namespace Surface

open MiniC.Parser

/-- The position of the first token that is not passed over. -/
def leadingPos? (ts : List (Located Token)) : Option Pos :=
  (ts.find? fun t => !t.value.isPassed).map Located.pos

/-! ## What a tree spells first -/

theorem Expr.find?_marks : ∀ e : Expr,
    ∃ t, (e.marks.find? fun m => !m.token.isPassed) = some (placed t e.pos)
  | .const c => ⟨.const c.value, rfl⟩
  | .var x => ⟨.ident x.value, rfl⟩
  | .assign x _ => ⟨.ident x.value, rfl⟩
  | .call f _ => ⟨.ident f.value, rfl⟩
  | .binary op left right => by
    obtain ⟨t, ht⟩ := left.find?_marks
    refine ⟨t, ?_⟩
    rw [Expr.marks, List.find?_append, ht]
    rfl
  | .step s x => ⟨.ident x.value, by cases s <;> rfl⟩
  | .negate pos _ => ⟨.minus, rfl⟩
  | .paren e => by
    obtain ⟨t, ht⟩ := e.find?_marks
    refine ⟨t, ?_⟩
    rw [Expr.marks, List.find?_cons_of_neg (by decide), List.find?_append, ht]
    rfl

theorem leadingPos?_of_spells {ms : List Mark} {ts : List (Located Token)} {t : Token} {pos : Pos}
    (h : Spells ms ts) (hfind : (ms.find? fun m => !m.token.isPassed) = some (placed t pos)) :
    leadingPos? ts = some pos := by
  unfold leadingPos?
  induction h with
  | nil => cases hfind
  | @cons m u ms ts hm _ ih =>
    cases hpassed : m.token.isPassed with
    | true =>
      rw [List.find?_cons_of_neg (by simp [hpassed])] at hfind
      rw [List.find?_cons_of_neg (by simp [hm.1, hpassed])]
      exact ih hfind
    | false =>
      rw [List.find?_cons_of_pos (by simp [hpassed])] at hfind
      rw [List.find?_cons_of_pos (by simp [hm.1, hpassed])]
      obtain rfl : m = placed t pos := Option.some.inj hfind
      exact congrArg some (hm.2 pos rfl)

/-- The tokens of an expression lead to its position. -/
theorem Expr.leadingPos?_of_spells {e : Expr} {run : List (Located Token)}
    (h : Spells e.marks run) : leadingPos? run = some e.pos := by
  obtain ⟨t, ht⟩ := e.find?_marks
  exact Surface.leadingPos?_of_spells h ht

/-! ## What the parser builds -/

/-- At some point the parser has built the expression from the tokens between the two streams: one
of its readers gives it, or it is an atom behind which a step may follow, or it stands on the left
while operators are read. -/
inductive Builds : TokenStream → Expr → TokenStream → Prop where
  | factor {fuel : Nat} {s s' : TokenStream} {e : Expr} :
      factor fuel s = .ok e s' → Builds s e s'
  | expr {fuel least : Nat} {s s' : TokenStream} {e : Expr} :
      expr fuel least s = .ok e s' → Builds s e s'
  | atom {fuel : Nat} {s s₁ s' : TokenStream} {t : Located Token} {e : Expr} :
      any s = .ok t s₁ → atom (Surface.factor fuel) (Surface.expr fuel 0) t s₁ = .ok e s' →
      Builds s e s'
  | assign {fuel least least' : Nat} {s s₁ s₂ s' : TokenStream} {x : Name} {e : Expr}
      {op : Located BinaryOp} : Builds s (.var x) s₁ → operator? least s₁ = .ok (some op) s₂ →
      op.value = .assign → Surface.expr fuel least' s₂ = .ok e s' → Builds s (.assign x e) s'
  | binary {fuel least least' : Nat} {s s₁ s₂ s' : TokenStream} {left right : Expr}
      {op : Located BinaryOp} : Builds s left s₁ → operator? least s₁ = .ok (some op) s₂ →
      op.value ≠ .assign → Surface.expr fuel least' s₂ = .ok right s' →
      Builds s (.binary op left right) s'

/-- The reader takes off the stream what the tree spells that it gives. -/
def ReadsMarks (p : Parser Expr) : Prop := ∀ s e s', p s = .ok e s' → Reads e.marks s s'

section Readers

variable {s₀ s s' : TokenStream} {e left : Expr}

theorem atom_reads {factor expr : Parser Expr} {t : Located Token} (hfactor : ReadsMarks factor)
    (hexpr : ReadsMarks expr) (ht : Reads [placed t.value t.pos] s₀ s)
    (h : atom factor expr t s = .ok e s') : Reads e.marks s₀ s' := by
  obtain ⟨value, pos⟩ := t
  have hbare := reads_bare.mpr ⟨pos, ht⟩
  cases value with
  | increment | decrement =>
    simp only [atom, run_bind, run_pure, stepTarget_eq_ok] at h
    obtain ⟨x, s₁, hx, rfl, rfl⟩ := h
    exact hbare.andThen (hfactor s _ s₁ hx)
  | const c =>
    obtain ⟨rfl, rfl⟩ := run_pure.mp h
    exact ht
  | minus =>
    simp only [atom, run_bind, run_pure] at h
    obtain ⟨e, s₁, he, rfl, rfl⟩ := h
    exact ht.andThen (hfactor s e s₁ he)
  | openParen =>
    simp only [atom, run_bind, run_pure] at h
    obtain ⟨e, s₁, he, p, s₂, hp, rfl, rfl⟩ := h
    exact hbare.andThen ((hexpr s e s₁ he).append (exists_expect_eq_ok.mp ⟨p, hp⟩))
  | ident x =>
    simp only [atom, run_bind] at h
    obtain ⟨opened, s₁, hopened, h⟩ := h
    cases opened with
    | true =>
      simp only [if_true, run_bind, run_pure] at h
      obtain ⟨args, s₂, hargs, rfl, rfl⟩ := h
      obtain ⟨hreads, -⟩ := items_sound Expr.marks (fun _ => True)
        (fun s e s' _ he => ⟨hexpr s e s' he, trivial⟩) (Nat.le_refl _) hargs
      rw [← argMarks_eq_map] at hreads
      exact ht.andThen ((accept_eq_true.mp hopened).andThen hreads)
    | false =>
      obtain ⟨-, rfl⟩ := accept_eq_false.mp hopened
      obtain ⟨rfl, rfl⟩ := run_pure.mp h
      exact ht
  | _ => exact absurd h run_throw

theorem stepBehind_reads {e' : Expr} (he : Reads e.marks s₀ s) (h : stepBehind e s = .ok e' s') :
    Reads e'.marks s₀ s' := by
  rcases stepBehind_eq_ok.mp h with ⟨-, -, rfl, rfl⟩ | ⟨x, st, rfl, hpost, rfl, hstep⟩
  · exact he
  · rw [Expr.marks, if_pos hpost]
    exact he.append hstep

/-- All three readers at once, by induction on their fuel, however little of it there is. -/
theorem readers_read (fuel : Nat) :
    ReadsMarks (factor fuel) ∧ (∀ least, ReadsMarks (expr fuel least)) ∧
      ∀ least left s₀ s e s', Reads left.marks s₀ s → climb fuel least left s = .ok e s' →
        Reads e.marks s₀ s' := by
  induction fuel with
  | zero =>
    refine ⟨fun s e s' h => absurd h run_missing, fun least s e s' h => absurd h run_missing, ?_⟩
    intro least left s₀ s e s' hleft h
    obtain ⟨rfl, rfl⟩ := run_pure.mp h
    exact hleft
  | succ fuel ih =>
    obtain ⟨hfactor, hexpr, hclimb⟩ := ih
    refine ⟨fun s e s' h => ?_, fun least s e s' h => ?_, fun least left s₀ s e s' hleft h => ?_⟩
    · simp only [factor, run_bind] at h
      obtain ⟨t, s₁, ht, a, s₂, ha, h⟩ := h
      exact stepBehind_reads (atom_reads hfactor (hexpr 0) (any_eq_ok.mp ht) ha) h
    · simp only [expr, run_bind] at h
      obtain ⟨left, s₁, hleft, h⟩ := h
      exact hclimb least left s s₁ e s' (hfactor s left s₁ hleft) h
    · simp only [climb, run_bind] at h
      obtain ⟨op?, s₁, hop, h⟩ := h
      cases op? with
      | none =>
        obtain ⟨-, rfl⟩ := operator?_eq_none.mp hop
        obtain ⟨rfl, rfl⟩ := run_pure.mp h
        exact hleft
      | some op =>
        obtain ⟨hop, -⟩ := operator?_eq_some.mp hop
        by_cases hassign : op.value = .assign
        · simp only [hassign, if_true] at h hop
          cases left with
          | var x =>
            simp only [Expr.target?, run_bind] at h
            obtain ⟨value, s₂, hvalue, h⟩ := h
            have hall : Reads (Expr.assign x value).marks s₀ s₂ :=
              hleft.andThen ((reads_bare.mpr ⟨_, hop⟩).andThen (hexpr _ s₁ value s₂ hvalue))
            exact hclimb least _ s₀ s₂ e s' hall h
          | _ => exact absurd h run_throw
        · simp only [hassign, if_false, run_bind] at h
          obtain ⟨right, s₂, hright, h⟩ := h
          have hall : Reads (Expr.binary op left right).marks s₀ s₂ :=
            hleft.append (hop.andThen (hexpr _ s₁ right s₂ hright))
          exact hclimb least _ s₀ s₂ e s' hall h

theorem Builds.reads (h : Builds s e s') : Reads e.marks s s' := by
  induction h with
  | @factor fuel s s' e h => exact (readers_read fuel).1 s e s' h
  | @expr fuel least s s' e h => exact (readers_read fuel).2.1 least s e s' h
  | @atom fuel s s₁ s' t e ht h =>
    exact atom_reads (readers_read fuel).1 ((readers_read fuel).2.1 0) (any_eq_ok.mp ht) h
  | @assign fuel least least' s s₁ s₂ s' x e op _ hop hassign h ih =>
    obtain ⟨hop, -⟩ := operator?_eq_some.mp hop
    rw [hassign] at hop
    exact ih.andThen ((reads_bare.mpr ⟨_, hop⟩).andThen ((readers_read fuel).2.1 _ _ _ _ h))
  | @binary fuel least least' s s₁ s₂ s' left right op _ hop _ h ih =>
    obtain ⟨hop, -⟩ := operator?_eq_some.mp hop
    exact ih.append (hop.andThen ((readers_read fuel).2.1 _ _ _ _ h))

end Readers

/-! ## Whole programs -/

/-- Of the tokens of a program, the run is what the expression in the open place spells; the tokens
around it are those of the context. -/
def ProgramContext.Covers (k : ProgramContext) (e : Expr) (ts run : List (Located Token)) : Prop :=
  ∃ before behind front back, (∀ x, programMarks (k.fill x) = before ++ (x.marks ++ behind)) ∧
    ts = front ++ (run ++ back) ∧ Spells before front ∧ Spells e.marks run ∧ Spells behind back

theorem ProgramContext.covers_of_parse {k : ProgramContext} {e : Expr} {ts : List (Located Token)}
    (h : parse ts = .ok (k.fill e)) : ∃ run, k.Covers e ts run := by
  obtain ⟨s', hrun⟩ := parse_ok_iff.mp h
  obtain ⟨hreads, -, hend⟩ := functions_sound _ (by omega) hrun
  obtain ⟨before, behind, hframes⟩ := k.frames
  have hmarks : programMarks (k.fill e) = before ++ (e.marks ++ behind) := hframes e
  rw [hmarks] at hreads
  obtain ⟨s₁, hbefore, hreads⟩ := reads_append.mp hreads
  obtain ⟨s₂, hmarks, hbehind⟩ := reads_append.mp hreads
  obtain ⟨front, hfront, hbefore⟩ := hbefore.run
  obtain ⟨run, hrun, hmarks⟩ := hmarks.run
  refine ⟨run, before, behind, front, s₂.rest, hframes, ?_, hbefore, hmarks, hbehind.spells hend⟩
  rw [← hrun, ← hfront]
  rfl

/-- Where all tokens stand at different places, the leading one is the first of all only if that is
not passed over. -/
theorem eq_first_pos_iff {first : Located Token} {rest : List (Located Token)} {pos : Pos}
    (h : leadingPos? (first :: rest) = some pos) (hrest : ∀ t ∈ rest, t.pos ≠ first.pos) :
    pos = first.pos ↔ first.value.isPassed = false := by
  unfold leadingPos? at h
  cases hpassed : first.value.isPassed with
  | true =>
    rw [List.find?_cons_of_neg (by simp [hpassed])] at h
    obtain ⟨t, ht, rfl⟩ := Option.map_eq_some_iff.mp h
    exact iff_of_false (hrest t (List.mem_of_find?_eq_some ht)) nofun
  | false =>
    rw [List.find?_cons_of_pos (by simp [hpassed])] at h
    exact iff_of_true (Option.some.inj h).symm rfl

/-- The position of an expression is that of the first token it was built from that is neither an
opening parenthesis nor a step: of every expression that the parser builds on its way, and of every
expression in a program that it gives. So in a source text it is the position of the very first
token exactly if that is none of these. -/
theorem expr_pos_leading (ts : List (Located Token)) (e : Expr) :
    (∀ s s', Builds s e s' → ∃ run, s.rest = run ++ s'.rest ∧ leadingPos? run = some e.pos) ∧
    ∀ k : ProgramContext, parse ts = .ok (k.fill e) →
      ∃ first rest, k.Covers e ts (first :: rest) ∧ leadingPos? (first :: rest) = some e.pos ∧
        ∀ source, tokenize source = .ok ts →
          (e.pos = first.pos ↔ first.value.isPassed = false) := by
  refine ⟨fun s s' h => ?_, fun k h => ?_⟩
  · obtain ⟨run, hrun, hspells⟩ := h.reads.run
    exact ⟨run, hrun, e.leadingPos?_of_spells hspells⟩
  · obtain ⟨run, hcovers⟩ := ProgramContext.covers_of_parse h
    obtain ⟨-, -, front, back, -, hts, -, hspells, -⟩ := id hcovers
    have hleading := e.leadingPos?_of_spells hspells
    cases run with
    | nil => cases hleading
    | cons first rest =>
      refine ⟨first, rest, hcovers, hleading, fun source hsource => ?_⟩
      have hsplits : Token.Splits [] (Byte.ofText source) ts := Token.tokensFrom_sound hsource rfl
      have hbefore := hsplits.pairwise_before
      rw [hts, List.cons_append, List.pairwise_append, List.pairwise_cons] at hbefore
      exact eq_first_pos_iff hleading fun t ht =>
        (hbefore.2.1.1 t (List.mem_append_left back ht)).ne

/-- A step in parentheses on the left of an operator. -/
def wrappedStep : String := "void main() \x7b x = ((++y)) * 2; \x7d"

def wrappedStepTokens : List (Located Token) := [
  ⟨.type .void, ⟨1, 1⟩⟩, ⟨.ident "main", ⟨1, 6⟩⟩, ⟨.openParen, ⟨1, 10⟩⟩, ⟨.closeParen, ⟨1, 11⟩⟩,
  ⟨.openBrace, ⟨1, 13⟩⟩, ⟨.ident "x", ⟨1, 15⟩⟩, ⟨.equal, ⟨1, 17⟩⟩, ⟨.openParen, ⟨1, 19⟩⟩,
  ⟨.openParen, ⟨1, 20⟩⟩, ⟨.increment, ⟨1, 21⟩⟩, ⟨.ident "y", ⟨1, 23⟩⟩, ⟨.closeParen, ⟨1, 24⟩⟩,
  ⟨.closeParen, ⟨1, 25⟩⟩, ⟨.star, ⟨1, 27⟩⟩, ⟨.const (.int 2), ⟨1, 29⟩⟩, ⟨.semicolon, ⟨1, 30⟩⟩,
  ⟨.closeBrace, ⟨1, 32⟩⟩]

/-- What is assigned. -/
def wrappedStepValue : Expr :=
  .binary ⟨.mul, ⟨1, 27⟩⟩ (.paren (.paren (.step .preIncrement ⟨"y", ⟨1, 23⟩⟩)))
    (.const ⟨.int 2, ⟨1, 29⟩⟩)

def wrappedStepContext : ProgramContext :=
  ⟨[], ⟨⟨.void, ⟨"main", ⟨1, 6⟩⟩, [], []⟩, .expr (.assign ⟨"x", ⟨1, 15⟩⟩ .hole), []⟩, []⟩

theorem expr_pos_leading_wrappedStep :
    tokenize wrappedStep = .ok wrappedStepTokens ∧
      parse wrappedStepTokens = .ok (wrappedStepContext.fill wrappedStepValue) ∧
      ∃ first rest, wrappedStepContext.Covers wrappedStepValue wrappedStepTokens (first :: rest) ∧
        leadingPos? (first :: rest) = some ⟨1, 23⟩ ∧
        (⟨1, 23⟩ = first.pos ↔ first.value.isPassed = false) := by
  have htokens : tokenize wrappedStep = .ok wrappedStepTokens := by decide +kernel
  have h : parse wrappedStepTokens = .ok (wrappedStepContext.fill wrappedStepValue) := by cbv
  obtain ⟨first, rest, hcovers, hleading, hfirst⟩ :=
    (expr_pos_leading wrappedStepTokens wrappedStepValue).2 wrappedStepContext h
  exact ⟨htokens, h, first, rest, hcovers, hleading, hfirst wrappedStep htokens⟩

/-- An initialiser in parentheses, of the wrong type. -/
def wrappedValue : String := "void main() \x7b bool b = (1); \x7d"

def wrappedValueContext : ProgramContext :=
  ⟨[], ⟨⟨.void, ⟨"main", ⟨1, 6⟩⟩, [], []⟩, .init .bool ⟨"b", ⟨1, 20⟩⟩ .hole, []⟩, []⟩

/-- The tokens of the initialiser. -/
def wrappedValueRun : List (Located Token) :=
  [⟨.openParen, ⟨1, 24⟩⟩, ⟨.const (.int 1), ⟨1, 25⟩⟩, ⟨.closeParen, ⟨1, 26⟩⟩]

def wrappedValueTokens : List (Located Token) :=
  [⟨.type .void, ⟨1, 1⟩⟩, ⟨.ident "main", ⟨1, 6⟩⟩, ⟨.openParen, ⟨1, 10⟩⟩, ⟨.closeParen, ⟨1, 11⟩⟩,
    ⟨.openBrace, ⟨1, 13⟩⟩, ⟨.type .bool, ⟨1, 15⟩⟩, ⟨.ident "b", ⟨1, 20⟩⟩, ⟨.equal, ⟨1, 22⟩⟩] ++
  (wrappedValueRun ++ [⟨.semicolon, ⟨1, 27⟩⟩, ⟨.closeBrace, ⟨1, 29⟩⟩])

theorem wrappedValueContext_covers :
    wrappedValueContext.Covers (.paren (.const ⟨.int 1, ⟨1, 25⟩⟩)) wrappedValueTokens
      wrappedValueRun := by
  refine ⟨[bare (.type .void), nameMark ⟨"main", ⟨1, 6⟩⟩, bare .openParen, bare .closeParen,
    bare .openBrace, bare (.type .bool), nameMark ⟨"b", ⟨1, 20⟩⟩, bare .equal],
    [bare .semicolon, bare .closeBrace], _, _, fun x => ?_, rfl, by decide, by decide, by decide⟩
  simp [wrappedValueContext, ProgramContext.fill, FunctionContext.fill, StmtContext.fill,
    ExprContext.fill, programMarks, Function.marks, blockMarks, Stmt.marks, separated]

/-- The position of an expression need not be that of its first token: here a parenthesis stands in
front, and the position that is reported is the one behind it. -/
theorem pos_behind_parenthesis :
    ∃ e : Expr, tokenize wrappedValue = .ok wrappedValueTokens ∧
      parse wrappedValueTokens = .ok (wrappedValueContext.fill e) ∧
      wrappedValueContext.Covers e wrappedValueTokens wrappedValueRun ∧
      wrappedValueRun.head?.map Located.pos = some ⟨1, 24⟩ ∧ e.pos = ⟨1, 25⟩ ∧
      Core.checkProgram (wrappedValueContext.fill e) =
        .error (.error (.problem ⟨.typeMismatch .bool .int, ⟨1, 25⟩⟩)) :=
  ⟨_, by cbv, by cbv, wrappedValueContext_covers, rfl, rfl, rfl⟩

end Surface

end MiniC
