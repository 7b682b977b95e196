import MiniC.Proofs.Except
import MiniC.Proofs.Surface.Likeness
import MiniC.Proofs.Surface.ParserSound

/-!
# Parsing tokens that are alike

The parser looks at what the tokens are and never at where they stand. From two streams of the same
tokens it reads trees that are alike, or it fails on both with the same problem; the positions that
the trees and the problem have come from tokens that correspond to each other.
-/

namespace MiniC

variable {P : Pos → Pos → Prop} {α β : Type}

/-- The same tokens are left, and everything corresponds. -/
structure TokenStream.Alike (P : Pos → Pos → Prop) (s s' : TokenStream) : Prop where
  rest : List.Forall₂ (Located.Alike id P) s.rest s'.rest
  stop : P s.stop s'.stop

theorem TokenStream.Alike.pos {s s' : TokenStream} (h : s.Alike P s') : P s.pos s'.pos := by
  obtain ⟨rest, stop⟩ := s
  obtain ⟨rest', stop'⟩ := s'
  obtain ⟨hrest, hstop⟩ := h
  cases hrest with
  | nil => exact hstop
  | cons ht _ => exact ht.pos

/-- Alike streams end together. -/
theorem TokenStream.Alike.isEmpty {s s' : TokenStream} (h : s.Alike P s') :
    s'.isEmpty = s.isEmpty := by
  obtain ⟨rest, stop⟩ := s
  obtain ⟨rest', stop'⟩ := s'
  obtain ⟨hrest, -⟩ := h
  cases hrest with
  | nil => rfl
  | cons _ _ => rfl

namespace Parser

/-- Both readers succeed, with results that `R` relates and the same tokens left, or both fail with
the same problem. -/
inductive ResultAlike (P : Pos → Pos → Prop) (R : α → α → Prop) :
    EStateM.Result ParseError TokenStream α → EStateM.Result ParseError TokenStream α → Prop where
  | ok {a a' : α} {s s' : TokenStream} : R a a' → s.Alike P s' →
      ResultAlike P R (.ok a s) (.ok a' s')
  | error {e e' : ParseError} {s s' : TokenStream} : e.Alike id P e' →
      ResultAlike P R (.error e s) (.error e' s')

/-- The readers end alike on streams that are alike. -/
def Alike (P : Pos → Pos → Prop) (R : α → α → Prop) (p q : Parser α) : Prop :=
  ∀ s s', s.Alike P s' → ResultAlike P R (p s) (q s')

/-! ## Sequencing -/

section Sequencing

variable {R : α → α → Prop} {S : β → β → Prop}

theorem alike_pure {a a' : α} (h : R a a') : Alike P R (pure a) (pure a') :=
  fun _ _ hs => .ok h hs

/-- Sequencing keeps likeness: alike results are handed on to alike continuations. -/
theorem Alike.bind {p q : Parser α} {f g : α → Parser β} (hp : Alike P R p q)
    (hf : ∀ a a', R a a' → Alike P S (f a) (g a')) : Alike P S (p >>= f) (q >>= g) := by
  intro s s' hs
  change ResultAlike P S (EStateM.bind p f s) (EStateM.bind q g s')
  have hresult := hp s s' hs
  unfold EStateM.bind
  generalize p s = x at hresult ⊢
  generalize q s' = y at hresult ⊢
  cases hresult with
  | ok ha hs₁ => exact hf _ _ ha _ _ hs₁
  | error he => exact .error he

theorem alike_throw {e e' : ParseError} (h : e.Alike id P e') :
    Alike P R (throw e) (throw e') :=
  fun _ _ _ => .error h

/-- Running out of tokens is reported at the place the stream stands at, so alike streams report it
alike. -/
theorem alike_missing : Alike P R (missing : Parser α) missing :=
  fun _ _ hs => .error ⟨rfl, hs.stop⟩

end Sequencing

/-! ## Single tokens -/

theorem alike_any : Alike P (Located.Alike id P) any any := by
  rintro ⟨rest, stop⟩ ⟨rest', stop'⟩ ⟨hrest, hstop⟩
  cases hrest with
  | nil => exact .error ⟨rfl, hstop⟩
  | cons ht hrest => exact .ok ht ⟨hrest, hstop⟩

/-- Looking ahead shows the token without its place, hence the same token in both streams. -/
theorem alike_peek : Alike P Eq peek peek := by
  rintro ⟨rest, stop⟩ ⟨rest', stop'⟩ ⟨hrest, hstop⟩
  cases hrest with
  | nil => exact .error ⟨rfl, hstop⟩
  | cons ht hrest => exact .ok ht.value.symm ⟨.cons ht hrest, hstop⟩

theorem alike_nextPos : Alike P P nextPos nextPos :=
  fun _ _ hs => .ok hs.pos hs

/-- A token is taken or left by its value alone. -/
theorem alike_nextIf (p : Token → Bool) :
    Alike P (Option.Rel (Located.Alike id P)) (nextIf p) (nextIf p) := by
  rintro ⟨rest, stop⟩ ⟨rest', stop'⟩ ⟨hrest, hstop⟩
  cases hrest with
  | nil => exact .ok .none ⟨.nil, hstop⟩
  | @cons t u rest rest' ht hrest =>
    have hp : p u.value = p t.value := congrArg p ht.value
    simp only [nextIf, hp]
    split
    · exact .ok (.some ht) ⟨hrest, hstop⟩
    · exact .ok .none ⟨.cons ht hrest, hstop⟩

theorem alike_accept (t : Token) : Alike P Eq (accept t) (accept t) := by
  refine (alike_nextIf _).bind fun u u' hu => ?_
  cases hu with
  | none => exact alike_pure rfl
  | some _ => exact alike_pure rfl

/-- What an expected token yields, or the failure for want of it, differs in places only. -/
theorem alike_expect (t : Token) : Alike P P (expect t) (expect t) := by
  refine alike_any.bind fun u u' hu => ?_
  rw [show u'.value = u.value from hu.value]
  split
  · exact alike_pure hu.pos
  · exact alike_throw ⟨rfl, hu.pos⟩

theorem alike_identifier : Alike P (Located.Alike id P) identifier identifier := by
  refine alike_any.bind fun u u' hu => ?_
  rw [show u'.value = u.value from hu.value]
  cases u.value with
  | ident x => exact alike_pure ⟨rfl, hu.pos⟩
  | _ => exact alike_throw ⟨rfl, hu.pos⟩

theorem alike_typeName : Alike P Eq typeName typeName := by
  refine alike_any.bind fun u u' hu => ?_
  rw [show u'.value = u.value from hu.value]
  cases u.value with
  | type ty => exact alike_pure rfl
  | _ => exact alike_throw ⟨rfl, hu.pos⟩

end Parser

namespace Surface

open MiniC.Parser

variable {R : α → α → Prop}

/-- Streams that are alike are equally long, so the readers get the same fuel. -/
theorem alike_bounded {p : Nat → Parser α} (h : ∀ fuel, Parser.Alike P R (p fuel) (p fuel)) :
    Parser.Alike P R (bounded p) (bounded p) := by
  intro s s' hs
  unfold bounded
  rw [← hs.rest.length_eq]
  exact h _ s s' hs

/-! ## Lists -/

/-- A comma list is read alike as soon as its items are, by induction on the bound of the loop. -/
theorem alike_commaList {item : Parser α} (h : Parser.Alike P R item item) :
    ∀ fuel, Parser.Alike P (List.Forall₂ R) (commaList item fuel) (commaList item fuel)
  | 0 => alike_missing
  | fuel + 1 => by
    rw [commaList]
    refine h.bind fun x x' hx => alike_any.bind fun t t' ht => ?_
    rw [show t'.value = t.value from ht.value]
    cases t.value with
    | comma =>
      exact (alike_commaList h fuel).bind fun xs xs' hxs => alike_pure (.cons hx hxs)
    | closeParen => exact alike_pure (.cons hx .nil)
    | _ => exact alike_throw ⟨rfl, ht.pos⟩

theorem alike_items {item : Parser α} (h : Parser.Alike P R item item) :
    Parser.Alike P (List.Forall₂ R) (items item) (items item) := by
  refine (alike_accept .closeParen).bind ?_
  rintro closed _ rfl
  cases closed with
  | true => exact alike_pure .nil
  | false => exact alike_bounded (alike_commaList h)

/-- The likeness of argument lists is the pointwise one, so lists read item by item have it. -/
theorem argsAlike_of_forall₂ {es ds : List Expr} (h : List.Forall₂ (Expr.Alike id P) es ds) :
    ArgsAlike id P es ds := by
  induction h with
  | nil => exact .nil
  | cons h _ ih => exact .cons h ih

/-! ## Expressions -/

/-- Readers of expressions. -/
abbrev ReadsAlike (P : Pos → Pos → Prop) : Parser Expr → Parser Expr → Prop :=
  Parser.Alike P (Expr.Alike id P)

theorem alike_stepTarget {factor : Parser Expr} (h : ReadsAlike P factor factor) :
    Parser.Alike P (Located.Alike id P) (stepTarget factor) (stepTarget factor) := by
  refine alike_nextPos.bind fun p p' hp => h.bind fun e d he => ?_
  cases he with
  | var hx => exact alike_pure hx
  | _ => exact alike_throw ⟨rfl, hp⟩

/-- An atom is chosen by its first token, and its parts are read by the two readers it is given. -/
theorem alike_atom {factor expr : Parser Expr} (hfactor : ReadsAlike P factor factor)
    (hexpr : ReadsAlike P expr expr) {t u : Located Token} (h : t.Alike id P u) :
    ReadsAlike P (atom factor expr t) (atom factor expr u) := by
  unfold atom
  rw [show u.value = t.value from h.value]
  cases t.value with
  | increment | decrement =>
    exact (alike_stepTarget hfactor).bind fun x y hxy => alike_pure (.step _ hxy)
  | const c => exact alike_pure (.const ⟨rfl, h.pos⟩)
  | minus => exact hfactor.bind fun e d he => alike_pure (.negate h.pos he)
  | openParen =>
    refine hexpr.bind fun e d he => ?_
    exact (alike_expect .closeParen).bind fun _ _ _ => alike_pure (.paren he)
  | ident x =>
    refine (alike_accept .openParen).bind ?_
    rintro isCall _ rfl
    cases isCall with
    | true =>
      refine (alike_items hexpr).bind fun es ds hes => ?_
      exact alike_pure (.call ⟨rfl, h.pos⟩ (argsAlike_of_forall₂ hes))
    | false => exact alike_pure (.var ⟨rfl, h.pos⟩)
  | _ => exact alike_throw ⟨rfl, h.pos⟩

theorem alike_stepBehind {e d : Expr} (h : e.Alike id P d) :
    ReadsAlike P (stepBehind e) (stepBehind d) := by
  refine (alike_nextIf _).bind fun u u' hu => ?_
  cases hu with
  | none => exact alike_pure h
  | @some t t' ht =>
    simp only [show t'.value = t.value from ht.value]
    cases h with
    | var hx => exact alike_pure (.step _ hx)
    | _ => exact alike_throw ⟨rfl, ht.pos⟩

/-- Whether an operator follows that binds tightly enough depends on the token's value alone. -/
theorem alike_operator? (least : Nat) :
    Parser.Alike P (Option.Rel (Located.Alike id P)) (operator? least) (operator? least) := by
  rintro ⟨rest, stop⟩ ⟨rest', stop'⟩ ⟨hrest, hstop⟩
  cases hrest with
  | nil => exact .ok .none ⟨.nil, hstop⟩
  | @cons t u rest rest' ht hrest =>
    simp only [operator?, show u.value = t.value from ht.value]
    split
    · exact .ok .none ⟨.cons ht hrest, hstop⟩
    · split
      · exact .ok (.some ⟨rfl, ht.pos⟩) ⟨hrest, hstop⟩
      · exact .ok .none ⟨.cons ht hrest, hstop⟩

mutual

theorem alike_factor : ∀ fuel, ReadsAlike P (factor fuel) (factor fuel)
  | 0 => by
    rw [factor]
    exact alike_missing
  | fuel + 1 => by
    rw [factor]
    refine alike_any.bind fun t u ht => ?_
    exact (alike_atom (alike_factor fuel) (alike_expr fuel 0) ht).bind fun e d => alike_stepBehind

theorem alike_expr : ∀ fuel least, ReadsAlike P (expr fuel least) (expr fuel least)
  | 0, _ => by
    rw [expr]
    exact alike_missing
  | fuel + 1, least => by
    rw [expr]
    exact (alike_factor fuel).bind fun e d => alike_climb fuel least

/-- Precedence climbing from alike left operands: each round takes the same operator on both sides
and extends both operands by it. -/
theorem alike_climb : ∀ fuel least {e d : Expr}, e.Alike id P d →
    ReadsAlike P (climb fuel least e) (climb fuel least d)
  | 0, _, e, d, h => by
    rw [climb, climb]
    exact alike_pure h
  | fuel + 1, least, e, d, h => by
    rw [climb, climb]
    refine (alike_operator? least).bind fun o o' ho => ?_
    cases ho with
    | none => exact alike_pure h
    | @some op op' hop =>
      simp only [show op'.value = op.value from hop.value]
      split
      · have hpos := h.pos
        cases h with
        | var hx =>
          refine (alike_expr fuel _).bind fun src src' hsrc => ?_
          exact alike_climb fuel least (.assign hx hsrc)
        | _ => exact alike_throw ⟨rfl, hpos⟩
      · refine (alike_expr fuel _).bind fun right right' hright => ?_
        exact alike_climb fuel least (.binary hop h hright)

end

/-- Expressions of alike streams are alike. -/
theorem alike_expression : ReadsAlike P expression expression :=
  alike_bounded fun fuel => alike_expr fuel 0

/-! ## Statements -/

theorem alike_condition : ReadsAlike P condition condition := by
  refine (alike_expect .openParen).bind fun _ _ _ => alike_expression.bind fun e d he => ?_
  exact (alike_expect .closeParen).bind fun _ _ _ => alike_pure he

theorem alike_optionalExpression (stop : Token) :
    Parser.Alike P (OptionalAlike id P) (optionalExpression stop) (optionalExpression stop) := by
  refine (alike_accept stop).bind ?_
  rintro stopped _ rfl
  cases stopped with
  | true => exact alike_pure .none
  | false =>
    refine alike_expression.bind fun e d he => ?_
    exact (alike_expect stop).bind fun _ _ _ => alike_pure (.some he)

/-- The further names of a declaration are alike, one by one. -/
theorem alike_moreNames :
    ∀ fuel, Parser.Alike P (List.Forall₂ (Located.Alike id P)) (moreNames fuel) (moreNames fuel)
  | 0 => alike_pure .nil
  | fuel + 1 => by
    rw [moreNames]
    refine (alike_accept .comma).bind ?_
    rintro more _ rfl
    cases more with
    | true =>
      refine alike_identifier.bind fun x y hx => ?_
      exact (alike_moreNames fuel).bind fun xs ys hxs => alike_pure (.cons hx hxs)
    | false => exact alike_pure .nil

theorem alike_declaration : Parser.Alike P (Stmt.Alike id P) declaration declaration := by
  refine alike_typeName.bind ?_
  rintro ty _ rfl
  refine alike_identifier.bind fun x y hx => (alike_accept .equal).bind ?_
  rintro hasInit _ rfl
  cases hasInit with
  | true =>
    refine alike_expression.bind fun e d he => ?_
    exact (alike_expect .semicolon).bind fun _ _ _ => alike_pure (.init ty hx he)
  | false =>
    refine (alike_bounded alike_moreNames).bind fun xs ys hxs => ?_
    exact (alike_expect .semicolon).bind fun _ _ _ => alike_pure (.declare ty (.cons hx hxs))

/-- A statement is chosen by its first token; the substatements come from the two readers it is
given. -/
theorem alike_statementAt {statement : Parser Stmt} {block : Parser (List Stmt)}
    (hstatement : Parser.Alike P (Stmt.Alike id P) statement statement)
    (hblock : Parser.Alike P (BlockAlike id P) block block) (t : Token) :
    Parser.Alike P (Stmt.Alike id P) (statementAt statement block t)
      (statementAt statement block t) := by
  unfold statementAt
  cases t with
  | type ty => exact alike_declaration
  | kwReturn =>
    refine (alike_expect .kwReturn).bind fun p q hp => ?_
    exact (alike_optionalExpression .semicolon).bind fun e d he => alike_pure (.ret hp he)
  | openBrace => exact hblock.bind fun ss ds hss => alike_pure (.block hss)
  | kwIf =>
    refine alike_any.bind fun _ _ _ => alike_condition.bind fun c c' hc => ?_
    refine hstatement.bind fun s d hs => (alike_accept .kwElse).bind ?_
    rintro hasElse _ rfl
    cases hasElse with
    | true => exact hstatement.bind fun s₂ d₂ hs₂ => alike_pure (.ifElse hc hs hs₂)
    | false => exact alike_pure (.ifThen hc hs)
  | kwWhile =>
    refine alike_any.bind fun _ _ _ => alike_condition.bind fun c c' hc => ?_
    exact hstatement.bind fun s d hs => alike_pure (.whileLoop hc hs)
  | kwFor =>
    refine alike_any.bind fun _ _ _ => (alike_expect .openParen).bind fun _ _ _ => ?_
    refine (alike_optionalExpression .semicolon).bind fun init init' hinit => ?_
    refine (alike_optionalExpression .semicolon).bind fun c c' hc => ?_
    refine (alike_optionalExpression .closeParen).bind fun step step' hstep => ?_
    exact hstatement.bind fun s d hs => alike_pure (.forLoop hinit hc hstep hs)
  | _ =>
    refine alike_expression.bind fun e d he => ?_
    exact (alike_expect .semicolon).bind fun _ _ _ => alike_pure (.expr he)

mutual

/-- Statements are read alike, whatever bound the readers run under. -/
theorem alike_statement :
    ∀ fuel, Parser.Alike P (Stmt.Alike id P) (statement fuel) (statement fuel)
  | 0 => by
    rw [statement]
    exact alike_missing
  | fuel + 1 => by
    rw [statement]
    refine alike_peek.bind ?_
    rintro t _ rfl
    refine alike_statementAt (alike_statement fuel) ?_ t
    exact (alike_expect .openBrace).bind fun _ _ _ => alike_statements fuel

theorem alike_statements :
    ∀ fuel, Parser.Alike P (BlockAlike id P) (statements fuel) (statements fuel)
  | 0 => by
    rw [statements]
    exact alike_missing
  | fuel + 1 => by
    rw [statements]
    refine alike_peek.bind ?_
    rintro t _ rfl
    split
    · exact alike_any.bind fun _ _ _ => alike_pure .nil
    · refine (alike_statement fuel).bind fun s d hs => ?_
      exact (alike_statements fuel).bind fun ss ds hss => alike_pure (.cons hs hss)

end

/-! ## Functions and programs -/

theorem alike_param : Parser.Alike P (Param.Alike id P) param param := by
  refine alike_typeName.bind ?_
  rintro ty _ rfl
  exact alike_identifier.bind fun x y hx => alike_pure ⟨rfl, hx⟩

theorem alike_function : Parser.Alike P (Function.Alike id P) function function := by
  refine alike_typeName.bind ?_
  rintro ret _ rfl
  refine alike_identifier.bind fun f g hname => (alike_expect .openParen).bind fun _ _ _ => ?_
  refine (alike_items alike_param).bind fun ps qs hparams => ?_
  refine Parser.Alike.bind ((alike_expect .openBrace).bind fun _ _ _ =>
    alike_bounded alike_statements) fun ss ds hbody => ?_
  exact alike_pure ⟨rfl, hname, hparams, hbody⟩

/-- Functions are read alike up to the end of the stream, which both streams reach together. -/
theorem alike_functions :
    ∀ fuel, Parser.Alike P (ProgramAlike id P) (functions fuel) (functions fuel)
  | 0 => alike_pure .nil
  | fuel + 1 => by
    rw [functions]
    have hget : Parser.Alike P (TokenStream.Alike P) get get := fun _ _ hs => .ok hs hs
    refine hget.bind fun s s' hs => ?_
    rw [hs.isEmpty]
    split
    · exact alike_pure .nil
    · refine alike_function.bind fun f g hf => ?_
      exact (alike_functions fuel).bind fun fs gs hfs => alike_pure (.cons hf hfs)

/-- All of the tokens. There has to be one, for the input to end at its place. -/
theorem alike_ofTokens {ts us : List (Located Token)}
    (h : List.Forall₂ (Located.Alike id P) ts us) (hne : ts ≠ []) :
    (TokenStream.ofTokens ts).Alike P (TokenStream.ofTokens us) := by
  refine ⟨h, ?_⟩
  have hreverse := List.forall₂_reverse_iff.mpr h
  simp only [TokenStream.ofTokens, List.getLast?_eq_head?_reverse]
  cases hts : ts.reverse with
  | nil => exact absurd (List.reverse_eq_nil_iff.mp hts) hne
  | cons t rest =>
    rw [hts] at hreverse
    obtain ⟨u, rest', hlast, -, hus⟩ := List.forall₂_cons_left_iff.mp hreverse
    rw [hus]
    exact hlast.pos

/-- Tokens that differ in their places only are read to programs that differ in their places only,
or refused with failures that do. -/
theorem parse_alike {ts us : List (Located Token)}
    (h : List.Forall₂ (Located.Alike id P) ts us) (hne : ts ≠ []) :
    EndAlike (Located.Alike id P) (ProgramAlike id P) (parse ts) (parse us) := by
  have hresult := alike_bounded alike_functions _ _ (alike_ofTokens h hne)
  rw [parse_eq, parse_eq]
  generalize bounded functions (TokenStream.ofTokens ts) = x at hresult ⊢
  generalize bounded functions (TokenStream.ofTokens us) = y at hresult ⊢
  cases hresult with
  | ok hp _ => exact .ok hp
  | error he => exact .error he

end Surface

end MiniC
