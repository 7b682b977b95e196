import Mathlib.Data.List.TakeWhile
import MiniC.Proofs.Compiler.Layout
import MiniC.Proofs.Token.LexerSound

/-!
# Diagnostics point into the source

Whatever a diagnostic complains about, its place is one of the source text. The lexer reports the
place of a byte, or of the end of the text. The parser and the checker never make up a place of
their own: they report that of a token. Two places stand for "none", the end of an empty input and
the declaration of a builtin function, and no diagnostic ever shows them.
-/

namespace MiniC

open Byte

namespace Pos

/-- The place of a byte of the text, or of its end. -/
def Within (source : String) (p : Pos) : Prop :=
  ∃ k ≤ (ofText source).length, p = behind ((ofText source).take k)

theorem Within.ne_nowhere {source : String} {p : Pos} (h : p.Within source) : p ≠ nowhere := by
  obtain ⟨k, -, rfl⟩ := h
  simp [behind, nowhere]

end Pos

/-! ## The lexer -/

theorem Cursor.within_advance (source : String) (n : Nat) :
    ((Cursor.ofString source).advance n).pos.Within source := by
  refine ⟨min n (ofText source).length, Nat.min_le_right _ _, ?_⟩
  rw [← List.take_eq_take_min, advance_eq]
  exact Pos.behind_afterAll _ []

namespace Token

/-- A lexical problem is reported somewhere behind the cursor. -/
theorem tokensFrom_error_pos {c : Cursor} {e : LexError} (h : tokensFrom c = .error e) :
    ∃ n, e.pos = (c.advance n).pos := by
  fun_induction tokensFrom c with
  | case1 c n hskip =>
    cases h
    exact ⟨n, rfl⟩
  | case2 => cases h
  | case3 c n hskip start b rest hrest misfit hmisfit =>
    cases h
    exact ⟨n + misfit.offset, congrArg Cursor.pos (c.advance_advance n misfit.offset)⟩
  | case4 c n hskip start b rest hrest l hl ih =>
    rcases bind_eq_error.mp h with herror | ⟨ts, -, hts⟩
    · obtain ⟨k, hk⟩ := ih herror
      refine ⟨n + (l.behind + 1 + k), hk.trans ?_⟩
      rw [Cursor.advance_advance]
      exact congrArg Cursor.pos (c.advance_advance n _)
    · cases hts

end Token

theorem tokenize_error_within {source : String} {e : LexError} (h : tokenize source = .error e) :
    e.pos.Within source := by
  obtain ⟨n, hn⟩ := Token.tokensFrom_error_pos h
  rw [hn]
  exact Cursor.within_advance source n

theorem tokenize_token_within {source : String} {ts : List (Located Token)}
    (h : tokenize source = .ok ts) : ∀ t ∈ ts, t.pos.Within source := by
  have hsplits : Token.Splits [] (ofText source) ts := Token.tokensFrom_sound h rfl
  exact hsplits.exists_take

/-! ## The stages behind the lexer -/

namespace Compiler

/-- A place that a token of the text has. -/
structure AtToken (source : String) (q : Pos) : Prop where
  token : ∃ ts, tokenize source = .ok ts ∧ ∃ t ∈ ts, t.pos = q
  within : q.Within source
  somewhere : q ≠ .nowhere

/-- The diagnostic points into the text: at one of its tokens, or for the lexer at one of its bytes
or its end. Only a missing `main` is nowhere in particular. -/
def Error.PointsInto (source : String) (e : Error) : Prop :=
  match e with
  | .lexing problem => problem.pos.Within source
  | .parsing _ => ∃ q, e.pos? = some q ∧ AtToken source q
  | .semantics problem => problem = .noMain ∨ ∃ q, e.pos? = some q ∧ AtToken source q
  | .io _ | .invalidClassName _ => False

variable {className source : String} {ts : List (Located Token)} {e : Error}

theorem compileSource_of_lex_error {problem : LexError} (hname : isClassName className = true)
    (h : tokenize source = .error problem) :
    compileSource className source = .error (.error (.lexing problem)) := by
  unfold compileSource compileModule checkedProgram lex checkClassName
  rw [if_pos hname, h]
  rfl

/-- The stages behind the lexer report parse errors and rejected programs. -/
theorem compileTokens_error_kind (h : compileTokens className ts = .error (.error e)) :
    (∃ problem, e = .parsing problem) ∨ ∃ problem, e = .semantics problem := by
  rcases bind_eq_error.mp h with hparse | ⟨p, -, hrest⟩
  · obtain ⟨problem, -, hproblem⟩ := mapError_eq_error.mp hparse
    cases hproblem
    exact .inl ⟨problem, rfl⟩
  rcases bind_eq_error.mp hrest with hcheck | ⟨t, -, hrest⟩
  · obtain ⟨failure, -, hfailure⟩ := mapError_eq_error.mp hcheck
    cases failure with
    | error problem =>
      cases hfailure
      exact .inr ⟨problem, rfl⟩
    | fault f => cases hfailure
  rcases bind_eq_error.mp hrest with hgenerate | ⟨m, -, hm⟩
  · obtain ⟨fault, -, hfault⟩ := mapError_eq_error.mp hgenerate
    cases hfault
  · cases hm

/-- Compared with itself, a run shows that the place of its error is that of a token. -/
theorem compileTokens_error_pos (h : compileTokens className ts = .error (.error e)) {q : Pos}
    (hq : e.pos? = some q) : ∃ t ∈ ts, t.pos = q := by
  have halike : EndAlike (SameFailure ts ts) Eq (compileTokens className ts)
      (compileTokens className ts) := compileTokens_layout className rfl
  rw [h] at halike
  obtain _ | hsame := halike
  obtain ⟨-, hpos⟩ | _ := hsame
  rw [hq] at hpos
  obtain ⟨i, t, -, ht, -, rfl, -⟩ | _ := hpos
  exact ⟨t, List.mem_of_getElem? ht, rfl⟩

/-- Every diagnostic about a source text points into it. -/
theorem compileSource_pointsInto (hname : isClassName className = true)
    (h : compileSource className source = .error (.error e)) : e.PointsInto source := by
  cases hts : tokenize source with
  | error problem =>
    rw [compileSource_of_lex_error hname hts] at h
    cases h
    exact tokenize_error_within hts
  | ok ts =>
    rw [compileSource_eq hts, checkClassName, if_pos hname] at h
    have hplace : ∀ q, e.pos? = some q → AtToken source q := by
      intro q hq
      obtain ⟨t, ht, rfl⟩ := compileTokens_error_pos h hq
      have hwithin := tokenize_token_within hts t ht
      exact ⟨⟨ts, hts, t, ht, rfl⟩, hwithin, hwithin.ne_nowhere⟩
    rcases compileTokens_error_kind h with ⟨problem, rfl⟩ | ⟨problem, rfl⟩
    · exact ⟨problem.pos, rfl, hplace _ rfl⟩
    · cases problem with
      | noMain => exact .inl rfl
      | problem e => exact .inr ⟨e.pos, rfl, hplace _ rfl⟩

/-- An undeclared variable behind a comment. -/
def undeclared : String := "void main() \x7b\n/* é */ x = 1;\x7d"

theorem compileSource_pointsInto_undeclared :
    isClassName "Main" = true ∧
      compileSource "Main" undeclared =
        .error (.error (.semantics (.problem ⟨.undefinedVariable "x", ⟨2, 10⟩⟩))) ∧
      Error.PointsInto undeclared
        (.semantics (.problem ⟨.undefinedVariable "x", ⟨2, 10⟩⟩)) := by
  have h : compileSource "Main" undeclared =
      .error (.error (.semantics (.problem ⟨.undefinedVariable "x", ⟨2, 10⟩⟩))) := by decide +kernel
  exact ⟨by decide, h, compileSource_pointsInto (by decide) h⟩

end Compiler

end MiniC
