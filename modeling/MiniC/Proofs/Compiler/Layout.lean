import Mathlib.Data.List.Forall2
import MiniC.Compiler.Basic
import MiniC.Proofs.Core.Likeness
import MiniC.Proofs.Compiler.Faults
import MiniC.Proofs.Surface.ParserLikeness

/-!
# Layout does not matter

Blanks and comments part the tokens of a text and mean nothing else. Two texts with the same tokens
are compiled to the same module text, or rejected for the same reason. The two diagnostics may name
different places, but these belong to the same token, counted from the start of the text.
-/

namespace MiniC.Compiler

open MiniC.Core Jvm

/-! ## Errors and their places -/

/-- Where the error is, if it is at some place of the source text. -/
def Error.pos? : Error → Option Pos
  | .lexing e => some e.pos
  | .parsing e => some e.pos
  | .semantics e => e.pos?
  | .io _ | .invalidClassName _ => none

/-- The error without its place: its kind, and the tokens, names, types, numbers and operators that
it mentions. -/
def Error.unplaced : Error → Error
  | .lexing e => .lexing ⟨e.value, .nowhere⟩
  | .parsing e => .parsing ⟨e.value, .nowhere⟩
  | .semantics (.problem e) => .semantics (.problem ⟨e.value, .nowhere⟩)
  | .semantics .noMain => .semantics .noMain
  | .io e => .io e
  | .invalidClassName name => .invalidClassName name

/-- Tokens with the same index stand at these places. -/
def AtOneIndex (ts us : List (Located Token)) (p q : Pos) : Prop :=
  ∃ (i : Nat) (t u : Located Token), ts[i]? = some t ∧ us[i]? = some u ∧ t.pos = p ∧ u.pos = q

/-- The same failure, at corresponding places. -/
inductive SameFailure (ts us : List (Located Token)) : Failure Error → Failure Error → Prop where
  | error {e e' : Error} : e'.unplaced = e.unplaced →
      Option.Rel (AtOneIndex ts us) e.pos? e'.pos? → SameFailure ts us (.error e) (.error e')
  | fault (f : Fault) : SameFailure ts us (.fault f) (.fault f)

variable {ts us : List (Located Token)}

/-- Tokens with the same values correspond to each other by their index. -/
theorem alike_of_map_value (h : us.map Located.value = ts.map Located.value) :
    List.Forall₂ (Located.Alike id (AtOneIndex ts us)) ts us := by
  have hlength : ts.length = us.length := by
    simpa using (congrArg List.length h).symm
  refine List.forall₂_iff_get.mpr ⟨hlength, fun i hi hi' => ⟨?_, i, _, _, ?_, ?_, rfl, rfl⟩⟩
  · have hvalue := congrArg (·[i]?) h
    simpa [hi, hi'] using hvalue
  · simp
  · simp

/-! ## Stages -/

/-- Tokens of the same values are read to programs that are placed at the same tokens. -/
theorem parse_layout (h : us.map Located.value = ts.map Located.value) (hne : ts ≠ []) :
    EndAlike (SameFailure ts us) (Surface.ProgramAlike id (AtOneIndex ts us)) (parse ts)
      (parse us) := by
  refine (Surface.parse_alike (alike_of_map_value h) hne).mapError fun e e' he => ?_
  refine .error ?_ (.some he.pos)
  rw [Error.unplaced, Error.unplaced, show e'.value = e.value from he.value]

/-- Programs placed at the same tokens are checked to the same program, or refused at the same
token. -/
theorem check_layout {p q : Surface.Program}
    (h : Surface.ProgramAlike id (AtOneIndex ts us) p q) :
    EndAlike (SameFailure ts us) (fun t t' => t' = renameProgram id t) (check p) (check q) := by
  refine (checkProgram_alike Function.injective_id h).mapError fun f f' hf => ?_
  cases hf with
  | noMain => exact .error rfl .none
  | fault fault => exact .fault fault
  | @problem e e' he =>
    have hvalue : e'.value = e.value := he.value.trans e.value.rename_id
    refine .error ?_ (.some he.pos)
    rw [Error.unplaced, Error.unplaced, hvalue]

theorem generate_layout (className : String) (t : Program) :
    EndAlike (SameFailure ts us) Eq (generate className t) (generate className t) := by
  unfold generate
  cases Jvm.generate className t with
  | ok m => exact .ok rfl
  | error fault => exact .error (.fault fault)

/-- Everything behind the lexer. -/
def compileTokens (className : String) (ts : List (Located Token)) : Result String := do
  let m ← generate className (← check (← parse ts))
  return m.text

/-- Behind the scanner, a compilation sees layout in the places of its failures only. -/
theorem compileTokens_layout (className : String)
    (h : us.map Located.value = ts.map Located.value) :
    EndAlike (SameFailure ts us) Eq (compileTokens className ts) (compileTokens className us) := by
  by_cases hne : ts = []
  · -- a text without tokens has no `main`
    subst hne
    obtain rfl : us = [] := List.map_eq_nil_iff.mp h
    exact .error (.error rfl .none)
  · refine (parse_layout h hne).bind fun p q hpq => (check_layout hpq).bind ?_
    rintro t _ rfl
    rw [renameProgram_id]
    refine (generate_layout className t).bind ?_
    rintro m _ rfl
    exact .pure rfl

theorem compileSource_eq {className source : String} (hts : tokenize source = .ok ts) :
    compileSource className source =
      (checkClassName className).mapError .error >>= fun _ => compileTokens className ts := by
  unfold compileSource compileModule checkedProgram compileTokens
  rw [lex_eq_ok.mpr hts]
  simp only [bind_assoc]
  rfl

/-- Two texts of the same tokens are compiled to the same module text, or both fail in the same way;
where the diagnostics name places, these are those of tokens with the same index. -/
theorem compileSource_layout {className source source' : String}
    (hts : tokenize source = .ok ts) (hus : tokenize source' = .ok us)
    (hsame : us.map Located.value = ts.map Located.value) :
    EndAlike (SameFailure ts us) Eq (compileSource className source)
      (compileSource className source') := by
  rw [compileSource_eq hts, compileSource_eq hus]
  unfold checkClassName
  split
  · exact compileTokens_layout className hsame
  · exact .error (.error rfl .none)

/-- A program that is rejected for the variable that it steps. -/
def dense : String := "void main()\x7bx++;\x7d"

def denseTokens : List (Located Token) := [
  ⟨.type .void, ⟨1, 1⟩⟩, ⟨.ident "main", ⟨1, 6⟩⟩, ⟨.openParen, ⟨1, 10⟩⟩, ⟨.closeParen, ⟨1, 11⟩⟩,
  ⟨.openBrace, ⟨1, 12⟩⟩, ⟨.ident "x", ⟨1, 13⟩⟩, ⟨.increment, ⟨1, 14⟩⟩, ⟨.semicolon, ⟨1, 16⟩⟩,
  ⟨.closeBrace, ⟨1, 17⟩⟩]

/-- The same program on four lines, with a comment. -/
def spread : String := "void main()\n\x7b # x\n x /**/ ++;\n\x7d"

def spreadTokens : List (Located Token) := [
  ⟨.type .void, ⟨1, 1⟩⟩, ⟨.ident "main", ⟨1, 6⟩⟩, ⟨.openParen, ⟨1, 10⟩⟩, ⟨.closeParen, ⟨1, 11⟩⟩,
  ⟨.openBrace, ⟨2, 1⟩⟩, ⟨.ident "x", ⟨3, 2⟩⟩, ⟨.increment, ⟨3, 9⟩⟩, ⟨.semicolon, ⟨3, 11⟩⟩,
  ⟨.closeBrace, ⟨4, 1⟩⟩]

theorem compileSource_layout_spread :
    tokenize dense = .ok denseTokens ∧ tokenize spread = .ok spreadTokens ∧
      spreadTokens.map Located.value = denseTokens.map Located.value ∧
      EndAlike (SameFailure denseTokens spreadTokens) Eq (compileSource "Main" dense)
        (compileSource "Main" spread) := by
  have hdense : tokenize dense = .ok denseTokens := by decide +kernel
  have hspread : tokenize spread = .ok spreadTokens := by decide +kernel
  exact ⟨hdense, hspread, rfl, compileSource_layout hdense hspread rfl⟩

end MiniC.Compiler
