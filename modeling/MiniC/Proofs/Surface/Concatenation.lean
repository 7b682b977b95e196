import MiniC.Proofs.Surface.Fuel
import MiniC.Proofs.Surface.ParserComplete

/-!
# Programs one behind the other

Behind a whole program the parser goes on as if it started there. What it has read are complete
functions, and no reader looks past the closing brace of a function: the tokens of a function are
read as this function, whatever comes behind them. So the text of a program, put in front of any
other tokens, adds its functions to what these are read as, and leaves the error that they end in
as it is.
-/

namespace MiniC.Surface

open MiniC.Parser

variable {fuel : Nat} {s s' : TokenStream}

/-! ## Whole programs in front -/

theorem functions_of_nonempty (h : s.rest ≠ []) :
    functions (fuel + 1) s = (do let f ← function; (f :: ·) <$> functions fuel) s := by
  have hmore : s.isEmpty = false := List.isEmpty_eq_false_iff.mpr h
  rw [functions, run_bind_of_ok (show (get : Parser TokenStream) s = .ok s s from rfl), hmore]
  rfl

/-- Behind the functions of a program the functions that follow are read. -/
theorem functions_append {p : Program} (hp : NormalProgram p) (hfuel : s.rest.length ≤ fuel)
    (h : Reads (programMarks p) s s') : functions fuel s = ((p ++ ·) <$> functions fuel) s' := by
  induction p generalizing fuel s with
  | nil =>
    obtain rfl := reads_nil.mp h
    simp
  | cons f p ih =>
    obtain ⟨hf, hp⟩ := List.forall_mem_cons.mp hp
    obtain ⟨s₁, hf', h⟩ := reads_append.mp h
    have hlt := hf'.length_lt
    have hle := h.length_le
    obtain ⟨fuel, rfl⟩ : ∃ n, fuel = n + 1 := ⟨fuel - 1, by omega⟩
    calc functions (fuel + 1) s
        = (do let f ← function; (f :: ·) <$> functions fuel) s :=
          functions_of_nonempty (List.ne_nil_of_length_pos (by omega))
      _ = ((f :: ·) <$> functions fuel) s₁ := run_bind_of_ok (function_complete hf hf')
      _ = ((f :: ·) <$> (p ++ ·) <$> functions fuel) s' :=
          run_map_congr (ih hp (by omega) h)
      _ = ((f :: p ++ ·) <$> functions fuel) s' := by
          rw [Functor.map_map]
          rfl
      _ = ((f :: p ++ ·) <$> functions (fuel + 1)) s' :=
          run_map_congr (functions_fuel (by omega) (by omega))

theorem reads_of_spells_append {ms : List Mark} {ts : List (Located Token)} (h : Spells ms ts)
    (us : List (Located Token)) (stop : Pos) : Reads ms ⟨ts ++ us, stop⟩ ⟨us, stop⟩ := by
  induction h with
  | nil => exact .nil
  | cons hm _ ih => exact .cons hm ih

/-- The input ends where its last token starts, whatever stands in front. -/
theorem ofTokens_append {ts us : List (Located Token)} (h : us ≠ []) :
    TokenStream.ofTokens (ts ++ us) = ⟨ts ++ us, (TokenStream.ofTokens us).stop⟩ := by
  rw [TokenStream.ofTokens, TokenStream.ofTokens, List.getLast?_append_of_ne_nil _ h]

/-- Where the tokens of a program are followed by others, its functions are read first. -/
theorem bounded_functions_append {ts us : List (Located Token)} {p : Program}
    (h : parse ts = .ok p) (hne : us ≠ []) :
    bounded functions (TokenStream.ofTokens (ts ++ us)) =
      ((p ++ ·) <$> bounded functions) (TokenStream.ofTokens us) := by
  obtain ⟨s', hrun⟩ := parse_ok_iff.mp h
  obtain ⟨hreads, hnormal, hend⟩ := functions_sound _ (by omega) hrun
  have happend : Reads (programMarks p) (TokenStream.ofTokens (ts ++ us))
      (TokenStream.ofTokens us) := by
    rw [ofTokens_append hne]
    exact reads_of_spells_append (hreads.spells hend) us _
  have hle := happend.length_le
  calc bounded functions (TokenStream.ofTokens (ts ++ us))
      = ((p ++ ·) <$> functions _) (TokenStream.ofTokens us) :=
        functions_append hnormal (by omega) happend
    _ = ((p ++ ·) <$> bounded functions) (TokenStream.ofTokens us) :=
        run_map_congr (functions_fuel (by omega) (by omega))

/-- The tokens of a program in front of any others: the functions of both are read, or the others
end in the error that they end in alone. -/
theorem parse_append {ts us : List (Located Token)} {p : Program} (h : parse ts = .ok p) :
    parse (ts ++ us) = (p ++ ·) <$> parse us := by
  by_cases hne : us = []
  · rw [hne, List.append_nil, h, show parse [] = .ok [] from rfl]
    exact congrArg Except.ok (List.append_nil p).symm
  · have hrun := bounded_functions_append h hne
    cases hus : bounded functions (TokenStream.ofTokens us) with
    | ok q s' =>
      rw [run_map_of_ok hus] at hrun
      rw [parse_eq, parse_eq, hrun, hus]
      rfl
    | error e s' =>
      rw [run_map_of_error hus] at hrun
      rw [parse_eq, parse_eq, hrun, hus]
      rfl

/-- `void f() { if (a) x; }` -/
def openIf : List (Located Token) := inOneLine [
  .type .void, .ident "f", .openParen, .closeParen, .openBrace,
  .kwIf, .openParen, .ident "a", .closeParen, .ident "x", .semicolon, .closeBrace]

def openIfTree : Program :=
  [⟨.void, ⟨"f", ⟨1, 2⟩⟩, [], [.ifThen (.var ⟨"a", ⟨1, 8⟩⟩) (.expr (.var ⟨"x", ⟨1, 10⟩⟩))]⟩]

/-- `else y; }`, on a line of its own -/
def strayElse : List (Located Token) := [
  ⟨.kwElse, ⟨2, 1⟩⟩, ⟨.ident "y", ⟨2, 6⟩⟩, ⟨.semicolon, ⟨2, 7⟩⟩, ⟨.closeBrace, ⟨2, 9⟩⟩]

/-- The `if` does not take the `else` that stands behind its function. -/
theorem parse_append_strayElse :
    parse openIf = .ok openIfTree ∧
      parse (openIf ++ strayElse) = (openIfTree ++ ·) <$> parse strayElse ∧
      parse strayElse = .error ⟨.expectedType .kwElse, ⟨2, 1⟩⟩ := by
  have h : parse openIf = .ok openIfTree := by cbv
  exact ⟨h, parse_append h, by cbv⟩

end MiniC.Surface
