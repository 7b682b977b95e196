import MiniC.Proofs.Jvm.Disassembly
import MiniC.Proofs.Token.LexerComplete

/-!
# String constants are literals

The operand of the instruction that loads a string is written as a literal of the source language.
As a source text of its own it is one token, and this token is the string.

Escaping goes by characters and the lexer by bytes. Both meet in `Decodes`: what a character is
escaped to denotes the bytes of the character, and a literal is whatever denotes the bytes of a
text.
-/

namespace MiniC

open Byte

/-- A text that is one lexeme is one token, at the start. -/
theorem Token.tokenize_readAs {source : String} {b : UInt8} {more : List UInt8} {t : Token}
    (hsource : ofText source = b :: more) (hread : ReadAs b more [] t) :
    tokenize source = .ok [⟨t, Pos.start⟩] := by
  have hrest : (Cursor.ofString source).rest = [] ++ (b :: (more ++ [])) := by
    rw [List.nil_append, List.append_nil]
    exact hsource
  have hnothing : ∀ p, tokensFrom ⟨[], p⟩ = .ok [] := fun p => tokensFrom_done .nil
  have hstep := tokensFrom_readAs hrest .nil hread
  rw [hnothing] at hstep
  exact hstep

namespace Jvm.Instruction

/-- The bytes of a string constant: its escaped characters between two quotes. -/
theorem ofText_stringLiteral (s : String) :
    ofText (stringLiteral s) =
      ascii '"' :: (ofText (String.ofList (s.toList.flatMap escapeChar)) ++ [ascii '"']) := by
  have hquote : String.utf8EncodeChar '"' = [ascii '"'] := utf8EncodeChar_of_lt (by decide)
  rw [stringLiteral, ofText_ofList, ofText_ofList, List.flatMap_append, List.flatMap_cons,
    List.flatMap_singleton, hquote]
  rfl

/-- What is written behind `ldc` for a string stands on one line, and is read as one token, which is
the string. -/
theorem tokenize_stringLiteral (s : String) :
    (sconst s).text = "ldc " ++ stringLiteral s ∧ '\n' ∉ (stringLiteral s).toList ∧
      tokenize (stringLiteral s) = .ok [⟨.const (.string s), ⟨1, 1⟩⟩] := by
  have hbody : Decodes (ofText (String.ofList (s.toList.flatMap escapeChar))) (ofText s) := by
    have h := decodes_escaped s.toList
    rwa [String.ofList_toList] at h
  exact ⟨rfl, oneLine_stringLiteral s,
    Token.tokenize_readAs (ofText_stringLiteral s) (Token.literal_readAs hbody)⟩

end Jvm.Instruction

end MiniC
