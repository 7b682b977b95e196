import MiniC.Token.Basic

/-!
# Reading tokens

A `TokenStream` holds the tokens that are still to be read, and the position of the last token of
all, which stands for the end of the input. Parsers are stateful readers of such a stream. An
operation that meets the wrong token has read it when it fails.
-/

namespace MiniC

/-- What can be wrong with a sequence of tokens as a program. -/
inductive ParseProblem where
  | endOfInput
  | expectedIdentifier (got : Token)
  | expectedToken (expected got : Token)
  | expectedType (got : Token)
  | expectedExpression (got : Token)
  | expectedSeparator
  | notAssignable
  | extraTokens
deriving Repr, DecidableEq

def ParseProblem.text : ParseProblem → String
  | endOfInput => "unexpected end of input"
  | expectedIdentifier got => "expected identifier, got " ++ got.text
  | expectedToken expected got => "expected " ++ expected.text ++ ", got " ++ got.text
  | expectedType got => "expected type, got " ++ got.text
  | expectedExpression got => "expected expression, got " ++ got.text
  | expectedSeparator => "expected ',' or ')'"
  | notAssignable => "only variables can be assigned or incremented"
  | extraTokens => "unexpected tokens after last function"

abbrev ParseError := Located ParseProblem

def ParseError.message (e : ParseError) : String := e.pos.text ++ ": " ++ e.value.text

/-- The unread tokens, and where the input ends. -/
structure TokenStream where
  rest : List (Located Token)
  stop : Pos
deriving Repr, DecidableEq

/-- Readers of tokens. -/
abbrev Parser := EStateM ParseError TokenStream

namespace TokenStream

/-- All of `ts`. The input ends where its last token starts. -/
def ofTokens (ts : List (Located Token)) : TokenStream :=
  ⟨ts, (ts.getLast?.map Located.pos).getD Pos.nowhere⟩

def isEmpty (s : TokenStream) : Bool := s.rest.isEmpty

/-- The next token, left unread. -/
def peek? (s : TokenStream) : Option Token := s.rest.head?.map Located.value

/-- The position of the next token, or the end of the input. -/
def pos (s : TokenStream) : Pos := (s.rest.head?.map Located.pos).getD s.stop

end TokenStream

namespace Parser

open EStateM (Result)

/-- Fails because a token is missing. -/
def missing {α : Type} : Parser α := fun s => .error ⟨.endOfInput, s.stop⟩ s

/-- Reads one token, if any is left. -/
def next? : Parser (Option (Located Token)) := fun s =>
  match s.rest with
  | [] => .ok none s
  | t :: rest => .ok (some t) { s with rest }

/-- Reads one token. -/
def any : Parser (Located Token) := fun s =>
  match s.rest with
  | [] => missing s
  | t :: rest => .ok t { s with rest }

/-- The next token, left unread. -/
def peek : Parser Token := fun s =>
  match s.rest with
  | [] => missing s
  | t :: _ => .ok t.value s

/-- Where the next token stands. -/
def nextPos : Parser Pos := fun s => .ok s.pos s

/-- Reads one token if it satisfies `p`. -/
def nextIf (p : Token → Bool) : Parser (Option (Located Token)) := fun s =>
  match s.rest with
  | [] => .ok none s
  | t :: rest => if p t.value then .ok (some t) { s with rest } else .ok none s

/-- Reads the token `t` if it comes next, and says whether it did. -/
def accept (t : Token) : Parser Bool := do
  return (← nextIf (· = t)).isSome

/-- Reads the token `t`, and gives its position. -/
def expect (t : Token) : Parser Pos := do
  let got ← any
  if got.value = t then return got.pos
  else throw ⟨.expectedToken t got.value, got.pos⟩

/-- Reads an identifier. -/
def identifier : Parser Name := do
  let got ← any
  match got.value with
  | .ident x => return ⟨x, got.pos⟩
  | t => throw ⟨.expectedIdentifier t, got.pos⟩

/-- Reads the name of a type. -/
def typeName : Parser Ty := do
  let got ← any
  match got.value with
  | .type t => return t
  | t => throw ⟨.expectedType t, got.pos⟩

end Parser

end MiniC
