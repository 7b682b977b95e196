import MiniC.Constant
import MiniC.Operator
import MiniC.Source.Located

/-!
# Tokens
-/

namespace MiniC

/-- The words of the language. -/
inductive Token where
  | type (t : Ty)
  | kwIf
  | kwElse
  | kwWhile
  | kwFor
  | kwReturn
  | const (c : Constant)
  | ident (x : String)
  | openParen
  | closeParen
  | openBrace
  | closeBrace
  | semicolon
  | comma
  | plus
  | minus
  | star
  | slash
  | percent
  | increment
  | decrement
  | andAnd
  | orOr
  | equalEqual
  | notEqual
  | less
  | greater
  | lessEqual
  | greaterEqual
  | equal
deriving Repr, DecidableEq

namespace Token

/-- The token as diagnostics show it. -/
def text : Token → String
  | type t => t.text
  | kwIf => "if"
  | kwElse => "else"
  | kwWhile => "while"
  | kwFor => "for"
  | kwReturn => "return"
  | const c => c.text
  | ident x => x
  | openParen => "("
  | closeParen => ")"
  | openBrace => "\x7b"
  | closeBrace => "\x7d"
  | semicolon => ";"
  | comma => ","
  | plus => "+"
  | minus => "-"
  | star => "*"
  | slash => "/"
  | percent => "%"
  | increment => "++"
  | decrement => "--"
  | andAnd => "&&"
  | orOr => "||"
  | equalEqual => "=="
  | notEqual => "!="
  | less => "<"
  | greater => ">"
  | lessEqual => "<="
  | greaterEqual => ">="
  | equal => "="

/-- The binary operator that the token spells. -/
def binaryOp? : Token → Option BinaryOp
  | plus => some .add
  | minus => some .sub
  | star => some .mul
  | slash => some .div
  | percent => some .rem
  | less => some .lt
  | greater => some .gt
  | lessEqual => some .le
  | greaterEqual => some .ge
  | equalEqual => some .eq
  | notEqual => some .ne
  | andAnd => some .and
  | orOr => some .or
  | equal => some .assign
  | _ => none

end Token

end MiniC
