import MiniC.Surface.Basic
import MiniC.Surface.TokenStream

/-!
# From tokens to a program

A recursive-descent parser. Binary operators are read by precedence climbing: `climb least left`
extends `left` by operators that bind at least as tightly as `least`. All of them group to the
left except assignment, which groups to the right and takes a variable on its left.

## Termination

The mutually recursive readers count down a fuel that the callers never see: `bounded` gives twice
the number of unread tokens and one more. Every round through the recursion reads a token, so the
fuel is spent only where the tokens are, too, and then a token is missing.
-/

namespace MiniC.Surface

open MiniC.Parser

/-- Runs `p` with enough fuel for all unread tokens. -/
def bounded {α : Type} (p : Nat → Parser α) : Parser α := fun s => p (2 * s.rest.length + 1) s

/-! ## Lists in parentheses -/

/-- One or more items with commas between them, up to and including the closing parenthesis. -/
def commaList {α : Type} (item : Parser α) : Nat → Parser (List α)
  | 0 => missing
  | fuel + 1 => do
    let x ← item
    let t ← any
    match t.value with
    | .comma => return x :: (← commaList item fuel)
    | .closeParen => return [x]
    | _ => throw ⟨.expectedSeparator, t.pos⟩

/-- A possibly empty list of items behind an opening parenthesis. -/
def items {α : Type} (item : Parser α) : Parser (List α) := do
  if ← accept .closeParen then return []
  else bounded (commaList item)

/-! ## Expressions -/

/-- The variable behind `++` or `--`: a factor that must be one. -/
def stepTarget (factor : Parser Expr) : Parser Name := do
  let pos ← nextPos
  match ← factor with
  | .var x => return x
  | _ => throw ⟨.notAssignable, pos⟩

/-- The expression that starts with the token `t`, without a step behind it. -/
def atom (factor expr : Parser Expr) (t : Located Token) : Parser Expr :=
  match t.value with
  | .increment => return .step .preIncrement (← stepTarget factor)
  | .decrement => return .step .preDecrement (← stepTarget factor)
  | .const c => return .const ⟨c, t.pos⟩
  | .minus => return .negate t.pos (← factor)
  | .openParen => do
    let e ← expr
    let _ ← expect .closeParen
    return .paren e
  | .ident x => do
    if ← accept .openParen then return .call ⟨x, t.pos⟩ (← items expr)
    else return .var ⟨x, t.pos⟩
  | other => throw ⟨.expectedExpression other, t.pos⟩

/-- An atom and the step that may follow it. -/
def stepBehind (e : Expr) : Parser Expr := do
  match ← nextIf fun t => t = .increment || t = .decrement with
  | none => return e
  | some t =>
    match e.target? with
    | none => throw ⟨.notAssignable, t.pos⟩
    | some x => return .step (if t.value = .increment then .postIncrement else .postDecrement) x

/-- Reads a binary operator that binds at least as tightly as `least`. -/
def operator? (least : Nat) : Parser (Option (Located BinaryOp)) := fun s =>
  match s.rest with
  | [] => .ok none s
  | t :: rest =>
    match t.value.binaryOp? with
    | none => .ok none s
    | some op =>
      if least ≤ op.precedence then .ok (some ⟨op, t.pos⟩) { s with rest } else .ok none s

mutual

/-- A factor: an atom with its signs and steps. -/
def factor : Nat → Parser Expr
  | 0 => missing
  | fuel + 1 => do
    let t ← any
    let e ← atom (factor fuel) (expr fuel 0) t
    stepBehind e

/-- An expression of operators that bind at least as tightly as `least`. -/
def expr : Nat → Nat → Parser Expr
  | 0, _ => missing
  | fuel + 1, least => do
    let left ← factor fuel
    climb fuel least left

/-- Extends `left` by the operators that follow it. -/
def climb : Nat → Nat → Expr → Parser Expr
  | 0, _, left => return left
  | fuel + 1, least, left => do
    match ← operator? least with
    | none => return left
    | some op =>
      if op.value = .assign then
        match left.target? with
        | none => throw ⟨.notAssignable, left.pos⟩
        | some x =>
          let e ← expr fuel op.value.precedence
          climb fuel least (.assign x e)
      else
        let right ← expr fuel (op.value.precedence + 1)
        climb fuel least (.binary op left right)

end

/-- A whole expression. -/
def expression : Parser Expr := bounded fun fuel => expr fuel 0

/-! ## Statements -/

/-- An expression in parentheses. -/
def condition : Parser Expr := do
  let _ ← expect .openParen
  let e ← expression
  let _ ← expect .closeParen
  return e

/-- An expression that may be left out, and the token behind it. -/
def optionalExpression (stop : Token) : Parser (Option Expr) := do
  if ← accept stop then return none
  else
    let e ← expression
    let _ ← expect stop
    return some e

/-- The further names of a declaration. -/
def moreNames : Nat → Parser (List Name)
  | 0 => return []
  | fuel + 1 => do
    if ← accept .comma then
      let x ← identifier
      return x :: (← moreNames fuel)
    else return []

/-- A declaration of variables. -/
def declaration : Parser Stmt := do
  let ty ← typeName
  let x ← identifier
  if ← accept .equal then
    let e ← expression
    let _ ← expect .semicolon
    return .init ty x e
  else
    let xs ← bounded moreNames
    let _ ← expect .semicolon
    return .declare ty (x :: xs)

/-- The statement that starts with the token `t`, which is still unread. -/
def statementAt (statement : Parser Stmt) (block : Parser (List Stmt)) (t : Token) : Parser Stmt :=
  match t with
  | .type _ => declaration
  | .kwReturn => do
    let pos ← expect .kwReturn
    return .ret pos (← optionalExpression .semicolon)
  | .openBrace => return .block (← block)
  | .kwIf => do
    let _ ← any
    let c ← condition
    let thenBranch ← statement
    if ← accept .kwElse then return .ifElse c thenBranch (← statement)
    else return .ifThen c thenBranch
  | .kwWhile => do
    let _ ← any
    let c ← condition
    return .whileLoop c (← statement)
  | .kwFor => do
    let _ ← any
    let _ ← expect .openParen
    let init ← optionalExpression .semicolon
    let c ← optionalExpression .semicolon
    let step ← optionalExpression .closeParen
    return .forLoop init c step (← statement)
  | _ => do
    let e ← expression
    let _ ← expect .semicolon
    return .expr e

mutual

def statement : Nat → Parser Stmt
  | 0 => missing
  | fuel + 1 => do
    let t ← peek
    statementAt (statement fuel) (do let _ ← expect .openBrace; statements fuel) t

/-- The statements up to and including the closing brace. -/
def statements : Nat → Parser (List Stmt)
  | 0 => missing
  | fuel + 1 => do
    if (← peek) = .closeBrace then
      let _ ← any
      return []
    else
      let s ← statement fuel
      return s :: (← statements fuel)

end

/-- Statements between braces. -/
def block : Parser (List Stmt) := do
  let _ ← expect .openBrace
  bounded statements

/-! ## Functions and programs -/

def param : Parser Param := do
  let ty ← typeName
  let name ← identifier
  return { ty, name }

def function : Parser Function := do
  let ret ← typeName
  let name ← identifier
  let _ ← expect .openParen
  let params ← items param
  let body ← block
  return { ret, name, params, body }

/-- Functions up to the end of the input. -/
def functions : Nat → Parser Program
  | 0 => return []
  | fuel + 1 => do
    if (← get).isEmpty then return []
    else
      let f ← function
      return f :: (← functions fuel)

/-- The program that the tokens spell, all of them. -/
def parse (ts : List (Located Token)) : Except ParseError Program :=
  match bounded functions (TokenStream.ofTokens ts) with
  | .ok p s => if s.isEmpty then .ok p else .error ⟨.extraTokens, s.pos⟩
  | .error e _ => .error e

end MiniC.Surface
