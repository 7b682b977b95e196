import MiniC.Core.Elaboration
import MiniC.Host.FileTree
import MiniC.Jvm.Module
import MiniC.Surface.Parser
import MiniC.Token.Lexer

/-!
# From source text to module text

The stages of a compilation, one after the other. Each stage works only on the result of the one
before it, and the first that fails decides the outcome.
-/

namespace MiniC.Compiler

/-- The stages after which a compilation may stop. -/
inductive Stage where
  | lex
  | parse
  | validate
  | codegen
deriving Repr, DecidableEq

/-- Settings of a compilation. -/
structure Config where
  className : String
  outputDir : String
  /-- Where to stop early. -/
  stage : Option Stage
deriving Repr, DecidableEq

/-- Why a compilation does not succeed. -/
inductive Error where
  | io (e : IoError)
  | invalidClassName (name : String)
  | lexing (e : LexError)
  | parsing (e : ParseError)
  | semantics (e : Core.CheckError)
deriving Repr, DecidableEq

namespace Error

def message : Error → String
  | io e => e.text
  | invalidClassName name => "invalid class name " ++ Text.quoted name
  | lexing e => "Lexing: " ++ LexError.message e
  | parsing e => "Parsing: " ++ ParseError.message e
  | semantics e => "Semantics: " ++ e.message

/-- Is the text not a program at all? -/
def isSyntax : Error → Bool
  | lexing _ | parsing _ => true
  | _ => false

/-- Is the program not accepted? -/
def isSemantic : Error → Bool
  | semantics _ => true
  | _ => false

end Error

/-- The outcome of a stage. -/
abbrev Result (α : Type) := Except (Failure Error) α

/-! ## Class names -/

/-- A class is named by a word: a letter or an underscore, then letters, digits and underscores. -/
def isClassName (name : String) : Bool :=
  match name.toByteArray.data.toList with
  | [] => false
  | b :: bs => Byte.isWordStart b && bs.all Byte.isWordPart

def checkClassName (name : String) : Except Error Unit :=
  if isClassName name then .ok () else .error (.invalidClassName name)

/-- The settings for the source file at `path`: the class is named after the file. -/
def Config.ofPath (path : String) : Except Error Config := do
  let className := Path.fileStem path
  checkClassName className
  return { className, outputDir := ".", stage := none }

/-! ## Stages -/

def lex (source : String) : Result (List (Located Token)) :=
  (tokenize source).mapError fun e => .error (.lexing e)

def parse (ts : List (Located Token)) : Result Surface.Program :=
  (Surface.parse ts).mapError fun e => .error (.parsing e)

def check (p : Surface.Program) : Result Core.Program :=
  (Core.checkProgram p).mapError fun
    | .error e => .error (.semantics e)
    | .fault f => .fault f

def generate (className : String) (p : Core.Program) : Result Jvm.Module :=
  (Jvm.generate className p).mapError .fault

/-- The accepted program that a text spells. -/
def checkedProgram (source : String) : Result Core.Program := do
  check (← parse (← lex source))

/-- The module of a text, for a class of any name. -/
def compileModule (className source : String) : Result Jvm.Module := do
  generate className (← checkedProgram source)

/-- The module text of a source text. -/
def compileSource (className source : String) : Result String := do
  (checkClassName className).mapError .error
  return (← compileModule className source).text

end MiniC.Compiler
