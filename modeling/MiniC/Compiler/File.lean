import MiniC.Compiler.Basic
import MiniC.Host.Basic

/-!
# Compiling a file
-/

namespace MiniC.Compiler

open MonadHost

variable {m : Type → Type} [Monad m] [MonadHost m]

/-- The text of a file. -/
def readText (path : String) : ExceptT (Failure Error) m String := do
  match ← readFile (m := m) path with
  | .error e => throw (.error (.io e))
  | .ok content =>
    match String.fromUTF8? content with
    | none => throw (.error (.io .invalidData))
    | some text => return text

def writeText (path text : String) : ExceptT (Failure Error) m Unit := do
  match ← writeFile (m := m) path text.toUTF8 with
  | .error e => throw (.error (.io e))
  | .ok () => return ()

/-- Where the module of a class is written. -/
def Config.outputPath (config : Config) : String :=
  Path.join config.outputDir (config.className ++ ".j")

/-- Writes the module of an accepted program, whose path is the result. -/
def writeModule (config : Config) (p : Core.Program) :
    ExceptT (Failure Error) m (Option String) := do
  let code ← generate config.className p
  writeText config.outputPath code.text
  log (m := m) (.wrote config.outputPath)
  return some config.outputPath

/-- Compiles the source text of the file at `path`. There is no result if the compilation stops
before it writes a module. -/
def compileText (path : String) (config : Config) (source : String) :
    ExceptT (Failure Error) m (Option String) := do
  let ts ← lex source
  log (m := m) (.lexed ts.length path)
  if config.stage = some .lex then return none
  let p ← parse ts
  log (m := m) (.parsed p.length)
  if config.stage = some .parse then return none
  let q ← check p
  log (m := m) .validated
  if config.stage = some .validate then return none
  writeModule config q

/-- Compiles the file at `path` and writes its module. Nothing is written unless every stage
succeeds. -/
def compileFile (path : String) (config : Config) :
    ExceptT (Failure Error) m (Option String) := do
  let () ← ((checkClassName config.className).mapError .error : Result Unit)
  let source ← readText path
  compileText path config source

end MiniC.Compiler
