import MiniC.Command.Options
import MiniC.Compiler.File

/-!
# A run of the command

Compiles one source file, and hands the module to the assembler if its path is given and no stage
is named to stop at. What went wrong is told on the standard error stream and by the exit code. How
arguments are read as options is a parameter of a run.
-/

namespace MiniC.Command

open Compiler

/-- How a run ends. -/
inductive Reply where
  | usage
  | help
  | version
  /-- With an exit code and what is written to the standard error stream, the log apart. -/
  | exit (code : Nat) (diagnostics : String)
deriving Repr, DecidableEq

def exitSyntax : Nat := 1

def exitSemantic : Nat := 2

def exitIo : Nat := 3

def exitAssembler : Nat := 4

/-- The exit code of a run that ends by a fault. -/
def exitFault : Nat := 101

/-- The exit code that tells about an error. -/
def exitCode (e : Error) : Nat :=
  if e.isSyntax then exitSyntax else if e.isSemantic then exitSemantic else exitIo

/-- The settings that the options ask for. -/
def Options.config (o : Options) : Except Error Config := do
  let className ←
    match o.className with
    | some name =>
      checkClassName name
      pure name
    | none => pure (← Config.ofPath o.source).className
  return { className, outputDir := o.outputDir, stage := o.stage }

variable {m : Type → Type} [Monad m] [MonadHost m]

/-- Assembles the module at `path`. -/
def assemble (path jar outputDir : String) : m Reply := do
  match ← MonadHost.runJava ["-jar", jar, "-d", outputDir, path] with
  | .error e => return .exit exitAssembler ("error: failed to run java: " ++ e.text ++ "\n")
  | .ok status =>
    if status = .success then return .exit 0 ""
    else return .exit exitAssembler ("error: jasmin exited with " ++ status.text ++ "\n")

/-- How much is logged if the option for more is given `verbose` times. -/
def logLevel (verbose : Nat) : LogLevel :=
  match verbose with
  | 0 => .warn
  | 1 => .info
  | 2 => .debug
  | _ => .trace

/-- A run with the given options. -/
def runWith (o : Options) : m Reply := do
  MonadHost.startLog (logLevel o.verbose)
  match o.config with
  | .error e => return .exit exitIo ("error: " ++ e.message ++ "\n")
  | .ok config =>
    match ← compileFile o.source config with
    | .error (.error e) => return .exit (exitCode e) (o.source ++ ": " ++ e.message ++ "\n")
    | .error (.fault f) => return .exit exitFault (f.text ++ "\n")
    | .ok written =>
      match written, o.assembler, config.stage with
      | some path, some jar, none => assemble path jar config.outputDir
      | _, _, _ => return .exit 0 ""

/-- A run with the given arguments, which `read` reads as options. -/
def run (read : List String → Except Stop Options) (args : List String) : m Reply :=
  match read args with
  | .error .usage => return .usage
  | .error .help => return .help
  | .error .version => return .version
  | .ok o => runWith o

/-- What the command answers when asked for its version. -/
def versionText : String := "notc 0.1.0\n"

end MiniC.Command
