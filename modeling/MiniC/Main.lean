import MiniC.Command.Run

/-!
# The command

Performs the actions of a run on the real machine. No other program is started there: Java is
reported as missing, and the written module is left for the caller to assemble.
-/

namespace MiniC

/-- The cause of a failed action. -/
def IoError.ofSystem : IO.Error → IoError
  | .noFileOrDirectory _ _ _ => .notFound
  | .inappropriateType _ code _ => if code = 20 then .notADirectory else .isADirectory
  | e => .other e.toString

def LogLevel.toNat : LogLevel → Nat
  | warn => 0
  | info => 1
  | debug => 2
  | trace => 3

def LogEvent.text : LogEvent → String
  | lexed tokens path => "lexed " ++ path ++ " tokens=" ++ toString tokens
  | parsed functions => "parsed functions=" ++ toString functions
  | validated => "validated"
  | wrote path => "wrote " ++ path

/-- The real machine, and how much is logged on it. -/
abbrev Machine := StateT LogLevel IO

instance : MonadHost Machine where
  readFile path := do
    match ← (IO.FS.readBinFile path).toBaseIO with
    | .ok content => return .ok content
    | .error e => return .error (.ofSystem e)
  writeFile path content := do
    match ← (IO.FS.writeBinFile path content).toBaseIO with
    | .ok () => return .ok ()
    | .error e => return .error (.ofSystem e)
  runJava _ := return .error .notFound
  startLog := set
  log event := do
    if event.level.toNat ≤ (← get).toNat then IO.eprintln event.text

/-- How the command is used. -/
def usageText : String :=
  "Usage: notc [OPTIONS] <SOURCE>\n\n" ++
  "Options:\n" ++
  "  -c, --class <NAME>   Name of the generated class\n" ++
  "  -o, --output <DIR>   Directory for the generated files [default: .]\n" ++
  "      --stage <STAGE>  Stop after lex, parse, validate or codegen\n" ++
  "      --jasmin <JAR>   Assemble the module with this jar\n" ++
  "  -v, --verbose        More logging\n" ++
  "  -h, --help           Print help\n" ++
  "  -V, --version        Print version\n"

end MiniC

open MiniC Command in
def main (args : List String) : IO UInt32 := do
  match ← (run (m := Machine) Options.ofArgs args).run' .warn with
  | .usage =>
    IO.eprint usageText
    return 2
  | .help =>
    IO.print usageText
    return 0
  | .version =>
    IO.print versionText
    return 0
  | .exit code diagnostics =>
    IO.eprint diagnostics
    return code.toUInt32
