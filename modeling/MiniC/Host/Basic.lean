import MiniC.Host.FileTree

/-!
# What a run can do

The compiler reads and writes files, may start the assembler, and logs how far it has come.
`MonadHost` names these actions; what they do is up to the host. `Host` is one on which programs
can be run and compared: a tree of files, and a Java program that may do anything to it.
-/

namespace MiniC

/-- How a program that was started has ended. -/
inductive ExitStatus where
  | exited (code : Nat)
  /-- Stopped from outside, in the words of the operating system. -/
  | stopped (description : String)
deriving Repr, DecidableEq

namespace ExitStatus

def success : ExitStatus := exited 0

def text : ExitStatus → String
  | exited code => "exit status: " ++ toString code
  | stopped description => description

end ExitStatus

/-- How much is logged. -/
inductive LogLevel where
  | warn
  | info
  | debug
  | trace
deriving Repr, DecidableEq

/-- What a compilation logs. -/
inductive LogEvent where
  | lexed (tokens : Nat) (path : String)
  | parsed (functions : Nat)
  | validated
  | wrote (path : String)
deriving Repr, DecidableEq

/-- The least level at which an event is logged. -/
def LogEvent.level : LogEvent → LogLevel
  | wrote _ => .info
  | lexed _ _ | parsed _ | validated => .debug

/-- The actions of a run on its surroundings. -/
class MonadHost (m : Type → Type) where
  readFile : String → m (Except IoError ByteArray)
  writeFile : String → ByteArray → m (Except IoError Unit)
  /-- Starts Java with the given arguments, and waits for its end. -/
  runJava : List String → m (Except IoError ExitStatus)
  /-- Sets how much is logged, unless the surroundings ask for something else. -/
  startLog : LogLevel → m Unit
  log : LogEvent → m Unit

/-- The surroundings of a run as a value. -/
structure Host where
  files : FileTree
  /-- What the Java program does with its arguments and the files, if there is one. -/
  java : Option (List String → FileTree → ExitStatus × FileTree)
  /-- The arguments of the Java programs started so far, the latest first. -/
  javaRuns : List (List String)
  logLevel : LogLevel
  /-- What was logged, the latest first. -/
  logged : List LogEvent

instance : MonadHost (StateM Host) where
  readFile path := return (← get).files.read path
  writeFile path content := do
    let h ← get
    match h.files.write path content with
    | .error e => return .error e
    | .ok files =>
      set { h with files }
      return .ok ()
  runJava args := do
    let h ← get
    match h.java with
    | none => return .error .notFound
    | some java =>
      let (status, files) := java args h.files
      set { h with files, javaRuns := args :: h.javaRuns }
      return .ok status
  startLog logLevel := modify fun h => { h with logLevel }
  log event := modify fun h => { h with logged := event :: h.logged }

end MiniC
