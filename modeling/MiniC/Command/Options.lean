import MiniC.Compiler.Basic

/-!
# Command-line options

Arguments are read from left to right, and the first that settles the outcome does: a request for
help or for the version, or a misuse. Options come in a long and partly in a short form. A value
stands behind `=`, or directly behind a short option, or in the next argument, which then must not
look like an option itself. Short options may share a dash. `--` makes all that follows positional.
-/

namespace MiniC.Command

open Compiler (Stage)

/-- What the arguments of a run ask for. -/
structure Options where
  source : String
  className : Option String
  outputDir : String
  stage : Option Stage
  /-- The path of the assembler. -/
  assembler : Option String
  verbose : Nat
deriving Repr, DecidableEq

/-- Why there are no options: the arguments ask for something else, or are misused. -/
inductive Stop where
  | help
  | version
  | usage
deriving Repr, DecidableEq

/-- The options that take a value. -/
inductive Setting where
  | className
  | outputDir
  | stage
  | assembler
deriving Repr, DecidableEq

/-- The options that take none. -/
inductive Flag where
  | verbose
  | help
  | version
deriving Repr, DecidableEq

/-- What the arguments so far have set. -/
structure Draft where
  source : Option String
  className : Option String
  outputDir : Option String
  stage : Option Stage
  assembler : Option String
  verbose : Nat
deriving Repr, DecidableEq

namespace Draft

def empty : Draft := ⟨none, none, none, none, none, 0⟩

def stage? (s : String) : Option Stage :=
  if s = "lex" then some .lex
  else if s = "parse" then some .parse
  else if s = "validate" then some .validate
  else if s = "codegen" then some .codegen
  else none

/-- A value of an option that may be given once. -/
def once {α : Type} (old new : Option α) : Except Stop (Option α) :=
  if old.isSome || new.isNone then .error .usage else .ok new

/-- A path, which may not be empty. -/
def path? (s : String) : Option String := if s = "" then none else some s

def set (d : Draft) (value : String) : Setting → Except Stop Draft
  | .className => return { d with className := ← once d.className (some value) }
  | .outputDir => return { d with outputDir := ← once d.outputDir (path? value) }
  | .stage => return { d with stage := ← once d.stage (stage? value) }
  | .assembler => return { d with assembler := ← once d.assembler (path? value) }

def raise (d : Draft) : Flag → Except Stop Draft
  | .verbose => .ok { d with verbose := d.verbose + 1 }
  | .help => .error .help
  | .version => .error .version

/-- An argument that is not an option. -/
def positional (d : Draft) (arg : String) : Except Stop Draft :=
  return { d with source := ← once d.source (path? arg) }

def finish (d : Draft) : Except Stop Options :=
  match d.source with
  | none => .error .usage
  | some source => .ok {
      source
      className := d.className
      outputDir := d.outputDir.getD "."
      stage := d.stage
      assembler := d.assembler
      verbose := d.verbose }

end Draft

def longSetting? (name : String) : Option Setting :=
  if name = "class" then some .className
  else if name = "output" then some .outputDir
  else if name = "stage" then some .stage
  else if name = "jasmin" then some .assembler
  else none

def longFlag? (name : String) : Option Flag :=
  if name = "verbose" then some .verbose
  else if name = "help" then some .help
  else if name = "version" then some .version
  else none

def shortSetting? (c : Char) : Option Setting :=
  if c = 'c' then some .className
  else if c = 'o' then some .outputDir
  else none

def shortFlag? (c : Char) : Option Flag :=
  if c = 'v' then some .verbose
  else if c = 'h' then some .help
  else if c = 'V' then some .version
  else none

/-- What an argument does: it completes, or it leaves a setting that waits for its value. -/
inductive Progress where
  | done (d : Draft)
  | waiting (d : Draft) (s : Setting)

/-- A long option, by what stands behind its two dashes. -/
def long (d : Draft) (arg : List Char) : Except Stop Progress :=
  let name := String.ofList (arg.takeWhile (· ≠ '='))
  let value := (arg.dropWhile (· ≠ '=')).tail
  let hasValue := arg.contains '='
  match longSetting? name, longFlag? name with
  | some s, _ =>
    if hasValue then return .done (← d.set (String.ofList value) s) else .ok (.waiting d s)
  | none, some f => if hasValue then .error .usage else return .done (← d.raise f)
  | none, none => .error .usage

/-- Short options, by what stands behind their dash. -/
def short (d : Draft) : List Char → Except Stop Progress
  | [] => .ok (.done d)
  | c :: cs =>
    match shortSetting? c, shortFlag? c with
    | some s, _ =>
      match cs with
      | [] => .ok (.waiting d s)
      | '=' :: value => return .done (← d.set (String.ofList value) s)
      | value => return .done (← d.set (String.ofList value) s)
    | none, some f => do short (← d.raise f) cs
    | none, none => .error .usage

/-- How an argument looks. -/
inductive Shape where
  | separator
  | long (body : List Char)
  | short (body : List Char)
  | plain

def shape (arg : String) : Shape :=
  match arg.toList with
  | ['-', '-'] => .separator
  | '-' :: '-' :: body => .long body
  | ['-'] => .plain
  | '-' :: body => .short body
  | _ => .plain

/-- Positional arguments only. -/
def readPositional (d : Draft) : List String → Except Stop Draft
  | [] => .ok d
  | arg :: args => do readPositional (← d.positional arg) args

/-- Reads arguments; `pending` waits for its value. -/
def read (d : Draft) (pending : Option Setting) : List String → Except Stop Draft
  | [] => if pending.isSome then .error .usage else .ok d
  | arg :: args =>
    match pending, shape arg with
    | some s, .plain => do read (← d.set arg s) none args
    | some _, _ => .error .usage
    | none, .plain => do read (← d.positional arg) none args
    | none, .separator => readPositional d args
    | none, .long body => do
      match ← long d body with
      | .done d => read d none args
      | .waiting d s => read d (some s) args
    | none, .short body => do
      match ← short d body with
      | .done d => read d none args
      | .waiting d s => read d (some s) args

/-- The options that the arguments spell. -/
def Options.ofArgs (args : List String) : Except Stop Options := do
  (← read .empty none args).finish

end MiniC.Command
