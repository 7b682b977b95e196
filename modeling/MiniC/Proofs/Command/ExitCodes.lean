import MiniC.Command.Run
import MiniC.Proofs.Compiler.CallResolution
import MiniC.Proofs.Compiler.FileCompilation

/-!
# Exit codes

A run of the command compiles one file, and its exit code tells what came of it. The command looks
at the name of the class itself before the compilation does, and this makes no difference: whatever
the options ask for, files are left as the compilation leaves them, and a bad name is the same
error. The assembler is started only behind a complete compilation, and what it does then is its own
affair. How the arguments are read, and on what host, does not matter.
-/

namespace MiniC.Command

open Compiler

variable {σ φ : Type} [MonadHost (StateM σ)] [FileSystem φ] {files : σ → φ} {s : σ} {o : Options}

/-- The settings that the options ask for, whether or not the name of the class is one. -/
def Options.settings (o : Options) : Config :=
  ⟨o.className.getD (Path.fileStem o.source), o.outputDir, o.stage⟩

theorem Options.config_eq (o : Options) :
    o.config = do
      checkClassName o.settings.className
      return o.settings := by
  unfold Options.config Options.settings Config.ofPath
  cases o.className with
  | none =>
    dsimp only [Option.getD_none]
    cases checkClassName (Path.fileStem o.source) with
    | error e => rfl
    | ok u => rfl
  | some name =>
    dsimp only [Option.getD_some]
    cases checkClassName name with
    | error e => rfl
    | ok u => rfl

/-- The outcome of a run with the given options, and the host that it leaves. -/
def runOn (s : σ) (o : Options) : Reply × σ := act (runWith o) s

/-- The host on which a run compiles: how much is logged has been set. -/
def started (s : σ) (o : Options) : σ := afterStartLog s (logLevel o.verbose)

/-- What becomes of the assembler, and the host that it leaves. -/
def javaOn (s : σ) (o : Options) (out jar : String) : Except IoError ExitStatus × σ :=
  act (MonadHost.runJava ["-jar", jar, "-d", o.outputDir, out]) s

theorem runOn_of_not_isClassName (hname : isClassName o.settings.className = false) :
    runOn s o = (.exit exitIo
      ("error: " ++ (Error.invalidClassName o.settings.className).message ++ "\n"),
        started s o) := by
  unfold runOn runWith
  rw [act_bind, Options.config_eq, checkClassName, if_neg (Bool.eq_false_iff.mp hname)]
  rfl

theorem runOn_of_isClassName (hname : isClassName o.settings.className = true) :
    runOn s o =
      match compileOn (started s o) o.source o.settings with
      | (.error (.error e), s') =>
        (.exit (exitCode e) (o.source ++ ": " ++ e.message ++ "\n"), s')
      | (.error (.fault f), s') => (.exit exitFault (f.text ++ "\n"), s')
      | (.ok written, s') =>
        match written, o.assembler, o.stage with
        | some out, some jar, none => act (assemble out jar o.outputDir) s'
        | _, _, _ => (.exit 0 "", s') := by
  have hconfig : o.config = .ok o.settings := by
    rw [Options.config_eq, checkClassName, if_pos hname]
    rfl
  unfold runOn runWith
  rw [act_bind, hconfig]
  refine (act_bind (started s o) (compileFile o.source o.settings).run _).trans ?_
  rw [show act (compileFile o.source o.settings).run (started s o) =
    compileOn (started s o) o.source o.settings from rfl]
  generalize compileOn (started s o) o.source o.settings = outcome
  obtain ⟨r, s'⟩ := outcome
  rcases r with (e | f) | written
  · rfl
  · rfl
  · unfold Options.settings
    cases written with
    | none => rfl
    | some out =>
      cases o.assembler with
      | none => rfl
      | some jar => cases o.stage <;> rfl

/-! ## Laws of a run -/

section Laws

variable {r : Except (Failure Error) (Option String)} {compiled after : σ} {code : Nat}
  {diagnostics : String}

/-- Behind a compilation with the result `r`, the assembler at `jar` is given the module at
`out`. -/
def Assembles (o : Options) (r : Except (Failure Error) (Option String)) (out jar : String) :
    Prop :=
  r = .ok (some out) ∧ o.assembler = some jar ∧ o.stage = none

/-- Whom a diagnostic names: an invalid class name is not the fault of the source. -/
def culprit (o : Options) : Error → String
  | .invalidClassName _ => "error"
  | _ => o.source

/-- How the end of a run follows from the result of its compilation, from the host that this has
left, and from what became of the assembler, if it was started. The log is no part of the
diagnostics. -/
structure RunLaws (o : Options) (r : Except (Failure Error) (Option String)) (compiled : σ)
    (java : Option (Except IoError ExitStatus)) (code : Nat) (diagnostics : String) (after : σ) :
    Prop where
  /-- The assembler is started behind a complete compilation. -/
  assembled : ∀ out jar, Assembles o r out jar →
    ∃ outcome, java = some outcome ∧ javaOn compiled o out jar = (outcome, after)
  /-- Otherwise the host is left as the compilation has left it. -/
  unassembled : (¬∃ out jar, Assembles o r out jar) → java = none ∧ after = compiled
  success : code = 0 ↔
    (∃ w, r = .ok w) ∧ ∀ outcome, java = some outcome → outcome = .ok .success
  syntaxError : code = 1 ↔
    (∃ e, r = .error (.error (.lexing e))) ∨ ∃ e, r = .error (.error (.parsing e))
  semanticError : code = 2 ↔ ∃ e, r = .error (.error (.semantics e))
  ioError : code = 3 ↔
    (∃ e, r = .error (.error (.io e))) ∨ ∃ name, r = .error (.error (.invalidClassName name))
  assemblerError : code = 4 ↔ ∃ outcome, java = some outcome ∧ outcome ≠ .ok .success
  fault : code = 101 ↔ ∃ f, r = .error (.fault f)
  /-- Just a run that succeeds has nothing to tell. -/
  silent : diagnostics = "" ↔ code = 0
  told : ∀ e, r = .error (.error e) → diagnostics = culprit o e ++ ": " ++ e.message ++ "\n"
  toldMissing : ∀ e, java = some (.error e) →
    diagnostics = "error: failed to run java: " ++ e.text ++ "\n"
  toldFailed : ∀ status, java = some (.ok status) → status ≠ .success →
    diagnostics = "error: jasmin exited with " ++ status.text ++ "\n"

/-- A failed compilation shows in the exit code of its kind and in the diagnostics. -/
theorem runLaws_error (e : Error) :
    RunLaws o (.error (.error e)) compiled none (exitCode e)
      (culprit o e ++ ": " ++ e.message ++ "\n") compiled := by
  constructor
  all_goals
    cases e <;> simp [exitCode, Error.isSyntax, Error.isSemantic, exitSyntax, exitSemantic, exitIo,
      Assembles]

theorem runLaws_fault (f : Fault) :
    RunLaws o (.error (.fault f)) compiled none exitFault (f.text ++ "\n") compiled := by
  constructor <;> simp [exitFault, Assembles]

theorem runLaws_ok {w : Option String} (hw : ¬∃ out jar, Assembles o (.ok w) out jar) :
    RunLaws o (.ok w) compiled none 0 "" compiled := by
  constructor <;> simp_all

theorem act_assemble {out jar : String} {outcome : Except IoError ExitStatus}
    (hjava : javaOn compiled o out jar = (outcome, after)) :
    act (assemble out jar o.outputDir) compiled =
      match outcome with
      | .error e => (.exit exitAssembler ("error: failed to run java: " ++ e.text ++ "\n"), after)
      | .ok status =>
        if status = .success then (.exit 0 "", after)
        else
          (.exit exitAssembler ("error: jasmin exited with " ++ status.text ++ "\n"), after) := by
  unfold javaOn at hjava
  unfold assemble
  rw [act_bind, hjava]
  cases outcome with
  | error e => rfl
  | ok status =>
    dsimp only
    split <;> rfl

/-- Where an assembler is given and no stage, its run decides how the command ends. -/
theorem runLaws_assembled {out jar : String} (hjar : o.assembler = some jar)
    (hstage : o.stage = none) : ∃ java code diagnostics after,
      act (assemble out jar o.outputDir) compiled = (.exit code diagnostics, after) ∧
        RunLaws o (.ok (some out)) compiled java code diagnostics after := by
  have hassembles : ∀ out' jar',
      Assembles o (.ok (some out)) out' jar' ↔ out = out' ∧ jar = jar' := by
    simp [Assembles, hjar, hstage]
  rcases hjava : javaOn compiled o out jar with ⟨outcome, after⟩
  rw [act_assemble hjava]
  rcases outcome with e | status
  · refine ⟨some (.error e), _, _, _, rfl, ?_⟩
    constructor <;> simp [exitAssembler, hassembles, hjava]
  · dsimp only
    split
    · next hstatus =>
      subst hstatus
      refine ⟨some (.ok .success), _, _, _, rfl, ?_⟩
      constructor <;> simp [hassembles, hjava]
    · next hstatus =>
      refine ⟨some (.ok status), _, _, _, rfl, ?_⟩
      constructor <;> simp [exitAssembler, hassembles, hjava, hstatus]

end Laws

/-- A name that the compilation finds invalid has been so before. -/
theorem not_isClassName_of_compileOn (hfiles : KeepsFiles files) {name : String}
    (hr : (compileOn s o.source o.settings).1 = .error (.error (.invalidClassName name))) :
    isClassName o.settings.className = false := by
  rcases (failed_iff hfiles _).mp hr with hname | _ | ⟨_, _, hf⟩ | _
  · exact hname
  · cases hf

/-- A compilation under a name that is none does nothing. -/
theorem compileOn_of_not_isClassName (hname : isClassName o.settings.className = false) :
    compileOn s o.source o.settings =
      (.error (.error (.invalidClassName o.settings.className)), s) := by
  unfold compileOn compileFile checkClassName
  rw [if_neg (Bool.eq_false_iff.mp hname)]
  rfl

theorem exists_runLaws (hfiles : KeepsFiles files) (s : σ) (o : Options) :
    ∃ java code diagnostics after, runOn s o = (.exit code diagnostics, after) ∧
      RunLaws o (compileOn (started s o) o.source o.settings).1
        (compileOn (started s o) o.source o.settings).2 java code diagnostics after := by
  cases hname : isClassName o.settings.className with
  | false =>
    rw [runOn_of_not_isClassName hname, compileOn_of_not_isClassName hname]
    exact ⟨none, _, _, _, rfl, runLaws_error (.invalidClassName _)⟩
  | true =>
    have hvalid : ∀ name, (compileOn (started s o) o.source o.settings).1 ≠
        .error (.error (.invalidClassName name)) := by
      intro name hr
      rw [not_isClassName_of_compileOn hfiles hr] at hname
      cases hname
    rw [runOn_of_isClassName hname]
    generalize compileOn (started s o) o.source o.settings = outcome at hvalid ⊢
    obtain ⟨r, compiled⟩ := outcome
    rcases r with (e | f) | w
    · have hculprit : culprit o e = o.source := by
        cases e with
        | invalidClassName name => exact absurd rfl (hvalid name)
        | _ => rfl
      refine ⟨none, _, _, _, rfl, ?_⟩
      rw [← hculprit]
      exact runLaws_error e
    · exact ⟨none, _, _, _, rfl, runLaws_fault f⟩
    · dsimp only
      split
      · next hjar hstage => exact runLaws_assembled hjar hstage
      · next hw =>
        refine ⟨none, _, _, _, rfl, runLaws_ok ?_⟩
        rintro ⟨out, jar, hout, hjar, hstage⟩
        exact hw out jar (Except.ok.inj hout) hjar hstage

/-- A file is compiled as its text is, step by step up to the first that fails, and no file is
changed unless all succeed; a run of the command tells by its exit code which step it was, and
starts the assembler behind a complete compilation only. This holds on every host that keeps files,
whatever fails there, and for all options, however they were read. -/
theorem command_follows_compilation (hfiles : KeepsFiles files) (s : σ) :
    (∀ path config, FileLaws files s path config) ∧
      ∀ (read : List String → Except Stop Options) args o, read args = .ok o →
        files (started s o) = files s ∧
        ∃ java code diagnostics after, act (run read args) s = (.exit code diagnostics, after) ∧
          RunLaws o (compileOn (started s o) o.source o.settings).1
            (compileOn (started s o) o.source o.settings).2 java code diagnostics after := by
  refine ⟨fileLaws hfiles s, ?_⟩
  intro read args o ho
  have hrun : act (run read args) s = runOn s o := by
    unfold run
    rw [ho]
    rfl
  rw [hrun]
  exact ⟨hfiles.startLog_files s _, exists_runLaws hfiles s o⟩

/-- Options that ask for the class `Main` in the directory `out`. -/
def intoOut : Options := ⟨"forging.nc", some "Main", "out", none, none, 1⟩

/-- A run that compiles leaves the source where it was, and writes the module. -/
theorem command_follows_compilation_forging :
    ∃ text after, compileSource "Main" forging = .ok text ∧
      act (run (fun _ => .ok intoOut) [])
        (PlainFiles.none.put "forging.nc" forging.toUTF8) = (.exit 0 "", after) ∧
      after "out/Main.j" = some text.toUTF8 ∧ after "forging.nc" = some forging.toUTF8 := by
  obtain ⟨text, htext⟩ := compileSource_forging
  obtain ⟨hfile, hrun⟩ := command_follows_compilation PlainFiles.keepsFiles
    (PlainFiles.none.put "forging.nc" forging.toUTF8)
  obtain ⟨-, java, code, diagnostics, after, hact, laws⟩ := hrun (fun _ => .ok intoOut) [] _ rfl
  have hlaws := hfile intoOut.source intoOut.settings
  have hwritten := (hlaws.written (.inl rfl)).mpr ⟨by decide, forging, text, _, rfl, htext, rfl⟩
  have hnone : ¬∃ out jar, Assembles intoOut (compileOn (PlainFiles.none.put "forging.nc"
      forging.toUTF8) intoOut.source intoOut.settings).1 out jar := by
    rintro ⟨out, jar, -, hjar, -⟩
    cases hjar
  obtain ⟨rfl, rfl⟩ := laws.unassembled hnone
  obtain rfl : code = 0 := laws.success.mpr ⟨⟨_, hwritten⟩, nofun⟩
  obtain rfl : diagnostics = "" := laws.silent.mpr rfl
  obtain ⟨-, -, source, text', ⟨p, hp, hsource⟩, htext', q, hq, hout, hothers⟩ :=
    hlaws.onlyWrites _ hwritten
  obtain rfl : "forging.nc" = p := Option.some.inj hp
  obtain rfl : "out/Main.j" = q := Option.some.inj hq
  have hforging : source = forging := by
    have hbytes : forging.toUTF8 = source.toUTF8 := Option.some.inj hsource
    have hread := congrArg String.fromUTF8? hbytes
    rw [fromUTF8?_toUTF8, fromUTF8?_toUTF8] at hread
    exact (Option.some.inj hread).symm
  subst hforging
  have hne : ("forging.nc" : String) ≠ "out/Main.j" := by decide
  exact ⟨text', _, htext', hact, hout, hothers "forging.nc" hne⟩

end MiniC.Command
