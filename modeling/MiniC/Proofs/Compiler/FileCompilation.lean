import MiniC.Compiler.File
import MiniC.Proofs.Compiler.Faults
import MiniC.Proofs.Host.FileSystem

/-!
# Compiling a file

A compilation of a file performs its steps in a fixed order: it looks at the name of the class,
reads the source, goes through the phases up to the stage where it is to stop, and writes the
module. The first step that fails decides the outcome, and then the files are left as they were; a
step that is not performed cannot fail. With all phases the text that is written is that of
`compileSource`. All this holds on every host that keeps files.
-/

namespace MiniC.Compiler

open MiniC.Core (checkProgram)

/-! ## Actions on a host -/

section Actions

variable {σ φ α β : Type} {s : σ}

/-- The outcome of an action on a host, and the host that it leaves. -/
def actOn (s : σ) (x : ExceptT (Failure Error) (StateM σ) α) : Except (Failure Error) α × σ :=
  act x.run s

/-- A failure ends the run, and the host stays as the failing action left it. -/
theorem actOn_bind (s : σ) (x : ExceptT (Failure Error) (StateM σ) α)
    (k : α → ExceptT (Failure Error) (StateM σ) β) :
    actOn s (x >>= k) =
      match actOn s x with
      | (.error e, s') => (.error e, s')
      | (.ok a, s') => actOn s' (k a) := by
  unfold actOn act
  rw [ExceptT.run_bind, StateT.run_bind]
  generalize x.run.run s = outcome
  obtain ⟨r, s'⟩ := outcome
  cases r with
  | error e => rfl
  | ok a => rfl

theorem actOn_liftM (s : σ) (x : StateM σ α) :
    actOn s (liftM x) = (.ok (act x s).1, (act x s).2) := rfl

/-- The action gives `r` and leaves the files `f`. -/
structure Gives (files : σ → φ) (s : σ) (x : ExceptT (Failure Error) (StateM σ) α)
    (r : Except (Failure Error) α) (f : φ) : Prop where
  result : (actOn s x).1 = r
  left : files (actOn s x).2 = f

variable {files : σ → φ} {r : Except (Failure Error) β} {f : φ}
  {k : α → ExceptT (Failure Error) (StateM σ) β}

theorem Gives.bind_of_ok {x : ExceptT (Failure Error) (StateM σ) α} {a : α} {s' : σ}
    (hx : actOn s x = (.ok a, s')) (hk : Gives files s' (k a) r f) :
    Gives files s (x >>= k) r f := by
  have heq : actOn s (x >>= k) = actOn s' (k a) := by rw [actOn_bind, hx]
  exact ⟨heq ▸ hk.result, heq ▸ hk.left⟩

theorem Gives.bind_of_error {x : ExceptT (Failure Error) (StateM σ) α} {e : Failure Error} {s' : σ}
    (hx : actOn s x = (.error e, s')) : Gives files s (x >>= k) (.error e) (files s') := by
  have heq : actOn s (x >>= k) = (.error e, s') := by rw [actOn_bind, hx]
  exact ⟨by rw [heq], by rw [heq]⟩

theorem Gives.pure (b : β) : Gives files s (pure b) (.ok b) (files s) := ⟨rfl, rfl⟩

/-- A stage that succeeds hands its result on, and the host is not concerned. -/
theorem Gives.stage {x : Result α} {a : α} (hx : x = .ok a) (hk : Gives files s (k a) r f) :
    Gives files s (liftM x >>= k) r f := by
  rw [hx]
  exact hk

/-- A phase that fails ends the run without touching the files. -/
theorem Gives.stage_error {x : Result α} {e : Failure Error} (hx : x = .error e) :
    Gives files s (liftM x >>= k) (.error e) (files s) := by
  rw [hx]
  exact ⟨rfl, rfl⟩

/-- A name that is one lets the compilation go on. -/
theorem Gives.named {className : String} (hname : isClassName className = true)
    {k : Unit → ExceptT (Failure Error) (StateM σ) β} (hk : Gives files s (k ()) r f) :
    Gives files s (liftM ((checkClassName className).mapError .error : Result Unit) >>= k) r f := by
  refine .stage ?_ hk
  rw [checkClassName, if_pos hname]
  rfl

section Hosts

variable [MonadHost (StateM σ)] [FileSystem φ]

/-- Logging leaves the files alone. -/
theorem Gives.logging {k : Unit → ExceptT (Failure Error) (StateM σ) β} (hfiles : KeepsFiles files)
    (event : LogEvent) (hk : ∀ s', files s' = files s → Gives files s' (k ()) r f) :
    Gives files s (liftM (MonadHost.log event : StateM σ Unit) >>= k) r f :=
  .bind_of_ok (actOn_liftM s _) (hk (afterLog s event) (hfiles.log_files s event))

section Phase

variable {x : Result α} {a : α} {event : α → LogEvent} {last : Prop} [Decidable last]

/-- A phase that succeeds and is not the last one is logged, and hands its result on. -/
theorem Gives.passing {stop : ExceptT (Failure Error) (StateM σ) β} (hfiles : KeepsFiles files)
    (hx : x = .ok a) (hlast : ¬last)
    (hk : ∀ s', files s' = files s → Gives files s' (k a) r f) :
    Gives files s (liftM x >>= fun a => liftM (MonadHost.log (event a) : StateM σ Unit) >>= fun _ =>
      if last then stop else k a) r f := by
  refine .stage hx (.logging hfiles _ fun s' hs' => ?_)
  rw [if_neg hlast]
  exact hk s' hs'

/-- A phase that succeeds and is the last one is logged, and ends the run. -/
theorem Gives.stopping {b : β} (hfiles : KeepsFiles files) (hx : x = .ok a) (hlast : last) :
    Gives files s (liftM x >>= fun a => liftM (MonadHost.log (event a) : StateM σ Unit) >>= fun _ =>
      if last then Pure.pure b else k a) (.ok b) (files s) := by
  refine .stage hx (.logging hfiles _ fun s' hs' => ?_)
  rw [if_pos hlast, ← hs']
  exact .pure b

end Phase

end Hosts

end Actions

/-! ## Reading and writing texts -/

section Texts

variable {σ φ : Type} [FileSystem φ]

/-- The file at `path` can be read, and holds the text. -/
def Holds (f : φ) (path text : String) : Prop := FileSystem.read f path = .ok text.toUTF8

/-- The file at `path` gives no text: it cannot be read, or it is not UTF-8. -/
inductive Unreadable (f : φ) (path : String) : IoError → Prop where
  | refused {e : IoError} : FileSystem.read f path = .error e → Unreadable f path e
  | noText {content : ByteArray} : FileSystem.read f path = .ok content →
      (∀ text : String, text.toUTF8 ≠ content) → Unreadable f path .invalidData

/-- A path holds a text or cannot be read as one. -/
theorem holds_or_unreadable (f : φ) (path : String) :
    (∃ source, Holds f path source) ∨ ∃ e, Unreadable f path e := by
  cases hread : FileSystem.read f path with
  | error e => exact .inr ⟨e, .refused hread⟩
  | ok content =>
    by_cases htext : ∃ text : String, text.toUTF8 = content
    · obtain ⟨text, rfl⟩ := htext
      exact .inl ⟨text, hread⟩
    · exact .inr ⟨_, .noText hread (not_exists.mp htext)⟩

theorem fromUTF8?_toUTF8 (text : String) : String.fromUTF8? text.toUTF8 = some text :=
  dif_pos (show text.toUTF8.IsValidUTF8 from text.isValidUTF8)

theorem eq_toUTF8_of_fromUTF8? {content : ByteArray} {text : String}
    (h : String.fromUTF8? content = some text) : content = text.toUTF8 := by
  unfold String.fromUTF8? at h
  split at h
  · cases h
    rfl
  · cases h

variable {files : σ → φ} [MonadHost (StateM σ)] {s : σ} {β : Type}
  {r : Except (Failure Error) β} {f : φ} {path : String}

/-- Reading a file leaves the files alone. -/
theorem Gives.reading {k : String → ExceptT (Failure Error) (StateM σ) β} {source : String}
    (hfiles : KeepsFiles files) (hsource : Holds (files s) path source)
    (hk : ∀ s', files s' = files s → Gives files s' (k source) r f) :
    Gives files s (readText path >>= k) r f := by
  have hread : actOn s (readText path) = (.ok source, afterRead s path) := by
    unfold readText
    rw [actOn_bind, actOn_liftM, hfiles.read_eq, hsource]
    dsimp only
    rw [fromUTF8?_toUTF8]
    rfl
  exact .bind_of_ok hread (hk _ (hfiles.read_files s path))

/-- A file that cannot be read ends the run with the host's own error. -/
theorem Gives.reading_error {k : String → ExceptT (Failure Error) (StateM σ) β} {e : IoError}
    (hfiles : KeepsFiles files) (he : Unreadable (files s) path e) :
    Gives files s (readText path >>= k) (.error (.error (.io e))) (files s) := by
  have hread : actOn s (readText path) = (.error (.error (.io e)), afterRead s path) := by
    unfold readText
    rw [actOn_bind, actOn_liftM, hfiles.read_eq]
    cases he with
    | refused hread =>
      rw [hread]
      rfl
    | @noText content hread hcontent =>
      have hnone : String.fromUTF8? content = none := by
        cases htext : String.fromUTF8? content with
        | none => rfl
        | some text => exact absurd (eq_toUTF8_of_fromUTF8? htext).symm (hcontent text)
      rw [hread]
      dsimp only
      rw [hnone]
      rfl
  exact hfiles.read_files s path ▸ Gives.bind_of_error hread

/-- A file that can be written is. -/
theorem Gives.writing {k : Unit → ExceptT (Failure Error) (StateM σ) β} {text : String} {f' : φ}
    (hfiles : KeepsFiles files) (hwrite : FileSystem.write (files s) path text.toUTF8 = .ok f')
    (hk : ∀ s', files s' = f' → Gives files s' (k ()) r f) :
    Gives files s (writeText path text >>= k) r f := by
  have hact : actOn s (writeText path text) = (.ok (), afterWrite s path text.toUTF8) := by
    unfold writeText
    rw [actOn_bind, actOn_liftM, hfiles.write_eq, hwrite]
    rfl
  exact .bind_of_ok hact (hk _ (hfiles.write_ok s path _ f' hwrite))

/-- A file that cannot be written ends the run with the host's own error, and nothing is changed. -/
theorem Gives.writing_error {k : Unit → ExceptT (Failure Error) (StateM σ) β} {text : String}
    {e : IoError} (hfiles : KeepsFiles files)
    (hwrite : FileSystem.write (files s) path text.toUTF8 = .error e) :
    Gives files s (writeText path text >>= k) (.error (.error (.io e))) (files s) := by
  have hact : actOn s (writeText path text) =
      (.error (.error (.io e)), afterWrite s path text.toUTF8) := by
    unfold writeText
    rw [actOn_bind, actOn_liftM, hfiles.write_eq, hwrite]
    rfl
  exact hfiles.write_error s path _ e hwrite ▸ Gives.bind_of_error hact

end Texts

/-! ## Phases -/

/-- How many phases a compilation performs. -/
def phases : Option Stage → Nat
  | some .lex => 1
  | some .parse => 2
  | some .validate => 3
  | some .codegen | none => 4

/-- The text passes all phases up to the given one. -/
def Passes (className source : String) : Stage → Prop
  | .lex => ∃ ts, tokenize source = .ok ts
  | .parse => ∃ ts p, tokenize source = .ok ts ∧ Surface.parse ts = .ok p
  | .validate => ∃ ts p t, tokenize source = .ok ts ∧ Surface.parse ts = .ok p ∧
      checkProgram p = .ok t
  | .codegen => ∃ ts p t m, tokenize source = .ok ts ∧ Surface.parse ts = .ok p ∧
      checkProgram p = .ok t ∧ Jvm.generate className t = .ok m

/-- The first phase that fails, among those that are performed. -/
inductive FailsFirst (stage : Option Stage) (className source : String) : Failure Error → Prop where
  | lex {e : LexError} : tokenize source = .error e →
      FailsFirst stage className source (.error (.lexing e))
  | parse {ts : List (Located Token)} {e : ParseError} : 2 ≤ phases stage →
      tokenize source = .ok ts → Surface.parse ts = .error e →
      FailsFirst stage className source (.error (.parsing e))
  | check {ts : List (Located Token)} {p : Surface.Program} {e : Core.CheckError} :
      3 ≤ phases stage → tokenize source = .ok ts → Surface.parse ts = .ok p →
      checkProgram p = .error (.error e) → FailsFirst stage className source (.error (.semantics e))
  | generate {ts : List (Located Token)} {p : Surface.Program} {t : Core.Program} {f : Fault} :
      4 ≤ phases stage → tokenize source = .ok ts → Surface.parse ts = .ok p →
      checkProgram p = .ok t → Jvm.generate className t = .error f →
      FailsFirst stage className source (.fault f)

variable {stage stage' : Option Stage} {className source : String}

/-- With more phases, the same one is still the first to fail. -/
theorem FailsFirst.mono {f : Failure Error} (hf : FailsFirst stage className source f)
    (hle : phases stage ≤ phases stage') : FailsFirst stage' className source f := by
  cases hf with
  | lex hts => exact .lex hts
  | parse hstage hts hp => exact .parse (Nat.le_trans hstage hle) hts hp
  | check hstage hts hp ht => exact .check (Nat.le_trans hstage hle) hts hp ht
  | generate hstage hts hp ht hm => exact .generate (Nat.le_trans hstage hle) hts hp ht hm

section Stages

variable {ts : List (Located Token)} {p : Surface.Program} {t : Core.Program}

theorem lex_of_error {e : LexError} (h : tokenize source = .error e) :
    lex source = .error (.error (.lexing e)) :=
  mapError_eq_error.mpr ⟨e, h, rfl⟩

theorem parse_of_error {e : ParseError} (h : Surface.parse ts = .error e) :
    parse ts = .error (.error (.parsing e)) :=
  mapError_eq_error.mpr ⟨e, h, rfl⟩

theorem check_of_error {e : Core.CheckError} (h : checkProgram p = .error (.error e)) :
    check p = .error (.error (.semantics e)) :=
  mapError_eq_error.mpr ⟨.error e, h, rfl⟩

theorem generate_of_error {f : Fault} (h : Jvm.generate className t = .error f) :
    generate className t = .error (.fault f) :=
  mapError_eq_error.mpr ⟨f, h, rfl⟩

theorem generate_of_ok {m : Jvm.Module} (h : Jvm.generate className t = .ok m) :
    generate className t = .ok m :=
  mapError_eq_ok.mpr h

end Stages

/-- A source is compiled exactly when its class name is usable and each phase succeeds. -/
theorem compileSource_eq_ok {text : String} :
    compileSource className source = .ok text ↔ isClassName className = true ∧
      ∃ ts p t m, tokenize source = .ok ts ∧ Surface.parse ts = .ok p ∧ checkProgram p = .ok t ∧
        Jvm.generate className t = .ok m ∧ m.text = text := by
  have hgenerate : ∀ t m, generate className t = .ok m ↔ Jvm.generate className t = .ok m :=
    fun _ _ => mapError_eq_ok
  simp only [compileSource, compileModule, bind_eq_ok, checkClassName_eq_ok, checkedProgram_eq_ok,
    pure_eq_ok, hgenerate]
  constructor
  · rintro ⟨-, hname, m, ⟨t, ⟨ts, p, hts, hp, ht⟩, hm⟩, htext⟩
    exact ⟨hname, ts, p, t, m, hts, hp, ht, hm, htext⟩
  · rintro ⟨hname, ts, p, t, m, hts, hp, ht, hm, htext⟩
    exact ⟨(), hname, m, ⟨t, ⟨ts, p, hts, hp, ht⟩, hm⟩, htext⟩

theorem one_le_phases (stage : Option Stage) : 1 ≤ phases stage := by
  unfold phases
  split <;> decide

theorem eq_some_of_phases {s : Stage} (hs : s ≠ .codegen) (h : phases stage = phases (some s)) :
    stage = some s := by
  cases stage with
  | none => cases s <;> simp [phases] at h hs
  | some stage => cases stage <;> cases s <;> simp [phases] at h hs ⊢

/-- All four phases run unless an earlier stage is asked for. -/
theorem four_le_phases : 4 ≤ phases stage ↔ stage = none ∨ stage = some .codegen := by
  cases stage with
  | none => simp [phases]
  | some stage => cases stage <;> simp [phases]

/-- Where a compilation goes on behind a stage. -/
theorem ne_of_phases {s : Stage} (h : phases (some s) < phases stage) : stage ≠ some s := by
  rintro rfl
  exact Nat.lt_irrefl _ h

/-- A compilation fails in some phase, or it has passed all those that it performs. -/
theorem phases_end (hname : isClassName className = true) (stage : Option Stage)
    (source : String) :
    (∃ f, FailsFirst stage className source f) ∨
      (∃ s, stage = some s ∧ s ≠ .codegen ∧ Passes className source s) ∨
        4 ≤ phases stage ∧ ∃ text, compileSource className source = .ok text := by
  cases hts : tokenize source with
  | error e => exact .inl ⟨_, .lex hts⟩
  | ok ts =>
  by_cases hparse : 2 ≤ phases stage
  swap
  · have hone := one_le_phases stage
    have hphases : phases stage = 1 := by omega
    exact .inr (.inl ⟨.lex, eq_some_of_phases (by decide) hphases, by decide, ts, hts⟩)
  cases hp : Surface.parse ts with
  | error e => exact .inl ⟨_, .parse hparse hts hp⟩
  | ok p =>
  by_cases hcheck : 3 ≤ phases stage
  swap
  · have hphases : phases stage = 2 := by omega
    exact .inr (.inl ⟨.parse, eq_some_of_phases (by decide) hphases, by decide, ts, p, hts, hp⟩)
  cases ht : checkProgram p with
  | error failure =>
    cases failure with
    | error e => exact .inl ⟨_, .check hcheck hts hp ht⟩
    | fault f => exact absurd ht (Core.faultFree_checkProgram (Surface.parse_proper hp) f)
  | ok t =>
  by_cases hgenerate : 4 ≤ phases stage
  swap
  · have hphases : phases stage = 3 := by omega
    exact .inr (.inl ⟨.validate, eq_some_of_phases (by decide) hphases, by decide,
      ts, p, t, hts, hp, ht⟩)
  cases hm : Jvm.generate className t with
  | error f => exact .inl ⟨_, .generate hgenerate hts hp ht hm⟩
  | ok m =>
    exact .inr (.inr ⟨hgenerate, m.text,
      compileSource_eq_ok.mpr ⟨hname, ts, p, t, m, hts, hp, ht, hm, rfl⟩⟩)

/-! ## The file -/

section Files

variable {σ φ : Type} [FileSystem φ] {f f' : φ} {path : String} {config : Config}

/-- The first step that fails. -/
inductive StopsAt (f : φ) (path : String) (config : Config) : Failure Error → Prop where
  | className : isClassName config.className = false →
      StopsAt f path config (.error (.invalidClassName config.className))
  | read {e : IoError} : isClassName config.className = true → Unreadable f path e →
      StopsAt f path config (.error (.io e))
  | phase {source : String} {e : Failure Error} : isClassName config.className = true →
      Holds f path source → FailsFirst config.stage config.className source e →
      StopsAt f path config e
  | write {source text : String} {e : IoError} : isClassName config.className = true →
      Holds f path source → 4 ≤ phases config.stage →
      compileSource config.className source = .ok text →
      FileSystem.write f config.outputPath text.toUTF8 = .error e →
      StopsAt f path config (.error (.io e))

/-- The ways in which a compilation can end, and the files that it leaves. -/
inductive Ends (f : φ) (path : String) (config : Config) :
    Except (Failure Error) (Option String) → φ → Prop where
  | failed {e : Failure Error} : StopsAt f path config e → Ends f path config (.error e) f
  | stopped {stage : Stage} {source : String} : isClassName config.className = true →
      Holds f path source → config.stage = some stage → stage ≠ .codegen →
      Passes config.className source stage → Ends f path config (.ok none) f
  | written {source text : String} {f' : φ} : isClassName config.className = true →
      Holds f path source → 4 ≤ phases config.stage →
      compileSource config.className source = .ok text →
      FileSystem.write f config.outputPath text.toUTF8 = .ok f' →
      Ends f path config (.ok (some config.outputPath)) f'

/-- Step by step, one of these ways is taken. -/
theorem exists_ends (f : φ) (path : String) (config : Config) :
    ∃ r f', Ends f path config r f' := by
  cases hname : isClassName config.className with
  | false => exact ⟨_, _, .failed (.className hname)⟩
  | true =>
    rcases holds_or_unreadable f path with ⟨source, hsource⟩ | ⟨e, he⟩
    · rcases phases_end hname config.stage source with
        ⟨e, he⟩ | ⟨stage, hconfig, hstage, hpasses⟩ | ⟨hstage, text, htext⟩
      · exact ⟨_, _, .failed (.phase hname hsource he)⟩
      · exact ⟨_, _, .stopped hname hsource hconfig hstage hpasses⟩
      · cases hwrite : FileSystem.write f config.outputPath text.toUTF8 with
        | error e => exact ⟨_, _, .failed (.write hname hsource hstage htext hwrite)⟩
        | ok f' => exact ⟨_, _, .written hname hsource hstage htext hwrite⟩
    · exact ⟨_, _, .failed (.read hname he)⟩

variable [MonadHost (StateM σ)] {files : σ → φ} {s : σ}

/-- What a compilation of the file at `path` gives, and the host that it leaves. -/
def compileOn (s : σ) (path : String) (config : Config) :
    Except (Failure Error) (Option String) × σ :=
  actOn s (compileFile path config)

section Steps

variable {source : String} {ts : List (Located Token)} {p : Surface.Program} {q : Core.Program}
  {r : Except (Failure Error) (Option String)}

/-- Behind the phases that succeed, the module is written. -/
theorem Gives.phases_ok (hfiles : KeepsFiles files) (hstage : 4 ≤ phases config.stage)
    (hts : tokenize source = .ok ts) (hp : Surface.parse ts = .ok p) (hq : checkProgram p = .ok q)
    (hk : ∀ s', files s' = files s → Gives files s' (writeModule config q) r f) :
    Gives files s (compileText path config source) r f := by
  refine .passing hfiles (lex_eq_ok.mpr hts) (ne_of_phases (show 1 < _ by omega)) fun s₁ hs₁ => ?_
  refine .passing hfiles (parse_eq_ok.mpr hp) (ne_of_phases (show 2 < _ by omega)) fun s₂ hs₂ => ?_
  refine .passing hfiles (check_eq_ok.mpr hq) (ne_of_phases (show 3 < _ by omega)) fun s₃ hs₃ => ?_
  exact hk s₃ (hs₃.trans (hs₂.trans hs₁))

/-- The first phase that fails gives the failure of the whole, and the files stay as they were. -/
theorem gives_of_failsFirst {e : Failure Error} (hfiles : KeepsFiles files)
    (he : FailsFirst config.stage config.className source e) :
    Gives files s (compileText path config source) (.error e) (files s) := by
  cases he with
  | lex hts => exact .stage_error (lex_of_error hts)
  | parse hstage hts hp =>
    refine .passing hfiles (lex_eq_ok.mpr hts) (ne_of_phases (show 1 < _ by omega)) fun s₁ hs₁ => ?_
    rw [← hs₁]
    exact .stage_error (parse_of_error hp)
  | check hstage hts hp hq =>
    refine .passing hfiles (lex_eq_ok.mpr hts) (ne_of_phases (show 1 < _ by omega)) fun s₁ hs₁ => ?_
    refine .passing hfiles (parse_eq_ok.mpr hp) (ne_of_phases (show 2 < _ by omega))
      fun s₂ hs₂ => ?_
    rw [← hs₁, ← hs₂]
    exact .stage_error (check_of_error hq)
  | generate hstage hts hp hq hm =>
    refine .phases_ok hfiles hstage hts hp hq fun s' hs' => ?_
    rw [← hs']
    exact .stage_error (generate_of_error hm)

/-- A run that is to stop early stops after the stage asked for, and writes nothing. -/
theorem gives_of_passes {stage : Stage} (hfiles : KeepsFiles files)
    (hconfig : config.stage = some stage) (hstage : stage ≠ .codegen)
    (hpasses : Passes config.className source stage) :
    Gives files s (compileText path config source) (.ok none) (files s) := by
  cases stage with
  | lex =>
    obtain ⟨ts, hts⟩ := hpasses
    exact .stopping hfiles (lex_eq_ok.mpr hts) hconfig
  | parse =>
    obtain ⟨ts, p, hts, hp⟩ := hpasses
    refine .passing hfiles (lex_eq_ok.mpr hts) (by simp [hconfig]) fun s₁ hs₁ => ?_
    rw [← hs₁]
    exact .stopping hfiles (parse_eq_ok.mpr hp) hconfig
  | validate =>
    obtain ⟨ts, p, q, hts, hp, hq⟩ := hpasses
    refine .passing hfiles (lex_eq_ok.mpr hts) (by simp [hconfig]) fun s₁ hs₁ => ?_
    refine .passing hfiles (parse_eq_ok.mpr hp) (by simp [hconfig]) fun s₂ hs₂ => ?_
    rw [← hs₁, ← hs₂]
    exact .stopping hfiles (check_eq_ok.mpr hq) hconfig
  | codegen => exact absurd rfl hstage

/-- A text that compiles is written, if it can be. -/
theorem gives_of_compileSource {text : String} (hfiles : KeepsFiles files)
    (hstage : 4 ≤ phases config.stage) (htext : compileSource config.className source = .ok text)
    (hk : ∀ s', files s' = files s → Gives files s' (do
      writeText config.outputPath text
      MonadHost.log (m := StateM σ) (.wrote config.outputPath)
      return some config.outputPath) r f) :
    Gives files s (compileText path config source) r f := by
  obtain ⟨-, ts, p, q, code, hts, hp, hq, hcode, rfl⟩ := compileSource_eq_ok.mp htext
  refine .phases_ok hfiles hstage hts hp hq fun s' hs' => ?_
  exact .stage (generate_of_ok hcode) (hk s' hs')

/-- Every way to end is taken as it says. -/
theorem Ends.gives (hfiles : KeepsFiles files) (hends : Ends (files s) path config r f) :
    Gives files s (compileFile path config) r f := by
  cases hends with
  | failed hstops =>
    cases hstops with
    | className hname =>
      refine .stage_error ?_
      rw [checkClassName, hname]
      rfl
    | read hname he => exact .named hname (.reading_error hfiles he)
    | phase hname hsource he =>
      refine .named hname (.reading hfiles hsource fun s₁ hs₁ => ?_)
      rw [← hs₁]
      exact gives_of_failsFirst hfiles he
    | write hname hsource hstage htext hwrite =>
      refine .named hname (.reading hfiles hsource fun s₁ hs₁ => ?_)
      refine gives_of_compileSource hfiles hstage htext fun s₂ hs₂ => ?_
      rw [← hs₁, ← hs₂] at hwrite ⊢
      exact .writing_error hfiles hwrite
  | stopped hname hsource hconfig hstage hpasses =>
    refine .named hname (.reading hfiles hsource fun s₁ hs₁ => ?_)
    rw [← hs₁]
    exact gives_of_passes hfiles hconfig hstage hpasses
  | written hname hsource hstage htext hwrite =>
    refine .named hname (.reading hfiles hsource fun s₁ hs₁ => ?_)
    refine gives_of_compileSource hfiles hstage htext fun s₂ hs₂ => ?_
    rw [← hs₁, ← hs₂] at hwrite
    refine .writing hfiles hwrite fun s₃ hs₃ => .logging hfiles _ fun s₄ hs₄ => ?_
    rw [← hs₃, ← hs₄]
    exact .pure _

end Steps

/-- Every compilation ends in one of the ways listed. -/
theorem compileOn_ends (hfiles : KeepsFiles files) {r : Except (Failure Error) (Option String)}
    (hr : (compileOn s path config).1 = r) :
    ∃ f', files (compileOn s path config).2 = f' ∧ Ends (files s) path config r f' := by
  obtain ⟨r', f', hends⟩ := exists_ends (files s) path config
  obtain ⟨hresult, hleft⟩ := hends.gives hfiles
  exact ⟨f', hleft, hr ▸ hresult ▸ hends⟩

/-! ## Laws of a compilation -/

/-- How the compilation of a file follows from the compilation of its text. -/
structure FileLaws (files : σ → φ) (s : σ) (path : String) (config : Config) : Prop where
  /-- With all phases, a module is written just if every step succeeds. -/
  written : config.stage = none ∨ config.stage = some .codegen →
    ((compileOn s path config).1 = .ok (some config.outputPath) ↔
      isClassName config.className = true ∧ ∃ source text f, Holds (files s) path source ∧
        compileSource config.className source = .ok text ∧
          FileSystem.write (files s) config.outputPath text.toUTF8 = .ok f)
  /-- The text that is written is that of the source, and nothing else is changed. -/
  onlyWrites : ∀ out, (compileOn s path config).1 = .ok (some out) →
    (config.stage = none ∨ config.stage = some .codegen) ∧ out = config.outputPath ∧
      ∃ source text, FileSystem.HasContent (files s) path source.toUTF8 ∧
        compileSource config.className source = .ok text ∧
          FileSystem.Replaces (files s) out text.toUTF8 (files (compileOn s path config).2)
  /-- A compilation that is to stop early does so just if every step up to there succeeds. -/
  stopped : ∀ stage, stage ≠ .codegen → config.stage = some stage →
    ((compileOn s path config).1 = .ok none ↔
      isClassName config.className = true ∧
        ∃ source, Holds (files s) path source ∧ Passes config.className source stage)
  /-- No other compilation stops without a module. -/
  early : (compileOn s path config).1 = .ok none →
    ∃ stage, stage ≠ .codegen ∧ config.stage = some stage
  /-- Otherwise the first step that fails is reported. -/
  failed : ∀ e, (compileOn s path config).1 = .error e ↔ StopsAt (files s) path config e
  /-- What writes no module changes no file. -/
  unchanged : (∀ out, (compileOn s path config).1 ≠ .ok (some out)) →
    files (compileOn s path config).2 = files s
  /-- What succeeds up to a stage succeeds up to every earlier one, and an error is found again by
  every later one. -/
  stages : ∀ stage stage', phases stage ≤ phases stage' →
    ((∃ w, (compileOn s path { config with stage := stage' }).1 = .ok w) →
      ∃ w, (compileOn s path { config with stage }).1 = .ok w) ∧
    ∀ e, (compileOn s path { config with stage }).1 = .error e →
      (compileOn s path { config with stage := stage' }).1 = .error e

/-- With more phases, the same step is still the first to fail. -/
theorem StopsAt.mono {e : Failure Error} (he : StopsAt f path { config with stage } e)
    (hle : phases stage ≤ phases stage') : StopsAt f path { config with stage := stage' } e := by
  cases he with
  | className hname => exact .className hname
  | read hname he => exact .read hname he
  | phase hname hsource he => exact .phase hname hsource (he.mono hle)
  | write hname hsource hstage htext hwrite =>
    exact .write hname hsource (Nat.le_trans hstage hle) htext hwrite

/-- A compilation fails exactly where the first of its steps does. -/
theorem failed_iff (hfiles : KeepsFiles files) (e : Failure Error) :
    (compileOn s path config).1 = .error e ↔ StopsAt (files s) path config e := by
  constructor
  · intro hresult
    obtain ⟨f', -, hends⟩ := compileOn_ends hfiles hresult
    cases hends with
    | failed he => exact he
  · intro he
    exact ((Ends.failed he).gives hfiles).result

theorem stopped_iff (hfiles : KeepsFiles files) {stage : Stage} (hstage : stage ≠ .codegen)
    (hconfig : config.stage = some stage) :
    (compileOn s path config).1 = .ok none ↔
      isClassName config.className = true ∧
        ∃ source, Holds (files s) path source ∧ Passes config.className source stage := by
  constructor
  · intro hresult
    obtain ⟨f', -, hends⟩ := compileOn_ends hfiles hresult
    cases hends with
    | stopped hname hsource hconfig' _ hpasses =>
      obtain rfl := Option.some.inj (hconfig.symm.trans hconfig')
      exact ⟨hname, _, hsource, hpasses⟩
  · rintro ⟨hname, source, hsource, hpasses⟩
    exact ((Ends.stopped hname hsource hconfig hstage hpasses).gives hfiles).result

/-- The output is written exactly when the whole source compiles and the host lets it be written. -/
theorem written_iff (hfiles : KeepsFiles files) (hstage : 4 ≤ phases config.stage) :
    (compileOn s path config).1 = .ok (some config.outputPath) ↔
      isClassName config.className = true ∧ ∃ source text f, Holds (files s) path source ∧
        compileSource config.className source = .ok text ∧
          FileSystem.write (files s) config.outputPath text.toUTF8 = .ok f := by
  constructor
  · intro hresult
    obtain ⟨f', -, hends⟩ := compileOn_ends hfiles hresult
    cases hends with
    | written hname hsource _ htext hwrite => exact ⟨hname, _, _, _, hsource, htext, hwrite⟩
  · rintro ⟨hname, source, text, f, hsource, htext, hwrite⟩
    exact ((Ends.written hname hsource hstage htext hwrite).gives hfiles).result

/-- Every host that keeps its files under logging obeys the laws of a compilation. -/
theorem fileLaws (hfiles : KeepsFiles files) (s : σ) (path : String) (config : Config) :
    FileLaws files s path config where
  written hconfig := written_iff hfiles (four_le_phases.mpr hconfig)
  onlyWrites := by
    intro out hresult
    obtain ⟨f', hleft, hends⟩ := compileOn_ends hfiles hresult
    rw [hleft]
    cases hends with
    | written _ hsource hstage htext hwrite =>
      exact ⟨four_le_phases.mp hstage, rfl, _, _, FileSystem.read_ok hsource, htext,
        FileSystem.write_ok hwrite⟩
  stopped _ hstage hconfig := stopped_iff hfiles hstage hconfig
  early := by
    intro hresult
    obtain ⟨f', -, hends⟩ := compileOn_ends hfiles hresult
    cases hends with
    | stopped _ _ hconfig hstage _ => exact ⟨_, hstage, hconfig⟩
  failed := failed_iff hfiles
  unchanged := by
    intro hresult
    obtain ⟨f', hleft, hends⟩ := compileOn_ends hfiles (Eq.refl (compileOn s path config).1)
    rw [hleft]
    generalize (compileOn s path config).1 = r at hends hresult
    cases hends with
    | failed => rfl
    | stopped => rfl
    | written => exact absurd rfl (hresult _)
  stages := by
    intro stage stage' hle
    have hfailed : ∀ e, (compileOn s path { config with stage }).1 = .error e →
        (compileOn s path { config with stage := stage' }).1 = .error e := by
      intro e he
      exact (failed_iff hfiles e).mpr (((failed_iff hfiles e).mp he).mono hle)
    refine ⟨?_, hfailed⟩
    rintro ⟨w, hw⟩
    cases hresult : (compileOn s path { config with stage }).1 with
    | ok w => exact ⟨w, rfl⟩
    | error e =>
      rw [hfailed e hresult] at hw
      cases hw

end Files

end MiniC.Compiler
