import MiniC.Host.Basic

/-!
# File systems and the hosts that keep them

Nothing is known about the host of a run but that it keeps files: it reads and writes them as some
file system has it, and no action but the start of another program touches them otherwise. A file
system is a map from places to contents. Any read and any write may fail, for whatever cause; a
write that fails has no effect, and one that succeeds changes the content of one place.
-/

namespace MiniC

/-- Files by their places, and the paths that lead there. -/
class FileSystem (φ : Type) where
  Place : Type
  place? : φ → String → Option Place
  content? : φ → Place → Option ByteArray
  read : φ → String → Except IoError ByteArray
  write : φ → String → ByteArray → Except IoError φ
  /-- What is read at a path is the content of a file. -/
  read_ok : ∀ {f : φ} {path : String} {content : ByteArray}, read f path = .ok content →
    ∃ p, place? f path = some p ∧ content? f p = some content
  /-- What is written at a path replaces the content of one file. -/
  write_ok : ∀ {f f' : φ} {path : String} {content : ByteArray}, write f path content = .ok f' →
    ∃ p, place? f path = some p ∧ content? f' p = some content ∧
      ∀ q, q ≠ p → content? f' q = content? f q

namespace FileSystem

variable {φ : Type} [FileSystem φ]

/-- The file at `path` has the given content. -/
def HasContent (f : φ) (path : String) (content : ByteArray) : Prop :=
  ∃ p, place? f path = some p ∧ content? f p = some content

/-- The files `f'` are those of `f`, except that the one at `path` has the given content. -/
def Replaces (f : φ) (path : String) (content : ByteArray) (f' : φ) : Prop :=
  ∃ p, place? f path = some p ∧ content? f' p = some content ∧
    ∀ q, q ≠ p → content? f' q = content? f q

end FileSystem

/-! ## Hosts -/

section Hosts

variable {σ φ α : Type}

/-- What an action gives, and the state that it leaves. -/
def act (x : StateM σ α) (s : σ) : α × σ := (x.run s).run

theorem act_bind {β : Type} (s : σ) (x : StateM σ α) (k : α → StateM σ β) :
    act (x >>= k) s = act (k (act x s).1) (act x s).2 := rfl

variable [MonadHost (StateM σ)]

/-- The state behind an attempt to read. -/
def afterRead (s : σ) (path : String) : σ := (act (MonadHost.readFile path) s).2

/-- The state behind an attempt to write. -/
def afterWrite (s : σ) (path : String) (content : ByteArray) : σ :=
  (act (MonadHost.writeFile path content) s).2

def afterStartLog (s : σ) (level : LogLevel) : σ := (act (MonadHost.startLog level) s).2

def afterLog (s : σ) (event : LogEvent) : σ := (act (MonadHost.log event) s).2

/-- A host whose state `s` holds the files `files s`. Starting Java may do anything to them. -/
structure KeepsFiles [FileSystem φ] (files : σ → φ) : Prop where
  read_eq : ∀ s path,
    (act (MonadHost.readFile path) s).1 = FileSystem.read (files s) path
  read_files : ∀ s path, files (afterRead s path) = files s
  write_eq : ∀ s path content,
    (act (MonadHost.writeFile path content) s).1 =
      (FileSystem.write (files s) path content).map fun _ => ()
  write_error : ∀ s path content e, FileSystem.write (files s) path content = .error e →
    files (afterWrite s path content) = files s
  write_ok : ∀ s path content f, FileSystem.write (files s) path content = .ok f →
    files (afterWrite s path content) = f
  startLog_files : ∀ s level, files (afterStartLog s level) = files s
  log_files : ∀ s event, files (afterLog s event) = files s

end Hosts

/-! ## Plain files -/

/-- Files in which every path stands for itself. Every write succeeds. -/
def PlainFiles : Type := String → Option ByteArray

namespace PlainFiles

/-- One more file. -/
def put (f : PlainFiles) (path : String) (content : ByteArray) : PlainFiles :=
  fun q => if q = path then some content else f q

/-- No files. -/
def none : PlainFiles := fun _ => Option.none

instance : FileSystem PlainFiles where
  Place := String
  place? _ path := some path
  content? f p := f p
  read f path :=
    match f path with
    | Option.none => .error .notFound
    | some content => .ok content
  write f path content := .ok (f.put path content)
  read_ok := by
    intro f path content h
    refine ⟨path, rfl, ?_⟩
    split at h
    · cases h
    · next hf =>
      cases h
      exact hf
  write_ok := by
    intro f f' path content h
    cases h
    exact ⟨path, rfl, if_pos rfl, fun q hq => if_neg hq⟩

/-- The host that has plain files, and nothing else. -/
instance : MonadHost (StateM PlainFiles) where
  readFile path := return FileSystem.read (← get) path
  writeFile path content := do
    set ((← get).put path content)
    return .ok ()
  runJava _ := return .error .notFound
  startLog _ := return ()
  log _ := return ()

theorem keepsFiles : KeepsFiles (σ := PlainFiles) (φ := PlainFiles) id where
  read_eq _ _ := rfl
  read_files _ _ := rfl
  write_eq _ _ _ := rfl
  write_error := by
    intro s path content e h
    cases h
  write_ok := by
    intro s path content f h
    cases h
    rfl
  startLog_files _ _ := rfl
  log_files _ _ := rfl

end PlainFiles

end MiniC
