import MiniC.Proofs.Except
import MiniC.Proofs.Host.FileSystem

/-!
# Writing into a tree of files

A successful write changes one entry of the tree and nothing else. The path that led to this entry
still leads there: it passes through directories only, and none of them is replaced. So trees of
files are a file system, and a host that has one keeps files.
-/

namespace MiniC

namespace FileTree

variable {t t' : FileTree} {p q : Place} {path : String} {content : ByteArray}

theorem entryAt_put_self (hq : q ≠ []) (e : Entry) : (t.put q e).entryAt q = some e := by
  simp [entryAt, put, hq]

/-- Putting an entry somewhere leaves all other places alone. -/
theorem entryAt_put_of_ne (h : p ≠ q) (e : Entry) : (t.put q e).entryAt p = t.entryAt p := by
  have hlookup : ((q, e) :: t.entries).lookup p = t.entries.lookup p := by
    rw [List.lookup_cons, beq_false_of_ne h]
  simp only [entryAt, put, hlookup]

/-- A path passes through directories only, so what it leads to may be replaced by a file without
any effect on where it leads. -/
theorem follow_put {cs : List String} (h : t.follow p cs = .ok q)
    (hq : ∀ e, t.entryAt q = some e → ∃ c, e = .file c) (e : Entry) :
    (t.put q e).follow p cs = .ok q := by
  induction cs generalizing p with
  | nil => exact h
  | cons c cs ih =>
    rw [follow] at h ⊢
    cases hp : t.entryAt p with
    | none =>
      rw [hp] at h
      cases h
    | some entry =>
      cases entry with
      | file content =>
        rw [hp] at h
        cases h
      | directory =>
        have hne : p ≠ q := by
          rintro rfl
          obtain ⟨c, hc⟩ := hq _ hp
          cases hc
        rw [hp] at h
        rw [entryAt_put_of_ne hne, hp]
        dsimp only at h ⊢
        split at h
        · next hc => rw [if_pos hc]; exact ih h
        · next hc =>
          rw [if_neg hc]
          split at h
          · next hc => rw [if_pos hc]; exact ih h
          · next hc => rw [if_neg hc]; exact ih h

/-- The tree `t'` is `t`, except that `path` leads to a file with the given content. -/
structure Replaces (t : FileTree) (path : String) (content : ByteArray) (t' : FileTree) : Prop where
  current : t'.current = t.current
  place : ∃ p, t.resolve path = .ok p ∧ t'.entryAt p = some (.file content) ∧
    ∀ q ≠ p, t'.entryAt q = t.entryAt q
  read : t'.read path = .ok content

/-- A successful write replaces one file and nothing else. -/
theorem write_eq_ok (h : t.write path content = .ok t') : t.Replaces path content t' := by
  obtain ⟨p, hp, hwrite⟩ := bind_eq_ok.mp h
  have hfile : (∀ e, t.entryAt p = some e → ∃ c, e = .file c) ∧ t.put p (.file content) = t' := by
    cases hentry : t.entryAt p with
    | none =>
      rw [hentry] at hwrite
      cases hwrite
      simp
    | some e =>
      cases e with
      | directory =>
        rw [hentry] at hwrite
        cases hwrite
      | file c =>
        rw [hentry] at hwrite
        cases hwrite
        simp
  obtain ⟨hfile, rfl⟩ := hfile
  have hne : p ≠ [] := by
    rintro rfl
    obtain ⟨c, hc⟩ := hfile .directory rfl
    cases hc
  have hself := t.entryAt_put_self hne (.file content)
  have hresolve : (t.put p (.file content)).resolve path = .ok p := by
    unfold resolve at hp ⊢
    split at hp
    · cases hp
    · next hpath =>
      rw [if_neg hpath]
      exact follow_put hp hfile _
  refine ⟨rfl, ⟨p, hp, hself, fun q hq => entryAt_put_of_ne hq _⟩, ?_⟩
  rw [FileTree.read, hresolve]
  dsimp only [bind, Except.bind]
  rw [hself]

/-- The content of the file at a place. -/
def contentAt (t : FileTree) (p : Place) : Option ByteArray :=
  match t.entryAt p with
  | some (.file content) => some content
  | _ => none

theorem contentAt_of_file (h : t.entryAt p = some (.file content)) :
    t.contentAt p = some content := by
  rw [contentAt, h]

theorem contentAt_congr (h : t'.entryAt p = t.entryAt p) : t'.contentAt p = t.contentAt p := by
  rw [contentAt, contentAt, h]

/-- What is read is the content of the file the path resolves to. -/
theorem read_eq_ok (h : t.read path = .ok content) :
    ∃ p, t.resolve path = .ok p ∧ t.entryAt p = some (.file content) := by
  obtain ⟨p, hp, hread⟩ := bind_eq_ok.mp h
  refine ⟨p, hp, ?_⟩
  cases hentry : t.entryAt p with
  | none =>
    rw [hentry] at hread
    cases hread
  | some e =>
    rw [hentry] at hread
    cases e with
    | directory => cases hread
    | file c =>
      cases hread
      rfl

instance : FileSystem FileTree where
  Place := MiniC.Place
  place? t path := (t.resolve path).toOption
  content? := contentAt
  read := FileTree.read
  write := FileTree.write
  read_ok := by
    intro t path content h
    obtain ⟨p, hp, hentry⟩ := read_eq_ok h
    exact ⟨p, by rw [hp]; rfl, contentAt_of_file hentry⟩
  write_ok := by
    intro t t' path content h
    obtain ⟨p, hp, hentry, hothers⟩ := (write_eq_ok h).place
    exact ⟨p, by rw [hp]; rfl, contentAt_of_file hentry, fun q hq => contentAt_congr (hothers q hq)⟩

end FileTree

namespace Host

variable {path : String} {content : ByteArray}

theorem act_writeFile_error {h : Host} {e : IoError} (hw : h.files.write path content = .error e) :
    act (MonadHost.writeFile path content) h = (.error e, h) := by
  simp [act, MonadHost.writeFile, hw]

theorem act_writeFile_ok {h : Host} {t : FileTree} (hw : h.files.write path content = .ok t) :
    act (MonadHost.writeFile path content) h = (.ok (), { h with files := t }) := by
  simp [act, MonadHost.writeFile, hw]

/-- A host with a tree of files keeps them, whatever its Java program does. -/
theorem keepsFiles : KeepsFiles Host.files where
  read_eq _ _ := rfl
  read_files _ _ := rfl
  write_eq := by
    intro h path content
    change _ = (h.files.write path content).map _
    cases hw : h.files.write path content with
    | error e =>
      rw [act_writeFile_error hw]
      rfl
    | ok t =>
      rw [act_writeFile_ok hw]
      rfl
  write_error := by
    intro h path content e hw
    rw [afterWrite, act_writeFile_error hw]
  write_ok := by
    intro h path content t hw
    rw [afterWrite, act_writeFile_ok hw]
  startLog_files _ _ := rfl
  log_files _ _ := rfl

end Host

end MiniC
