/-!
# Runs

A thing that is used call by call answers each of them, and is in a new state behind it. What holds
of the answers and the state, and is kept by every call, holds behind a whole run. Where a call may
fail, the run ends there.
-/

namespace MiniC.Runs

/-- A call that was made, and its answer. -/
structure Event (ι α : Type) where
  call : ι
  answer : α

variable {σ ι α ε : Type}

/-! ## Calls that are always answered -/

section Answered

variable (perform : σ → ι → α × σ)

/-- The state behind some calls. -/
def after (s : σ) : List ι → σ
  | [] => s
  | c :: cs => after (perform s c).2 cs

/-- What happens when the calls are made in order. -/
def events (s : σ) : List ι → List (Event ι α)
  | [] => []
  | c :: cs => ⟨c, (perform s c).1⟩ :: events (perform s c).2 cs

theorem after_append (s : σ) (a b : List ι) :
    after perform s (a ++ b) = after perform (after perform s a) b := by
  induction a generalizing s with
  | nil => rfl
  | cons c a ih => exact ih _

variable {perform}

/-- What every call keeps holds behind all of them. -/
theorem kept_after {I : List (Event ι α) → σ → Prop}
    (hstep : ∀ {es s} c, I es s → I (es ++ [⟨c, (perform s c).1⟩]) (perform s c).2)
    (cs : List ι) :
    ∀ {es : List (Event ι α)} {s : σ}, I es s →
      I (es ++ events perform s cs) (after perform s cs) := by
  induction cs with
  | nil =>
    intro es s h
    rw [events, List.append_nil]
    exact h
  | cons c cs ih =>
    intro es s h
    rw [events, List.append_cons]
    exact ih (hstep c h)

end Answered

/-! ## Calls that may fail -/

section Failing

variable (serve : σ → ι → Except ε (α × σ))

/-- Makes the calls in order, up to the first that fails: what was answered, and how it ends. -/
def upToFailure (s : σ) : List ι → List (Event ι α) × Except ε σ
  | [] => ([], .ok s)
  | c :: cs =>
    match serve s c with
    | .error f => ([], .error f)
    | .ok (a, s') => (⟨c, a⟩ :: (upToFailure s' cs).1, (upToFailure s' cs).2)

variable {serve}

/-- A run is answered to its end, or it fails at a call that its predecessors have led to; what
every answered call keeps holds in either case. -/
theorem upToFailure_cases {I : List (Event ι α) → σ → Prop}
    (hstep : ∀ {es s c a s'}, I es s → serve s c = .ok (a, s') → I (es ++ [⟨c, a⟩]) s')
    (cs : List ι) :
    ∀ {es : List (Event ι α)} {s : σ}, I es s →
      (∃ es' s', upToFailure serve s cs = (es', .ok s') ∧ es'.map Event.call = cs ∧
        I (es ++ es') s') ∨
      ∃ es' s' c later f, upToFailure serve s cs = (es', .error f) ∧
        cs = es'.map Event.call ++ c :: later ∧ I (es ++ es') s' ∧ serve s' c = .error f := by
  induction cs with
  | nil =>
    intro es s h
    exact .inl ⟨[], s, rfl, rfl, (List.append_nil es).symm ▸ h⟩
  | cons c cs ih =>
    intro es s h
    rw [upToFailure]
    cases hs : serve s c with
    | error f => exact .inr ⟨[], s, c, cs, f, rfl, rfl, (List.append_nil es).symm ▸ h, hs⟩
    | ok r =>
      dsimp only
      rcases ih (hstep h hs) with
        ⟨es', s', hrun, rfl, h'⟩ | ⟨es', s', d, later, f, hrun, rfl, h', hd⟩
      · rw [List.append_assoc] at h'
        exact .inl ⟨_ :: es', s', by rw [hrun], rfl, h'⟩
      · rw [List.append_assoc] at h'
        exact .inr ⟨_ :: es', s', d, later, f, by rw [hrun], rfl, h', hd⟩

end Failing

end MiniC.Runs
