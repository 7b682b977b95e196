import Mathlib.Data.List.Forall2

/-!
# Computations that may fail

How the outcome of a composed computation comes from the outcomes of its parts, and how two
computations are compared step by step.
-/

namespace MiniC

variable {ε ε' α β : Type}

/-- A sequence succeeds exactly when both computations do. -/
theorem bind_eq_ok {x : Except ε α} {f : α → Except ε β} {b : β} :
    (x >>= f) = .ok b ↔ ∃ a, x = .ok a ∧ f a = .ok b := by
  cases x with
  | error e => simp [bind, Except.bind]
  | ok a => simp [bind, Except.bind]

/-- A sequence fails where the first of its computations fails. -/
theorem bind_eq_error {x : Except ε α} {f : α → Except ε β} {e : ε} :
    (x >>= f) = .error e ↔ x = .error e ∨ ∃ a, x = .ok a ∧ f a = .error e := by
  cases x with
  | error e' => simp [bind, Except.bind]
  | ok a => simp [bind, Except.bind]

theorem pure_eq_ok {a b : α} : (pure a : Except ε α) = .ok b ↔ a = b := by
  constructor
  · intro h
    cases h
    rfl
  · rintro rfl
    rfl

theorem map_eq_ok {x : Except ε α} {f : α → β} {b : β} :
    x.map f = .ok b ↔ ∃ a, x = .ok a ∧ f a = b := by
  cases x with
  | error e =>
    show Except.error e = Except.ok b ↔ _
    simp
  | ok a =>
    show Except.ok (f a) = Except.ok b ↔ _
    simp

theorem map_eq_error {x : Except ε α} {f : α → β} {e : ε} : x.map f = .error e ↔ x = .error e := by
  cases x with
  | error e' =>
    show Except.error e' = Except.error e ↔ _
    rw [Except.error.injEq, Except.error.injEq]
  | ok a =>
    show Except.ok (f a) = Except.error e ↔ _
    simp

theorem mapError_eq_ok {x : Except ε α} {f : ε → ε'} {a : α} :
    x.mapError f = .ok a ↔ x = .ok a := by
  cases x with
  | error e =>
    show Except.error (f e) = Except.ok a ↔ _
    simp
  | ok b =>
    show Except.ok b = Except.ok a ↔ _
    rw [Except.ok.injEq, Except.ok.injEq]

/-- Only failures are renamed, and all of them are. -/
theorem mapError_eq_error {x : Except ε α} {f : ε → ε'} {e' : ε'} :
    x.mapError f = .error e' ↔ ∃ e, x = .error e ∧ f e = e' := by
  cases x with
  | error e =>
    show Except.error (f e) = Except.error e' ↔ _
    simp
  | ok b =>
    show Except.ok b = Except.error e' ↔ _
    simp

/-! ## One computation for each element of a list -/

/-- Going through a list succeeds exactly when each element does. -/
theorem mapM_eq_ok {f : α → Except ε β} {as : List α} {bs : List β} :
    as.mapM f = .ok bs ↔ List.Forall₂ (fun a b => f a = .ok b) as bs := by
  induction as generalizing bs with
  | nil => rw [List.mapM_nil, pure_eq_ok, List.forall₂_nil_left_iff, eq_comm]
  | cons a as ih =>
    simp only [List.mapM_cons, bind_eq_ok, pure_eq_ok, ih, List.forall₂_cons_left_iff]
    constructor
    · rintro ⟨b, hb, bs, hbs, rfl⟩
      exact ⟨b, bs, hb, hbs, rfl⟩
    · rintro ⟨b, bs, hb, hbs, rfl⟩
      exact ⟨b, hb, bs, hbs, rfl⟩

/-- The run over a list is cut at an element as the list is. -/
theorem mapM_append_cons_eq_ok {f : α → Except ε β} {before after : List α} {a : α} {bs : List β}
    (h : (before ++ a :: after).mapM f = .ok bs) :
    ∃ front b back, before.mapM f = .ok front ∧ f a = .ok b ∧ after.mapM f = .ok back ∧
      bs = front ++ b :: back := by
  simp only [List.mapM_append, List.mapM_cons, bind_eq_ok, pure_eq_ok] at h
  obtain ⟨front, hfront, _, ⟨b, hb, back, hback, rfl⟩, rfl⟩ := h
  exact ⟨front, b, back, hfront, hb, hback, rfl⟩

/-- The first element whose computation fails decides. -/
theorem mapM_eq_error {f : α → Except ε β} {as : List α} {e : ε} :
    as.mapM f = .error e ↔
      ∃ before a after, as = before ++ a :: after ∧ (∀ x ∈ before, ∃ b, f x = .ok b) ∧
        f a = .error e := by
  induction as with
  | nil => simp [pure, Except.pure]
  | cons a as ih =>
    simp only [List.mapM_cons, bind_eq_error, ih]
    constructor
    · rintro (ha | ⟨b, hb, ⟨before, a', after, rfl, hbefore, ha'⟩ | ⟨_, _, hpure⟩⟩)
      · exact ⟨[], a, as, rfl, by simp, ha⟩
      · exact ⟨a :: before, a', after, rfl, List.forall_mem_cons.mpr ⟨⟨b, hb⟩, hbefore⟩, ha'⟩
      · cases hpure
    · rintro ⟨_ | ⟨x, before⟩, a', after, heq, hbefore, ha'⟩
      · obtain ⟨rfl, rfl⟩ := List.cons.inj heq
        exact .inl ha'
      · obtain ⟨rfl, rfl⟩ := List.cons.inj heq
        obtain ⟨⟨b, hb⟩, hbefore⟩ := List.forall_mem_cons.mp hbefore
        exact .inr ⟨b, hb, .inl ⟨before, a', after, rfl, hbefore, ha'⟩⟩

/-! ## Two computations -/

/-- Both computations succeed, with results that `R` relates, or both fail, with errors that `E`
relates. -/
inductive EndAlike {ε ε' α β : Type} (E : ε → ε' → Prop) (R : α → β → Prop) :
    Except ε α → Except ε' β → Prop where
  | ok {a : α} {b : β} : R a b → EndAlike E R (.ok a) (.ok b)
  | error {e : ε} {e' : ε'} : E e e' → EndAlike E R (.error e) (.error e')

namespace EndAlike

variable {α' β' : Type} {E : ε → ε' → Prop} {R : α → α' → Prop} {S : β → β' → Prop}

theorem pure {a : α} {a' : α'} (h : R a a') : EndAlike E R (pure a) (pure a') := .ok h

/-- Alike computations that hand on alike results end alike. -/
theorem bind {x : Except ε α} {x' : Except ε' α'} {f : α → Except ε β} {f' : α' → Except ε' β'}
    (hx : EndAlike E R x x') (hf : ∀ a a', R a a' → EndAlike E S (f a) (f' a')) :
    EndAlike E S (x >>= f) (x' >>= f') := by
  cases hx with
  | ok h => exact hf _ _ h
  | error h => exact .error h

theorem mapError {δ δ' : Type} {D : δ → δ' → Prop} {x : Except ε α} {x' : Except ε' α'}
    {f : ε → δ} {f' : ε' → δ'} (hx : EndAlike E R x x') (hf : ∀ e e', E e e' → D (f e) (f' e')) :
    EndAlike D R (x.mapError f) (x'.mapError f') := by
  cases hx with
  | ok h => exact .ok h
  | error h => exact .error (hf _ _ h)

/-- Computations that end alike are equal if all that is alike is. -/
theorem eq {E : ε → ε → Prop} {R : α → α → Prop} {x x' : Except ε α} (h : EndAlike E R x x')
    (hE : ∀ e e', E e e' → e' = e) (hR : ∀ a a', R a a' → a' = a) : x' = x := by
  cases h with
  | ok h => rw [hR _ _ h]
  | error h => rw [hE _ _ h]

end EndAlike

end MiniC
