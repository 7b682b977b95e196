import MiniC.Proofs.Semantics.Machine

/-!
# Variables on the machine

A frame *agrees* with the variables of a call if the words of every variable that has a value stand
in the slots of that variable. The slots of two variables never overlap, so that writing one of them
leaves the others as they are.
-/

namespace MiniC

variable {P : Platform}

/-! ## Words of values -/

theorem Value.length_words (x : Value P) : x.words.length = x.ty.words := by
  cases x <;> rfl

namespace Jvm

theorem fits_words (x : Value P) : fits x.ty x.words = true := by
  cases x <;> rfl

/-- A value on top of the stack can be taken from there. -/
theorem popWords_words (x : Value P) (stack : List (Word P)) :
    popWords x.ty (x.words.reverse ++ stack) = some (x.words, stack) := by
  cases x <;> rfl

theorem decode_words {xs : List (Value P)}
    (h : ∀ x ∈ xs, x.ty = .int ∨ x.ty = .double ∨ x.ty = .string) :
    decode (xs.map Value.ty) (xs.flatMap Value.words) = some xs := by
  induction xs with
  | nil => rfl
  | cons x xs ih =>
    have hrest := ih fun y hy => h y (by simp [hy])
    have hx := h x (by simp)
    cases x <;> simp [Value.ty] at hx <;> simp [Value.ty, Value.words, decode, hrest]

theorem length_flatMap_words {xs : List (Value P)} :
    (xs.flatMap Value.words).length = wordsOf (xs.map Value.ty) := by
  induction xs with
  | nil => rfl
  | cons x xs ih => simp [ih, x.length_words]

/-! ## Local variables -/

namespace Locals

variable {locals : Locals P} {slot slot' n : Nat} {ws : List (Word P)}

theorem fetch_eq_some_iff :
    locals.fetch slot n = some ws ↔ ws.length = n ∧ ∀ i < n, locals (slot + i) = ws[i]? := by
  induction n generalizing slot ws with
  | zero =>
    rw [fetch]
    constructor
    · rintro ⟨⟩
      exact ⟨rfl, by intro i hi; omega⟩
    · rintro ⟨hlen, -⟩
      rw [List.length_eq_zero_iff.mp hlen]
  | succ n ih =>
    constructor
    · intro h
      rw [fetch] at h
      split at h
      · next w rest hw hrest =>
        cases h
        obtain ⟨hlen, hall⟩ := ih.mp hrest
        refine ⟨by simp [hlen], ?_⟩
        intro i hi
        cases i with
        | zero => simpa using hw
        | succ i =>
          have := hall i (by omega)
          rw [Nat.add_assoc, Nat.add_comm 1 i] at this
          simpa using this
      · cases h
    · rintro ⟨hlen, hall⟩
      cases ws with
      | nil => cases hlen
      | cons w rest =>
        have hw : locals slot = some w := by simpa using hall 0 (by omega)
        have hrest : locals.fetch (slot + 1) n = some rest := by
          refine ih.mpr ⟨by simpa using hlen, ?_⟩
          intro i hi
          have := hall (i + 1) (by omega)
          rw [Nat.add_comm i 1, ← Nat.add_assoc] at this
          simpa [Nat.add_comm 1 i] using this
        rw [fetch, hw, hrest]

theorem fetch_put_self : (locals.put slot ws).fetch slot ws.length = some ws := by
  refine fetch_eq_some_iff.mpr ⟨rfl, ?_⟩
  intro i hi
  simp [put, hi]

/-- Words that are written elsewhere do not show. -/
theorem fetch_put_of_disjoint {vs : List (Word P)}
    (h : slot + n ≤ slot' ∨ slot' + ws.length ≤ slot) (hf : locals.fetch slot n = some vs) :
    (locals.put slot' ws).fetch slot n = some vs := by
  obtain ⟨hlen, hall⟩ := fetch_eq_some_iff.mp hf
  refine fetch_eq_some_iff.mpr ⟨hlen, ?_⟩
  intro i hi
  rw [← hall i hi]
  exact if_neg (by omega)

end Locals

/-! ## Agreement -/

open MiniC.Core

/-- The words of every variable that has a value stand in its slots. -/
def Agrees (total : VarTypes) (store : Store P) (locals : Locals P) : Prop :=
  ∀ v x, store v = some x →
    total[v.index]? = some x.ty ∧ locals.fetch (slotIn total v) x.ty.words = some x.words

variable {total : VarTypes} {store : Store P} {locals : Locals P}

theorem Agrees.write {v : VarId} {x : Value P} (h : Agrees total store locals)
    (hv : total[v.index]? = some x.ty) :
    Agrees total (store.write v x) (locals.put (slotIn total v) x.words) := by
  intro w y hy
  unfold Store.write at hy
  split at hy
  · next hwv =>
    cases hy
    subst hwv
    refine ⟨hv, ?_⟩
    rw [← x.length_words]
    exact Locals.fetch_put_self
  · next hwv =>
    obtain ⟨hw, hfetch⟩ := h w y hy
    refine ⟨hw, Locals.fetch_put_of_disjoint ?_ hfetch⟩
    have hindex : w.index ≠ v.index := by
      intro heq
      cases w
      cases v
      exact hwv (congrArg VarId.mk heq)
    -- the slots of different variables do not overlap, whichever was declared first
    rcases Nat.lt_or_gt_of_ne hindex with hlt | hgt
    · exact .inl (slotIn_add_words_le hw hlt)
    · rw [x.length_words]
      exact .inr (slotIn_add_words_le hv hgt)

/-- A variable without a value asks for nothing. -/
theorem Agrees.forget {vs : List VarDecl} (h : Agrees total store locals) :
    Agrees total (store.forget vs) locals := by
  intro v x hx
  unfold Store.forget at hx
  split at hx
  · cases hx
  · exact h v x hx

/-- Arguments stand one behind the other, as the slots of the parameters do. -/
theorem agrees_ofArgs {params : List VarDecl} :
    ∀ {vars : VarTypes} {xs : List (Value P)}, NewVars vars params →
      xs.map Value.ty = params.map VarDecl.ty → vars ++ params.map VarDecl.ty <+: total →
      (∀ i < (xs.flatMap Value.words).length,
        locals (wordsOf vars + i) = (xs.flatMap Value.words)[i]?) →
      Agrees total (Store.ofArgs params xs) locals := by
  induction params with
  | nil =>
    intro vars xs _ _ _ _ v x hx
    cases hx
  | cons p params ih =>
    intro vars xs hnew htys hprefix hlocals
    cases xs with
    | nil => cases htys
    | cons y ys =>
      obtain ⟨hid, hrest⟩ := hnew.tail
      simp only [List.map_cons, List.cons.injEq] at htys
      obtain ⟨hy, hys⟩ := htys
      have hvars : vars <+: total := (List.prefix_append _ _).trans hprefix
      -- the words of the other arguments lie behind those of the first
      have hinner := ih hrest hys (by simpa using hprefix) (by
        intro i hi
        have := hlocals (y.words.length + i) (by
          rw [List.flatMap_cons, List.length_append]
          omega)
        rw [List.flatMap_cons, List.getElem?_append_right (by omega)] at this
        simpa [y.length_words, hy, Nat.add_assoc] using this)
      intro v x hx
      simp only [Store.ofArgs, Store.write] at hx
      split at hx
      · next hvp =>
        cases hx
        subst hvp
        refine ⟨?_, ?_⟩
        · obtain ⟨more, rfl⟩ := hprefix
          simp [hid, hy]
        · rw [slotIn_of_isPrefix hvars (Nat.le_of_eq hid), slotIn, hid, List.take_length,
            ← y.length_words]
          refine Locals.fetch_eq_some_iff.mpr ⟨rfl, ?_⟩
          intro i hi
          have := hlocals i (by
            rw [List.flatMap_cons, List.length_append]
            omega)
          rw [this, List.flatMap_cons, List.getElem?_append_left hi]
      · exact hinner v x hx

end Jvm

end MiniC
