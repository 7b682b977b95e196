import Mathlib.Logic.Relation
import MiniC.Proofs.Core.CodeLabels

/-!
# Where control goes

From every instruction control goes on to the next one or to a label, and behind a `return` it goes
nowhere. A conditional branch may go either way, so that the ways through the code are those of a
graph over its indices.

A piece of code is *enclosed* if whoever is in it can leave it only at its end. Where control gets
stuck in a part of the code, it is *confined*: it never comes to an index behind that part.
-/

namespace MiniC.Jvm

open MiniC.Core

/-! ## Pieces of code -/

/-- The instructions `c` stand in `code` from the index `pc` on. -/
def CodeAt (code : List Instruction) (pc : Nat) (c : List Instruction) : Prop :=
  ∃ before behind, code = before ++ c ++ behind ∧ before.length = pc

section CodeAt

variable {code c d : List Instruction} {pc : Nat} {i : Instruction}

theorem codeAt_all (code : List Instruction) : CodeAt code 0 code := ⟨[], [], by simp, rfl⟩

theorem CodeAt.left (h : CodeAt code pc (c ++ d)) : CodeAt code pc c := by
  obtain ⟨before, behind, rfl, rfl⟩ := h
  exact ⟨before, d ++ behind, by simp, rfl⟩

theorem CodeAt.right (h : CodeAt code pc (c ++ d)) : CodeAt code (pc + c.length) d := by
  obtain ⟨before, behind, rfl, rfl⟩ := h
  exact ⟨before ++ c, behind, by simp, by simp⟩

theorem CodeAt.head (h : CodeAt code pc (i :: c)) : code[pc]? = some i := by
  obtain ⟨before, behind, rfl, rfl⟩ := h
  simp

theorem CodeAt.tail (h : CodeAt code pc (i :: c)) : CodeAt code (pc + 1) c :=
  CodeAt.right (c := [i]) h

theorem CodeAt.getElem? {piece : List Instruction} (h : CodeAt code pc piece) {k : Nat}
    (hk : k < piece.length) : code[pc + k]? = piece[k]? := by
  obtain ⟨before, behind, rfl, rfl⟩ := h
  rw [List.append_assoc, List.getElem?_append_right (Nat.le_add_right _ _), Nat.add_sub_cancel_left,
    List.getElem?_append_left hk]

end CodeAt

/-! ## The graph of the code -/

/-- May control go on to the next instruction? -/
def Instruction.falls : Instruction → Bool
  | goto _ | ret _ => false
  | _ => true

/-- Control may go from the index `i` to the index `j`. -/
inductive Next (code : List Instruction) : Nat → Nat → Prop where
  | fall {i : Nat} {ins : Instruction} : code[i]? = some ins → ins.falls = true →
      Next code i (i + 1)
  | jump {i j : Nat} {ins : Instruction} {l : Label} : code[i]? = some ins →
      ins.target? = some l → code[j]? = some (.label l) → Next code i j

/-- There is a way from the index `i` to the index `j`. -/
def Reaches (code : List Instruction) : Nat → Nat → Prop := Relation.ReflTransGen (Next code)

section Graph

variable {code : List Instruction} {a b i j : Nat}

/-- What the instruction at an index lets control do. -/
theorem Next.cases_at {ins : Instruction} (h : Next code i j) (hi : code[i]? = some ins) :
    ins.falls = true ∧ j = i + 1 ∨
      ∃ l, ins.target? = some l ∧ code[j]? = some (.label l) := by
  cases h with
  | fall hi' hfalls =>
    rw [hi] at hi'
    cases hi'
    exact .inl ⟨hfalls, rfl⟩
  | jump hi' hl hj =>
    rw [hi] at hi'
    cases hi'
    exact .inr ⟨_, hl, hj⟩

/-- From the indices `a` up to `b`, control comes only to these and to `b`. -/
def Enclosed (code : List Instruction) (a b : Nat) : Prop :=
  ∀ i j, a ≤ i → i < b → Next code i j → a ≤ j ∧ j ≤ b

/-- From the index `a`, control never comes to `b` or behind. -/
def Confined (code : List Instruction) (a b : Nat) : Prop := ∀ i, Reaches code a i → i < b

theorem Confined.mono {b' : Nat} (h : Confined code a b) (hle : b ≤ b') : Confined code a b' :=
  fun i hi => Nat.lt_of_lt_of_le (h i hi) hle

/-- One step, and then on. -/
theorem confined_of_next (ha : a < b) (h : ∀ i, Next code a i → Confined code i b) :
    Confined code a b := by
  intro i hi
  rcases Relation.ReflTransGen.cases_head hi with rfl | ⟨c, hc, hrest⟩
  · exact ha
  · exact h c hc i hrest

/-- Control cannot leave a part of the code that no edge leaves. -/
theorem confined_of_closed (ha : a < b)
    (h : ∀ i j, a ≤ i → i < b → Next code i j → a ≤ j ∧ j < b) : Confined code a b := by
  intro i hi
  have hin : a ≤ i ∧ i < b := by
    induction hi with
    | refl => exact ⟨Nat.le_refl a, ha⟩
    | tail _ hnext ih => exact h _ _ ih.1 ih.2 hnext
  exact hin.2

/-- Control that leaves an enclosed piece goes on behind it. -/
theorem Enclosed.cases (h : Enclosed code a b) (hle : a ≤ b) (hi : Reaches code a i) :
    i < b ∨ Reaches code b i := by
  -- whatever is left of the way starts in the piece or at its end
  have hgo : ∀ k, Reaches code k i → a ≤ k → k ≤ b → i < b ∨ Reaches code b i := by
    intro k hk
    induction hk using Relation.ReflTransGen.head_induction_on with
    | refl =>
      intro _ hib
      rcases Nat.lt_or_eq_of_le hib with hlt | rfl
      · exact .inl hlt
      · exact .inr .refl
    | head hnext hrest ih =>
      intro hak hkb
      rcases Nat.lt_or_eq_of_le hkb with hlt | rfl
      · obtain ⟨haj, hjb⟩ := h _ _ hak hlt hnext
        exact ih haj hjb
      · exact .inr (.head hnext hrest)
  exact hgo a hi (Nat.le_refl a) hle

/-- Control that gets stuck behind an enclosed piece gets stuck in front of it, too. -/
theorem Enclosed.confined {c : Nat} (h : Enclosed code a b) (hle : a ≤ b)
    (hb : Confined code b c) : Confined code a c := by
  intro i hi
  rcases h.cases hle hi with hlt | hi
  · exact Nat.lt_trans hlt (hb b .refl)
  · exact hb i hi

/-! ### The first step -/

theorem confined_ret {ty : Ty} (ha : code[a]? = some (.ret ty)) (hlt : a < b) :
    Confined code a b := by
  refine confined_of_next hlt fun i hi => ?_
  rcases hi.cases_at ha with ⟨hfalls, -⟩ | ⟨l, hl, -⟩
  · cases hfalls
  · cases hl

theorem confined_label {l : Label} (ha : code[a]? = some (.label l))
    (h : Confined code (a + 1) b) : Confined code a b := by
  refine confined_of_next (Nat.lt_of_succ_lt (h _ .refl)) fun i hi => ?_
  rcases hi.cases_at ha with ⟨-, rfl⟩ | ⟨l, hl, -⟩
  · exact h
  · cases hl

theorem confined_ifZero {cond : Cond} {l : Label} {j : Nat} (hlabels : (labelsIn code).Nodup)
    (ha : code[a]? = some (.ifZero cond l)) (hj : code[j]? = some (.label l))
    (hnext : Confined code (a + 1) b) (htarget : Confined code j b) : Confined code a b := by
  refine confined_of_next (Nat.lt_of_succ_lt (hnext _ .refl)) fun i hi => ?_
  rcases hi.cases_at ha with ⟨-, rfl⟩ | ⟨l, hl, hi⟩
  · exact hnext
  · cases hl
    rw [index_unique hlabels hi hj]
    exact htarget

/-- From the last instruction, control does not go on. -/
theorem confined_of_ends_in_ret (c : List Instruction) (ty : Ty) :
    Confined (c ++ [Instruction.ret ty]) 0 (c ++ [Instruction.ret ty]).length := by
  refine confined_of_closed (by simp) fun i j _ hi hnext => ⟨Nat.zero_le j, ?_⟩
  cases hnext with
  | fall hins hfalls =>
    rw [List.length_append, List.length_singleton] at hi ⊢
    rcases Nat.lt_or_eq_of_le (Nat.le_of_lt_succ hi) with hlt | rfl
    · omega
    · rw [List.getElem?_concat_length] at hins
      cases hins
      cases hfalls
  | jump _ _ hj => exact (List.getElem?_eq_some_iff.mp hj).1

end Graph

/-! ## Code that jumps only to itself -/

/-- All jumps of the code go to labels that it places. -/
def TargetsOwn (c : List Instruction) : Prop :=
  ∀ ins ∈ c, ∀ l, ins.target? = some l → .label l ∈ c

/-- Where no label is placed twice, such a piece of code is enclosed. -/
theorem TargetsOwn.enclosed {code piece : List Instruction} {pc : Nat} (h : TargetsOwn piece)
    (hat : CodeAt code pc piece) (hlabels : (labelsIn code).Nodup) :
    Enclosed code pc (pc + piece.length) := by
  intro i j hi hlt hnext
  obtain ⟨k, rfl⟩ := Nat.exists_eq_add_of_le hi
  have hk : k < piece.length := by omega
  have hins : code[pc + k]? = some piece[k] := by rw [hat.getElem? hk, List.getElem?_eq_getElem hk]
  rcases hnext.cases_at hins with ⟨-, rfl⟩ | ⟨l, hl, hj⟩
  · omega
  · obtain ⟨n, hn, heq⟩ := List.getElem_of_mem (h _ (List.getElem_mem hk) l hl)
    have hplaced : code[pc + n]? = some (.label l) := by
      rw [hat.getElem? hn, List.getElem?_eq_getElem hn, heq]
    rw [index_unique hlabels hj hplaced]
    omega

/-- Where control cannot go on, there is a return. -/
theorem isReturn_of_stuck {code : List Instruction} {i : Nat} (hown : TargetsOwn code)
    (hi : i < code.length) (hstuck : ∀ j, ¬ Next code i j) : code[i].isReturn = true := by
  have hins := List.getElem?_eq_getElem hi
  cases h : code[i] with
  | ret ty => rfl
  | goto l =>
    have hmem := hown _ (List.getElem_mem hi) l (by rw [h]; rfl)
    obtain ⟨j, hj⟩ := List.getElem?_of_mem hmem
    exact absurd (.jump hins (by rw [h]; rfl) hj) (hstuck j)
  | _ => exact absurd (.fall hins (by rw [h]; rfl)) (hstuck (i + 1))

end MiniC.Jvm
