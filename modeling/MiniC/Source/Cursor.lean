import MiniC.Source.Pos

/-!
# A cursor over bytes

A `Cursor` holds the bytes that are still to be read and the position of the first of them. It moves
byte by byte. Every move amounts to an `advance` by some number of bytes, so one lemma per operation
says which bytes were handed out and where the cursor stands afterwards.
-/

namespace MiniC

/-- The unread bytes of a text, and where they start. -/
structure Cursor where
  rest : List UInt8
  pos : Pos
deriving Repr, DecidableEq

namespace Cursor

/-- A cursor at the start of `bs`. -/
def ofBytes (bs : List UInt8) : Cursor := ⟨bs, Pos.start⟩

/-- A cursor at the start of a text, over its UTF-8 bytes. -/
def ofString (s : String) : Cursor := ofBytes s.toByteArray.data.toList

/-- The next byte, left unread. -/
def peek? (c : Cursor) : Option UInt8 := c.rest.head?

/-- Reads one byte. -/
def next? (c : Cursor) : Option (UInt8 × Cursor) :=
  match c.rest with
  | [] => none
  | b :: rest => some (b, ⟨rest, c.pos.after b⟩)

/-- Skips `n` bytes, or all of them if fewer are left. -/
def advance (c : Cursor) : Nat → Cursor
  | 0 => c
  | n + 1 =>
    match c.next? with
    | none => c.advance n
    | some (_, c') => c'.advance n

/-- Reads one byte if it satisfies `p`. -/
def nextIf? (c : Cursor) (p : UInt8 → Bool) : Option (UInt8 × Cursor) :=
  match c.peek? with
  | none => none
  | some b => if p b then c.next? else none

theorem next?_eq_some {c c' : Cursor} {b : UInt8} (h : c.next? = some (b, c')) :
    c.rest = b :: c'.rest := by
  unfold next? at h
  split at h
  · cases h
  · next hrest =>
    cases h
    exact hrest

theorem nextIf?_eq_some {c c' : Cursor} {p : UInt8 → Bool} {b : UInt8}
    (h : c.nextIf? p = some (b, c')) : c.next? = some (b, c') ∧ p b := by
  unfold nextIf? at h
  split at h
  · cases h
  · next hpeek =>
    split at h
    · next hp =>
      rw [peek?, next?_eq_some h] at hpeek
      cases hpeek
      exact ⟨h, hp⟩
    · cases h

/-- Skips bytes as long as they satisfy `p`, and adds their number to `n`. -/
def countWhile (c : Cursor) (p : UInt8 → Bool) (n : Nat) : Nat × Cursor :=
  match _h : c.nextIf? p with
  | none => (n, c)
  | some (_, c') => c'.countWhile p (n + 1)
termination_by c.rest.length
decreasing_by simp [next?_eq_some (nextIf?_eq_some _h).1]

/-- Reads the longest run of bytes that satisfy `p`. -/
def takeWhile (c : Cursor) (p : UInt8 → Bool) : List UInt8 × Cursor :=
  let (n, c') := c.countWhile p 0
  (c.rest.take n, c')

/-! ## What each move does to the bytes and the position -/

section Moves

variable {c : Cursor}

theorem advance_eq (c : Cursor) (n : Nat) :
    c.advance n = ⟨c.rest.drop n, c.pos.afterAll (c.rest.take n)⟩ := by
  induction n generalizing c with
  | zero => rfl
  | succ n ih =>
    obtain ⟨rest, pos⟩ := c
    cases rest with
    | nil => exact (ih ⟨[], pos⟩).trans (by simp)
    | cons b rest => exact ih ⟨rest, pos.after b⟩

theorem advance_append (l rest : List UInt8) (p : Pos) :
    (Cursor.mk (l ++ rest) p).advance l.length = ⟨rest, p.afterAll l⟩ := by
  simp [advance_eq]

theorem advance_of_length_le {n : Nat} (h : c.rest.length ≤ n) :
    c.advance n = ⟨[], c.pos.afterAll c.rest⟩ := by
  simp [advance_eq, List.drop_eq_nil_of_le h, List.take_of_length_le h]

theorem advance_length (c : Cursor) (n : Nat) :
    (c.advance n).rest.length = c.rest.length - n := by
  simp [advance_eq]

theorem advance_advance (c : Cursor) (m n : Nat) : (c.advance m).advance n = c.advance (m + n) := by
  simp only [advance_eq, List.drop_drop, ← Pos.afterAll_append, List.take_add]

theorem next?_of_nil (h : c.rest = []) : c.next? = none := by
  simp [next?, h]

theorem next?_of_cons {b : UInt8} {rest : List UInt8} (h : c.rest = b :: rest) :
    c.next? = some (b, c.advance 1) := by
  simp [next?, advance, h]

theorem nextIf?_of_nil (h : c.rest = []) (p : UInt8 → Bool) : c.nextIf? p = none := by
  simp [nextIf?, peek?, h]

theorem nextIf?_of_cons {b : UInt8} {rest : List UInt8} (h : c.rest = b :: rest)
    (p : UInt8 → Bool) : c.nextIf? p = if p b then some (b, c.advance 1) else none := by
  simp [nextIf?, peek?, next?_of_cons h, h]

theorem countWhile_of_none {p : UInt8 → Bool} (h : c.nextIf? p = none) (n : Nat) :
    c.countWhile p n = (n, c) := by
  rw [countWhile]
  split
  · rfl
  · next hnext => cases h.symm.trans hnext

theorem countWhile_of_some {c' : Cursor} {p : UInt8 → Bool} {b : UInt8}
    (h : c.nextIf? p = some (b, c')) (n : Nat) : c.countWhile p n = c'.countWhile p (n + 1) := by
  rw [countWhile]
  split
  · next hnext => cases h.symm.trans hnext
  · next hnext =>
    cases h.symm.trans hnext
    rfl

theorem countWhile_eq (p : UInt8 → Bool) (bs : List UInt8) :
    ∀ {c : Cursor} (n : Nat), c.rest = bs →
      c.countWhile p n = (n + (bs.takeWhile p).length, c.advance (bs.takeWhile p).length) := by
  induction bs with
  | nil =>
    intro c n hrest
    rw [countWhile_of_none (nextIf?_of_nil hrest p)]
    rfl
  | cons b bs ih =>
    intro c n hrest
    have hnext := nextIf?_of_cons hrest p
    by_cases hb : p b
    · have htail : (c.advance 1).rest = bs := by simp [advance_eq, hrest]
      rw [if_pos hb] at hnext
      rw [countWhile_of_some hnext, ih (n + 1) htail, advance_advance,
        List.takeWhile_cons_of_pos hb, List.length_cons, Nat.add_assoc n 1, Nat.add_comm 1]
    · rw [if_neg hb] at hnext
      rw [countWhile_of_none hnext, List.takeWhile_cons_of_neg hb]
      rfl

/-- The run that is read is a first part of the unread bytes. -/
theorem takeWhile_eq (c : Cursor) (p : UInt8 → Bool) :
    c.takeWhile p = (c.rest.takeWhile p, c.advance (c.rest.takeWhile p).length) := by
  rw [takeWhile, countWhile_eq p c.rest 0 rfl]
  simp only [Nat.zero_add]
  rw [← List.prefix_iff_eq_take.mp (List.takeWhile_prefix p)]

end Moves

end Cursor

end MiniC
