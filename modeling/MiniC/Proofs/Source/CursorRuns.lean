import Mathlib.Data.List.TakeWhile
import MiniC.Proofs.Runs
import MiniC.Proofs.Token.Spelling
import MiniC.Source.Cursor

/-!
# A cursor accounts for every byte

Whatever moves a cursor makes, the bytes that it has handed out or skipped, followed by those still
unread, are the text, and its position is the one behind the bytes that are gone. Every move is an
`advance` by the number of bytes that it consumes, so one lemma covers them all.
-/

namespace MiniC.Cursor

/-! ## Moves and answers -/

/-- One use of a cursor. -/
inductive Move where
  | next
  | peek
  | advance (n : Nat)
  | nextIf (p : UInt8 → Bool)
  | takeWhile (p : UInt8 → Bool)

/-- What a move hands out. -/
inductive Answer where
  | nothing
  | byte (b : Option UInt8)
  | bytes (bs : List UInt8)
deriving DecidableEq

/-- A byte that was read, or else the cursor as it was. -/
def readOr (c : Cursor) : Option (UInt8 × Cursor) → Answer × Cursor
  | some (b, c') => (.byte b, c')
  | none => (.byte none, c)

/-- Makes a move. -/
def perform (c : Cursor) : Move → Answer × Cursor
  | .next => c.readOr c.next?
  | .peek => (.byte c.peek?, c)
  | .advance n => (.nothing, c.advance n)
  | .nextIf p => c.readOr (c.nextIf? p)
  | .takeWhile p => (.bytes (c.takeWhile p).1, (c.takeWhile p).2)

/-- A move that was made, and its answer. -/
abbrev Event := Runs.Event Move Answer

/-! ## What the events tell -/

/-- The bytes that were handed out or skipped, where `rest` was unread. A byte that was only looked
at is still there. -/
def Event.gone (rest : List UInt8) : Event → List UInt8
  | ⟨.peek, _⟩ => []
  | ⟨.advance n, _⟩ => rest.take n
  | ⟨_, .byte b⟩ => b.toList
  | ⟨_, .bytes bs⟩ => bs
  | ⟨_, .nothing⟩ => []

/-- All bytes that were handed out or skipped, one event after the other, from the text `bs`. -/
def gone (bs : List UInt8) : List Event → List UInt8
  | [] => []
  | e :: es => e.gone bs ++ gone (bs.drop (e.gone bs).length) es

/-- `taken` is the longest beginning of `bs` whose bytes all satisfy `p`. -/
def IsLongestRun (p : UInt8 → Bool) (bs taken : List UInt8) : Prop :=
  taken <+: bs ∧ (∀ b ∈ taken, p b) ∧
    ∀ run, run <+: bs → (∀ b ∈ run, p b) → run <+: taken

/-- What a move should answer where `rest` is unread, and what it should leave unread. -/
def Move.Does (rest : List UInt8) : Move → Answer → List UInt8 → Prop
  | .next, a, left => a = .byte rest.head? ∧ left = rest.tail
  | .peek, a, left => a = .byte rest.head? ∧ left = rest
  | .advance n, a, left => a = .nothing ∧ left = rest.drop n
  | .nextIf p, a, left =>
    (∃ b, rest = b :: left ∧ p b ∧ a = .byte b) ∨
      ((∀ b, rest.head? = some b → ¬ p b) ∧ a = .byte none ∧ left = rest)
  | .takeWhile p, a, left =>
    ∃ taken, a = .bytes taken ∧ IsLongestRun p rest taken ∧ rest = taken ++ left

/-! ## One move -/

variable {c : Cursor} {bs : List UInt8}

theorem isLongestRun_takeWhile (p : UInt8 → Bool) (bs : List UInt8) :
    IsLongestRun p bs (bs.takeWhile p) := by
  refine ⟨List.takeWhile_prefix p, fun b => List.mem_takeWhile_imp, ?_⟩
  rintro run ⟨rest, rfl⟩ hrun
  rw [List.takeWhile_append_of_pos hrun]
  exact List.prefix_append _ _

theorem take_takeWhile (bs : List UInt8) (p : UInt8 → Bool) :
    bs.take (bs.takeWhile p).length = bs.takeWhile p :=
  (List.prefix_iff_eq_take.mp (List.takeWhile_prefix p)).symm

/-- Every move does what it should. -/
theorem perform_does (c : Cursor) (m : Move) :
    m.Does c.rest (c.perform m).1 (c.perform m).2.rest := by
  cases m with
  | next =>
    cases hrest : c.rest with
    | nil => simp [perform, readOr, next?_of_nil hrest, hrest, Move.Does]
    | cons b rest => simp [perform, readOr, next?_of_cons hrest, hrest, Move.Does, advance_eq]
  | peek => exact ⟨rfl, rfl⟩
  | advance n => exact ⟨rfl, congrArg Cursor.rest (c.advance_eq n)⟩
  | nextIf p =>
    cases hrest : c.rest with
    | nil => simp [perform, readOr, nextIf?_of_nil hrest, hrest, Move.Does]
    | cons b rest =>
      by_cases hb : p b <;>
        simp [perform, readOr, nextIf?_of_cons hrest, hrest, Move.Does, hb, advance_eq]
  | takeWhile p =>
    have hsplit := List.take_append_drop (c.rest.takeWhile p).length c.rest
    rw [take_takeWhile] at hsplit
    rw [perform, takeWhile_eq, advance_eq]
    exact ⟨_, rfl, isLongestRun_takeWhile p c.rest, hsplit.symm⟩

/-- Every move advances by the bytes that it hands out or skips. -/
theorem perform_eq_advance (c : Cursor) (m : Move) :
    ∃ k, (c.perform m).2 = c.advance k ∧
      Event.gone c.rest ⟨m, (c.perform m).1⟩ = c.rest.take k := by
  cases m with
  | next =>
    cases hrest : c.rest with
    | nil => exact ⟨0, by simp [perform, readOr, next?_of_nil hrest, Event.gone, advance]⟩
    | cons b rest => exact ⟨1, by simp [perform, readOr, next?_of_cons hrest, Event.gone]⟩
  | peek => exact ⟨0, rfl, rfl⟩
  | advance n => exact ⟨n, rfl, rfl⟩
  | nextIf p =>
    cases hrest : c.rest with
    | nil => exact ⟨0, by simp [perform, readOr, nextIf?_of_nil hrest, Event.gone, advance]⟩
    | cons b rest =>
      by_cases hb : p b
      · exact ⟨1, by simp [perform, readOr, nextIf?_of_cons hrest, hb, Event.gone]⟩
      · exact ⟨0, by simp [perform, readOr, nextIf?_of_cons hrest, hb, Event.gone, advance]⟩
  | takeWhile p =>
    rw [perform, takeWhile_eq]
    exact ⟨_, rfl, (take_takeWhile c.rest p).symm⟩

/-! ## Whole runs -/

/-- The bytes `read` of the text `bs` are gone, and the cursor stands right behind them. -/
structure StandsBehind (c : Cursor) (bs read : List UInt8) : Prop where
  rest : read ++ c.rest = bs
  pos : c.pos = Pos.behind read

theorem StandsBehind.advance {read : List UInt8} (h : c.StandsBehind bs read) (k : Nat) :
    (c.advance k).StandsBehind bs (read ++ c.rest.take k) where
  rest := by rw [advance_eq, List.append_assoc, List.take_append_drop, h.rest]
  pos := by rw [advance_eq, ← Pos.behind_afterAll, ← h.pos]

theorem gone_concat (es : List Event) (e : Event) :
    ∀ bs : List UInt8,
      gone bs (es ++ [e]) = gone bs es ++ e.gone (bs.drop (gone bs es).length) := by
  induction es with
  | nil => exact fun bs => List.append_nil _
  | cons d es ih =>
    intro bs
    rw [List.cons_append, gone, gone, ih, List.append_assoc, List.drop_drop, List.length_append]

/-- The cursor stands behind what is gone, whatever move comes next. -/
theorem StandsBehind.perform {es : List Event} (m : Move) (h : c.StandsBehind bs (gone bs es)) :
    (c.perform m).2.StandsBehind bs (gone bs (es ++ [⟨m, (c.perform m).1⟩])) := by
  obtain ⟨k, hcursor, hgone⟩ := c.perform_eq_advance m
  have hrest : bs.drop (gone bs es).length = c.rest :=
    (congrArg (List.drop _) h.rest).symm.trans List.drop_left
  rw [gone_concat, hrest, hgone, hcursor]
  exact h.advance k

/-- The cursor behind some moves over a text. -/
def reached (bs : List UInt8) (moves : List Move) : Cursor := Runs.after perform (ofBytes bs) moves

/-- The bytes that some moves over a text hand out or skip. -/
def consumed (bs : List UInt8) (moves : List Move) : List UInt8 :=
  gone bs (Runs.events perform (ofBytes bs) moves)

theorem reached_standsBehind (bs : List UInt8) (moves : List Move) :
    (reached bs moves).StandsBehind bs (consumed bs moves) := by
  have hstart : (ofBytes bs).StandsBehind bs (gone bs []) := ⟨rfl, rfl⟩
  exact Runs.kept_after (I := fun es c => StandsBehind c bs (gone bs es)) StandsBehind.perform moves
    hstart

theorem reached_concat (bs : List UInt8) (moves : List Move) (m : Move) :
    reached bs (moves ++ [m]) = ((reached bs moves).perform m).2 :=
  Runs.after_append perform _ moves [m]

theorem reached_advance_of_le {moves : List Move} {n : Nat}
    (hn : (reached bs moves).rest.length ≤ n) :
    reached bs (moves ++ [.advance n]) = ⟨[], Pos.behind bs⟩ := by
  have h := reached_standsBehind bs moves
  rw [reached_concat, perform, advance_of_length_le hn, h.pos, Pos.behind_afterAll, h.rest]

/-- Behind any moves over a text, the bytes that were handed out or skipped, followed by the unread
ones, are the text; the line counts the newlines among them, and the column the bytes behind the
last newline. Whatever move comes next hands out and leaves what it should, and one that goes past
the end stops there. -/
theorem cursor_accounts (bs : List UInt8) (moves : List Move) :
    consumed bs moves ++ (reached bs moves).rest = bs ∧
    (reached bs moves).pos = Pos.behind (consumed bs moves) ∧
    (∀ m : Move, m.Does (reached bs moves).rest ((reached bs moves).perform m).1
      (reached bs (moves ++ [m])).rest) ∧
    ∀ n, (reached bs moves).rest.length ≤ n →
      reached bs (moves ++ [.advance n]) = ⟨[], Pos.behind bs⟩ := by
  have h := reached_standsBehind bs moves
  refine ⟨h.rest, h.pos, fun m => ?_, fun n => reached_advance_of_le⟩
  rw [reached_concat]
  exact perform_does _ m

end MiniC.Cursor
