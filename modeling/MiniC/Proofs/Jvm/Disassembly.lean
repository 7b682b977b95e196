import Mathlib
import MiniC.Proofs.Double.ReadBack
import MiniC.Proofs.Jvm.AssemblyLines
import MiniC.Proofs.Token.Scanners

/-!
# Reading instructions back

Each instruction is written on a line of its own, and the line is enough to tell what the machine
does. `ofLine?` reads lines: a line without indentation is a label; any other is a mnemonic, alone
or with a blank and an operand behind it. A mnemonic that stands alone is looked up among the
instructions without operand, any other one names how its operand is to be read. String constants
are read by the scanner for string literals of the source language, doubles as decimal texts.
-/

namespace MiniC

open Byte

/-! ## String constants -/

/-- Bytes that need no escape stand for themselves. -/
theorem Decodes.append_plain {bs body content : List UInt8} (h : Decodes body content)
    (hbs : ∀ b ∈ bs, b ≠ ascii '"' ∧ b ≠ ascii '\\' ∧ b ≠ Pos.newline) :
    Decodes (bs ++ body) (bs ++ content) := by
  induction bs with
  | nil => exact h
  | cons b bs ih =>
    obtain ⟨hquote, hbackslash, hnewline⟩ := hbs b (by simp)
    exact .plain hquote hbackslash hnewline (ih fun a ha => hbs a (by simp [ha]))

namespace Jvm

/-- An escaped character denotes the character. -/
theorem decodes_escapeChar (c : Char) {body content : List UInt8} (h : Decodes body content) :
    Decodes ((Instruction.escapeChar c).flatMap String.utf8EncodeChar ++ body)
      (String.utf8EncodeChar c ++ content) := by
  have hescape : ∀ e a : Char, (ascii e, ascii a) ∈ escapes → e.toNat < 128 → a.toNat < 128 →
      Decodes (['\\', e].flatMap String.utf8EncodeChar ++ body)
        (String.utf8EncodeChar a ++ content) := by
    intro e a hmem he ha
    rw [List.flatMap_cons, List.flatMap_singleton, utf8EncodeChar_of_lt he, utf8EncodeChar_of_lt ha,
      utf8EncodeChar_of_lt (c := '\\') (by decide)]
    exact .escape hmem h
  unfold Instruction.escapeChar
  split_ifs with hquote hbackslash hnewline htab hreturn
  · exact hquote ▸ hescape '"' '"' (by decide) (by decide) (by decide)
  · exact hbackslash ▸ hescape '\\' '\\' (by decide) (by decide) (by decide)
  · exact hnewline ▸ hescape 'n' '\n' (by decide) (by decide) (by decide)
  · exact htab ▸ hescape 't' '\t' (by decide) (by decide) (by decide)
  · exact hreturn ▸ hescape 'r' '\r' (by decide) (by decide) (by decide)
  · rw [List.flatMap_singleton]
    refine h.append_plain fun b hb => ⟨?_, ?_, ?_⟩
    · exact ne_ascii_of_mem_utf8EncodeChar (by decide) hquote hb
    · exact ne_ascii_of_mem_utf8EncodeChar (by decide) hbackslash hb
    · exact ne_ascii_of_mem_utf8EncodeChar (a := '\n') (by decide) hnewline hb

/-- A text with its characters escaped decodes to the text. -/
theorem decodes_escaped (cs : List Char) :
    Decodes (ofText (String.ofList (cs.flatMap Instruction.escapeChar)))
      (ofText (String.ofList cs)) := by
  rw [ofText_ofList, ofText_ofList]
  induction cs with
  | nil => exact .nil
  | cons c cs ih =>
    rw [List.flatMap_cons, List.flatMap_append, List.flatMap_cons]
    exact decodes_escapeChar c ih

/-! ## Reading -/

/-- The label that a text names. -/
def Label.ofText? (s : String) : Option Label :=
  match s.toList with
  | 'L' :: cs => (String.ofList cs).toNat?.map Label.mk
  | _ => none

-- Reading back a printed number is the one thing here for which no smaller import will do.
theorem toNat?_toString (n : Nat) : (toString n).toNat? = some n := Nat.toNat?_repr n

theorem Label.toList_text (l : Label) : l.text.toList = 'L' :: (toString l.index).toList := by
  rw [Label.text, String.toList_append]
  rfl

/-- A label is read back from its text. -/
theorem Label.ofText?_text (l : Label) : Label.ofText? l.text = some l := by
  simp only [Label.ofText?, l.toList_text, String.ofList_toList, toNat?_toString]
  rfl

theorem Label.text_injective : Function.Injective Label.text := by
  intro k l heq
  have hread : some k = some l := by
    rw [← Label.ofText?_text k, heq, Label.ofText?_text]
  exact Option.some.inj hread

/-- The text of a string constant, read as a literal of the source language. -/
def literal? (s : String) : Option String :=
  match s.toList with
  | '"' :: cs =>
    match StringLiteral.scan (ofText (String.ofList cs)) with
    | .closed content _ => String.fromUTF8? ⟨content.toArray⟩
    | _ => none
  | _ => none

/-- A string constant is read back from its literal. -/
theorem literal?_stringLiteral (s : String) : literal? (Instruction.stringLiteral s) = some s := by
  have hbytes : ofText (String.ofList (s.toList.flatMap Instruction.escapeChar ++ ['"'])) =
      ofText (String.ofList (s.toList.flatMap Instruction.escapeChar)) ++ [ascii '"'] := by
    rw [String.ofList_append, ofText_append]
    rfl
  have hscan := StringLiteral.scan_complete (decodes_escaped s.toList) []
  rw [String.ofList_toList] at hscan
  simp only [literal?, Instruction.stringLiteral, String.toList_ofList, List.cons_append, hbytes,
    hscan, fromUTF8?_ofText]

namespace Instruction

/-- The machine has no `bool`. -/
def machineType : Ty → Ty
  | .bool => .int
  | ty => ty

/-- An instruction as the machine sees it: a `bool` is an `int`, what `dup` and `pop` handle is one
word or two, and what a call takes and leaves is told by the method. -/
def seen : Instruction → Instruction
  | load ty slot => load (machineType ty) slot
  | store ty slot => store (machineType ty) slot
  | arith op ty => arith op (machineType ty)
  | neg ty => neg (machineType ty)
  | ret ty => ret (machineType ty)
  | dup ty => dup (if ty.words = 2 then .double else .int)
  | pop ty => pop (if ty.words = 2 then .double else .int)
  | invoke method _ _ => invoke method 0 0
  | i => i

/-- An instruction that the assembler can be given: its types have values, its constant is a number,
and the name of its method does not break the line. -/
def Writable : Instruction → Prop
  | dconst d => d.isNaN = false
  | load ty _ | store ty _ | arith _ ty | neg ty | dup ty | pop ty => ty ≠ .void
  | invoke method _ _ => OneLine method
  | _ => True

/-- The types that a mnemonic can name. -/
def machineTypes : List Ty := [.string, .double, .int]

/-- The instructions without an operand. -/
def bare : List Instruction :=
  [-1, 0, 1, 2, 3, 4, 5].map iconst ++ [.zero, .one].map dconst ++
    [i2d, dcmpg, dcmpl, dup .int, dup .double, pop .int, pop .double, ret .void] ++
      machineTypes.flatMap fun ty =>
        [neg ty, ret ty] ++ [.add, .sub, .mul, .div, .rem, .and, .or].map fun op => arith op ty

/-- How an int constant is read. -/
def int? (s : String) : Option Instruction := s.toInt?.map fun i => iconst (Int32.ofInt i)

/-- The mnemonics in front of an operand, each with the instruction that an operand makes of it. -/
def withOperand : List (String × (String → Option Instruction)) :=
  [("bipush", int?), ("sipush", int?), ("ldc", fun s => (literal? s).map sconst <|> int? s),
    ("ldc2_w", fun s => (Double.ofString? s).map dconst),
    ("goto", fun s => (Label.ofText? s).map goto),
    ("invokestatic", fun s => some (invoke s 0 0))] ++
  (machineTypes.flatMap fun ty =>
    [(typeLetter ty ++ "load", fun s => s.toNat?.map (load ty)),
      (typeLetter ty ++ "store", fun s => s.toNat?.map (store ty))]) ++
  [.eq, .ne, .lt, .gt, .le, .ge].flatMap fun cond =>
    [("if_icmp" ++ cond.text, fun s => (Label.ofText? s).map (ifCompare cond)),
      ("if" ++ cond.text, fun s => (Label.ofText? s).map (ifZero cond))]

/-- The instruction of a text: a mnemonic, and an operand behind the first blank. -/
def ofText? (s : String) : Option Instruction :=
  let mnemonic := String.ofList (s.toList.takeWhile (· ≠ ' '))
  match s.toList.dropWhile (· ≠ ' ') with
  | [] => bare.find? fun i => i.text = mnemonic
  | _ :: operand => (withOperand.lookup mnemonic).bind fun read => read (String.ofList operand)

/-- The instruction of a line. Only labels stand at the margin. -/
def ofLine? (s : String) : Option Instruction :=
  match s.toList with
  | ' ' :: ' ' :: ' ' :: ' ' :: cs => ofText? (String.ofList cs)
  | cs => (Label.ofText? (String.ofList cs.dropLast)).map label

/-! ## Tables

Both tables are short, so that no text stands twice in them, and none with a blank, is found out by
evaluation. -/

theorem lookup_eq_some {α β : Type} [BEq α] [LawfulBEq α] {l : List (α × β)} {a : α} {b : β}
    (hnodup : (l.map Prod.fst).Nodup) (hmem : (a, b) ∈ l) : l.lookup a = some b := by
  induction l with
  | nil => cases hmem
  | cons p l ih =>
    obtain ⟨a', b'⟩ := p
    obtain ⟨hhead, htail⟩ := List.nodup_cons.mp hnodup
    rcases List.mem_cons.mp hmem with heq | hrest
    · cases heq
      simp
    · have hne : a ≠ a' := by
        rintro rfl
        exact hhead (List.mem_map.mpr ⟨_, hrest, rfl⟩)
      rw [List.lookup_cons, beq_eq_false_iff_ne.mpr hne]
      exact ih htail hrest

/-- No two instructions without an operand have one text. -/
theorem find?_bare : ∀ i ∈ bare, (bare.find? fun j => j.text = i.text) = some i := by
  decide +kernel

/-- No two instructions with an operand have one mnemonic. -/
theorem nodup_withOperand : (withOperand.map Prod.fst).Nodup := by
  decide +kernel

theorem noBlank_withOperand : ∀ p ∈ withOperand, ' ' ∉ p.1.toList := by
  decide +kernel

theorem noBlank_bare : ∀ i ∈ bare, ' ' ∉ i.text.toList := by
  decide +kernel

/-- What the machine cannot tell apart is written alike. -/
theorem text_seen (i : Instruction) : i.seen.text = i.text := by
  cases i with
  | load ty _ | store ty _ | arith _ ty | neg ty | ret ty | dup ty | pop ty => cases ty <;> rfl
  | _ => rfl

theorem isLabel_seen (i : Instruction) : i.seen.isLabel = i.isLabel := by
  cases i <;> rfl

/-- A mnemonic goes up to the first blank. -/
theorem mnemonic_run {mnemonic : String} (hblank : ' ' ∉ mnemonic.toList) :
    ∀ c ∈ mnemonic.toList, decide (c ≠ ' ') = true :=
  fun _ hc => decide_eq_true fun h => hblank (h ▸ hc)

/-- A mnemonic that stands alone is looked up. -/
theorem ofText?_bare {i : Instruction} (hmem : i.seen ∈ bare) : ofText? i.text = some i.seen := by
  have hblank := noBlank_bare i.seen hmem
  rw [text_seen] at hblank
  have hstop : ∀ c ∈ ([] : List Char).head?, decide (c ≠ ' ') = false := by simp
  have htake := takeWhile_run (mnemonic_run hblank) hstop
  have hdrop := dropWhile_run (mnemonic_run hblank) hstop
  rw [List.append_nil] at htake hdrop
  simp only [ofText?, htake, hdrop, String.ofList_toList]
  rw [← text_seen]
  exact find?_bare i.seen hmem

/-- A mnemonic with an operand tells how the operand is read. -/
theorem ofText?_operand {start mnemonic : String} {read : String → Option Instruction}
    (hread : (mnemonic, read) ∈ withOperand) (hstart : start = mnemonic ++ " ") (operand : String) :
    ofText? (start ++ operand) = read operand := by
  have hblank := noBlank_withOperand _ hread
  have htext : (start ++ operand).toList = mnemonic.toList ++ ' ' :: operand.toList := by
    simp [hstart]
  have hstop : ∀ c ∈ (' ' :: operand.toList).head?, decide (c ≠ ' ') = false := by simp
  simp only [ofText?, htext, takeWhile_run (mnemonic_run hblank) hstop,
    dropWhile_run (mnemonic_run hblank) hstop, String.ofList_toList,
    lookup_eq_some nodup_withOperand hread, Option.bind_some]

/-- An integer constant is read back from its decimal text. -/
theorem int?_toString (k : Int32) : int? (toString k.toInt) = some (iconst k) := by
  have htoInt : (toString k.toInt).toInt? = some k.toInt := Int.toInt?_repr k.toInt
  rw [int?, htoInt, Option.map_some, Int32.ofInt_toInt]

/-- A number is not a string constant. -/
theorem literal?_toString (i : Int) : literal? (toString i) = none := by
  have hdigits : ∀ n : Nat, '"' ∉ (toString n).toList := by
    intro n hmem
    rw [Nat.toString_eq_repr, Nat.toList_repr] at hmem
    exact absurd (Double.isDigit_of_mem_toDigits _ hmem) (by decide)
  have hquote : '"' ∉ (toString i).toList := by
    cases i with
    | ofNat n => exact hdigits n
    | negSucc n =>
      rw [show toString (Int.negSucc n) = "-" ++ toString (n + 1) from rfl, String.toList_append]
      exact List.not_mem_append (by decide) (hdigits (n + 1))
  unfold literal?
  split
  · next cs hcs =>
    rw [hcs] at hquote
    exact absurd List.mem_cons_self hquote
  · rfl

/-- Strings and large ints share a mnemonic. -/
theorem ldc_mem : ("ldc", fun s => (literal? s).map sconst <|> int? s) ∈ withOperand := by
  simp [withOperand]

theorem mem_small {k : Int32} (hlow : -1 ≤ k.toInt) (hhigh : k.toInt ≤ 5) :
    k ∈ ([-1, 0, 1, 2, 3, 4, 5] : List Int32) := by
  rw [← Int32.ofInt_toInt k]
  generalize k.toInt = n at hlow hhigh
  interval_cases n <;> decide

/-- An integer constant is read back, whichever of its four instructions it takes. -/
theorem ofText?_iconst (k : Int32) : ofText? (iconst k).text = some (iconst k) := by
  by_cases hsmall : -1 ≤ k.toInt ∧ k.toInt ≤ 5
  · have hmem : iconst k ∈ bare := by
      simp only [bare, List.mem_append]
      exact .inl (.inl (.inl (List.mem_map_of_mem (mem_small hsmall.1 hsmall.2))))
    exact ofText?_bare hmem
  · have hone : k.toInt ≠ -1 := by omega
    have hfive : ¬(0 ≤ k.toInt ∧ k.toInt ≤ 5) := by omega
    have hbyte : ("bipush", int?) ∈ withOperand := by simp [withOperand]
    have hshort : ("sipush", int?) ∈ withOperand := by simp [withOperand]
    rw [text, iconstText, if_neg hone, if_neg hfive]
    split_ifs
    · rw [ofText?_operand hbyte (by decide), int?_toString]
    · rw [ofText?_operand hshort (by decide), int?_toString]
    · rw [ofText?_operand ldc_mem (by decide), literal?_toString, int?_toString]
      rfl

/-- A double constant is read back, unless it is undefined. -/
theorem ofText?_dconst {d : Double} (hnan : d.isNaN = false) :
    ofText? (dconst d).text = some (dconst d) := by
  have hread : ("ldc2_w", fun s => (Double.ofString? s).map dconst) ∈ withOperand := by
    simp [withOperand]
  by_cases hzero : d = .zero
  · subst hzero
    exact ofText?_bare (by simp [bare, seen])
  by_cases hone : d = .one
  · subst hone
    exact ofText?_bare (by simp [bare, seen])
  rw [text, dconstText, if_neg hzero, if_neg hone, ofText?_operand hread (by decide),
    Double.ofString?_render .always hnan]
  rfl

theorem ofText?_sconst (s : String) : ofText? (sconst s).text = some (sconst s) := by
  rw [text, ofText?_operand ldc_mem (by decide), literal?_stringLiteral]
  rfl

/-- Every type that has values is one of those that mnemonics name. -/
theorem machineType_mem {ty : Ty} (h : ty ≠ .void) : machineType ty ∈ machineTypes := by
  cases ty with
  | void => exact absurd rfl h
  | _ => decide

theorem typed_mem_bare {t : Ty} (ht : t ∈ machineTypes) :
    neg t ∈ bare ∧ ret t ∈ bare ∧ ∀ op, arith op t ∈ bare := by
  have hmem : ∀ i ∈ [neg t, ret t] ++ [.add, .sub, .mul, .div, .rem, .and, .or].map (arith · t),
      i ∈ bare :=
    fun i hi => List.mem_append_right _ (List.mem_flatMap.mpr ⟨t, ht, hi⟩)
  refine ⟨hmem _ (by simp), hmem _ (by simp), fun op => hmem _ ?_⟩
  exact List.mem_append_right _ (List.mem_map_of_mem (by cases op <;> decide))

theorem typed_mem_withOperand {t : Ty} (ht : t ∈ machineTypes) :
    (typeLetter t ++ "load", fun s : String => s.toNat?.map (load t)) ∈ withOperand ∧
      (typeLetter t ++ "store", fun s : String => s.toNat?.map (store t)) ∈ withOperand := by
  constructor <;>
    exact List.mem_append_left _ (List.mem_append_right _ (List.mem_flatMap.mpr ⟨t, ht, by simp⟩))

theorem branch_mem_withOperand (cond : Cond) :
    ("if_icmp" ++ cond.text, fun s => (Label.ofText? s).map (ifCompare cond)) ∈ withOperand ∧
      ("if" ++ cond.text, fun s => (Label.ofText? s).map (ifZero cond)) ∈ withOperand := by
  have hcond : cond ∈ [.eq, .ne, .lt, .gt, .le, .ge] := by cases cond <;> decide
  constructor <;>
    exact List.mem_append_right _ (List.mem_flatMap.mpr ⟨cond, hcond, by simp⟩)

/-- A text that is not a label is read as the machine sees its instruction. -/
theorem ofText?_text {i : Instruction} (h : i.Writable) (hlabel : i.isLabel = false) :
    ofText? i.text = some i.seen := by
  cases i with
  | iconst k => exact ofText?_iconst k
  | dconst d => exact ofText?_dconst h
  | sconst s => exact ofText?_sconst s
  | load ty slot =>
    have hread := (typed_mem_withOperand (machineType_mem h)).1
    rw [← text_seen, seen, text, ofText?_operand hread (by rw [String.append_assoc]; rfl),
      toNat?_toString]
    rfl
  | store ty slot =>
    have hread := (typed_mem_withOperand (machineType_mem h)).2
    rw [← text_seen, seen, text, ofText?_operand hread (by rw [String.append_assoc]; rfl),
      toNat?_toString]
    rfl
  | arith op ty => exact ofText?_bare ((typed_mem_bare (machineType_mem h)).2.2 op)
  | neg ty => exact ofText?_bare (typed_mem_bare (machineType_mem h)).1
  | ret ty =>
    by_cases hvoid : ty = .void
    · subst hvoid
      exact ofText?_bare (by simp [bare, seen, machineType])
    · exact ofText?_bare (typed_mem_bare (machineType_mem hvoid)).2.1
  | i2d | dcmpg | dcmpl => exact ofText?_bare (by simp [bare, seen])
  | dup ty | pop ty => exact ofText?_bare (by cases ty <;> simp [bare, seen, Ty.words])
  | ifCompare cond target =>
    rw [text, ofText?_operand (branch_mem_withOperand cond).1 rfl, Label.ofText?_text]
    rfl
  | ifZero cond target =>
    rw [text, ofText?_operand (branch_mem_withOperand cond).2 rfl, Label.ofText?_text]
    rfl
  | goto target =>
    have hread : ("goto", fun s => (Label.ofText? s).map goto) ∈ withOperand := by
      simp [withOperand]
    rw [text, ofText?_operand hread (by decide), Label.ofText?_text]
    rfl
  | invoke method args result =>
    have hread : ("invokestatic", fun s => some (invoke s 0 0)) ∈ withOperand := by
      simp [withOperand]
    rw [text, ofText?_operand hread (by decide)]
    rfl
  | label l => cases hlabel

/-- A label is told from an instruction by its colon. -/
theorem ofLine?_label (l : Label) : ofLine? (label l).line = some (label l) := by
  have hline : (label l).line.toList = 'L' :: ((toString l.index).toList ++ [':']) := by
    rw [show (label l).line = "" ++ (l.text ++ ":") from rfl, String.empty_append,
      String.toList_append, l.toList_text]
    rfl
  have hlast : ('L' :: ((toString l.index).toList ++ [':'])).dropLast = l.text.toList := by
    rw [← List.cons_append, List.dropLast_concat, l.toList_text]
  unfold ofLine?
  rw [hline]
  change (Label.ofText? (String.ofList (List.dropLast _))).map label = _
  rw [hlast, String.ofList_toList, Label.ofText?_text]
  rfl

/-- A line is read as the machine sees its instruction. -/
theorem ofLine?_line {i : Instruction} (h : i.Writable) : ofLine? i.line = some i.seen := by
  cases hlabel : i.isLabel with
  | true =>
    cases i with
    | label l => exact ofLine?_label l
    | _ => cases hlabel
  | false =>
    have hline : i.line.toList = ' ' :: ' ' :: ' ' :: ' ' :: i.text.toList := by
      rw [line, if_neg (by simp [hlabel]), String.toList_append]
      rfl
    simp only [ofLine?, hline, String.ofList_toList]
    exact ofText?_text h hlabel

theorem line_seen (i : Instruction) : i.seen.line = i.line := by
  rw [line, line, isLabel_seen, text_seen]

theorem Writable.oneLine {i : Instruction} (h : i.Writable) : OneLine i.line := by
  refine oneLine_line ?_
  rintro method args result rfl
  exact h

end Instruction

/-! ## Bodies -/

open Instruction

/-- The text of the instructions of a method. -/
def bodyText (is : List Instruction) : String := String.join (is.map Method.lineText)

theorem bodyText_eq_endLines (is : List Instruction) : bodyText is = endLines (is.map line) := by
  rw [bodyText, endLines, List.map_map]
  rfl

/-- The lines of a body are those of its instructions, since none of them is broken. -/
theorem linesOf_bodyText {is : List Instruction} (h : ∀ i ∈ is, i.Writable) :
    linesOf (bodyText is) = is.map line ++ [""] := by
  rw [bodyText_eq_endLines, linesOf_endLines]
  simp only [List.forall_mem_map]
  exact fun i hi => (h i hi).oneLine

/-- Bodies are written alike just if the machine cannot tell them apart, line by line. -/
theorem bodyText_eq_iff {is js : List Instruction} (his : ∀ i ∈ is, i.Writable)
    (hjs : ∀ j ∈ js, j.Writable) : bodyText is = bodyText js ↔ is.map seen = js.map seen := by
  have hread : ∀ is : List Instruction, (∀ i ∈ is, i.Writable) →
      (is.map line).map ofLine? = (is.map seen).map some := by
    intro is his
    rw [List.map_map, List.map_map]
    exact List.map_congr_left fun i hi => ofLine?_line (his i hi)
  have hlines : ∀ is : List Instruction, is.map line = (is.map seen).map line := by
    intro is
    rw [List.map_map]
    exact List.map_congr_left fun i _ => (line_seen i).symm
  constructor
  · intro htext
    have hlines := congrArg linesOf htext
    rw [linesOf_bodyText his, linesOf_bodyText hjs] at hlines
    have hseen := congrArg (List.map ofLine?) (List.append_cancel_right hlines)
    rw [hread is his, hread js hjs] at hseen
    exact List.map_injective_iff.mpr (Option.some_injective _) hseen
  · intro hseen
    rw [bodyText_eq_endLines, bodyText_eq_endLines, hlines is, hlines js, hseen]

/-! ## Int constants -/

theorem head?_append {s : String} (hs : s ≠ "") (t : String) :
    (s ++ t).toList.head? = s.toList.head? := by
  obtain ⟨c, cs, hcs⟩ := List.exists_cons_of_ne_nil (String.toList_eq_nil_iff.not.mpr hs)
  rw [String.toList_append, hcs]
  rfl

/-- The short forms, which their first letter tells, are used only for what fits. -/
theorem iconstText_range (n : Int) :
    ((iconstText n).toList.head? = some 'b' → -128 ≤ n ∧ n ≤ 127) ∧
      ((iconstText n).toList.head? = some 's' → -32768 ≤ n ∧ n ≤ 32767) := by
  unfold iconstText
  split_ifs with hone hfive hbyte hshort
  · exact ⟨fun h => absurd h (by decide), fun h => absurd h (by decide)⟩
  · rw [head?_append (by decide)]
    exact ⟨fun h => absurd h (by decide), fun h => absurd h (by decide)⟩
  · exact ⟨fun _ => hbyte, fun _ => ⟨by omega, by omega⟩⟩
  · rw [head?_append (by decide)]
    exact ⟨fun h => absurd h (by decide), fun _ => hshort⟩
  · rw [head?_append (by decide)]
    exact ⟨fun h => absurd h (by decide), fun h => absurd h (by decide)⟩

/-- A mnemonic for ints only is used for int constants only. -/
theorem eq_iconst_of_text {i : Instruction} {start mnemonic operand : String} (hi : i.Writable)
    (hread : (mnemonic, int?) ∈ withOperand) (hstart : start = mnemonic ++ " ")
    (hhead : i.text.toList.head? ≠ some 'L') (htext : i.text = start ++ operand) :
    ∃ k, i = iconst k := by
  have hlabel : i.isLabel = false := by
    cases i with
    | label l =>
      rw [text, Label.text, String.append_assoc, head?_append (by decide)] at hhead
      exact absurd rfl hhead
    | _ => rfl
  have hseen := ofText?_text hi hlabel
  rw [htext, ofText?_operand hread hstart, int?, Option.map_eq_some_iff] at hseen
  obtain ⟨n, -, hseen⟩ := hseen
  cases i with
  | iconst k => exact ⟨k, rfl⟩
  | _ => cases hseen

/-- The operand of the byte-sized instruction is a byte. -/
theorem bipush_range {i : Instruction} {operand : String} (hi : i.Writable)
    (htext : i.text = "bipush " ++ operand) :
    ∃ k, i = iconst k ∧ -128 ≤ k.toInt ∧ k.toInt ≤ 127 := by
  have hhead : i.text.toList.head? = some 'b' := by
    rw [htext, head?_append (by decide)]
    rfl
  have hread : ("bipush", int?) ∈ withOperand := by simp [withOperand]
  obtain ⟨k, rfl⟩ := eq_iconst_of_text hi hread (by decide) (by rw [hhead]; decide) htext
  exact ⟨k, rfl, (iconstText_range k.toInt).1 hhead⟩

theorem sipush_range {i : Instruction} {operand : String} (hi : i.Writable)
    (htext : i.text = "sipush " ++ operand) :
    ∃ k, i = iconst k ∧ -32768 ≤ k.toInt ∧ k.toInt ≤ 32767 := by
  have hhead : i.text.toList.head? = some 's' := by
    rw [htext, head?_append (by decide)]
    rfl
  have hread : ("sipush", int?) ∈ withOperand := by simp [withOperand]
  obtain ⟨k, rfl⟩ := eq_iconst_of_text hi hread (by decide) (by rw [hhead]; decide) htext
  exact ⟨k, rfl, (iconstText_range k.toInt).2 hhead⟩

/-! ## Methods -/

/-- The lines of a method hold its body. -/
theorem body_eq_of_text_eq {m m' : Method} (hspec : OneLine m.spec) (hspec' : OneLine m'.spec)
    (hbody : ∀ i ∈ m.body.toList, i.Writable) (hbody' : ∀ i ∈ m'.body.toList, i.Writable)
    (htext : m.text = m'.text) : bodyText m.body.toList = bodyText m'.body.toList := by
  have hlines := congrArg linesOf htext
  rw [m.text_eq_endLines, m'.text_eq_endLines,
    linesOf_endLines (Method.oneLine_lines hspec fun _ _ _ hmem => hbody _ hmem),
    linesOf_endLines (Method.oneLine_lines hspec' fun _ _ _ hmem => hbody' _ hmem)] at hlines
  have hmethod := List.append_cancel_right hlines
  simp only [Method.lines, List.cons.injEq] at hmethod
  rw [bodyText_eq_endLines, bodyText_eq_endLines, List.append_cancel_right hmethod.2.2.2]

/-- The text of a body, and of a method, determines its code: every instruction is one line,
whatever its string constant holds, and lines that read alike are instructions that the machine
cannot tell apart. An int constant is always read back, and the short forms stay in their
ranges. -/
theorem text_determines_code {is js : List Instruction} (his : ∀ i ∈ is, i.Writable)
    (hjs : ∀ j ∈ js, j.Writable) :
    linesOf (bodyText is) = is.map line ++ [""] ∧
      (bodyText is = bodyText js ↔ is.map seen = js.map seen) ∧
      (∀ m m' : Method, m.body.toList = is → m'.body.toList = js → OneLine m.spec →
        OneLine m'.spec → m.text = m'.text → is.map seen = js.map seen) ∧
      (∀ i ∈ is, ofLine? i.line = some i.seen) ∧
      (∀ k, ofLine? (iconst k).line = some (iconst k)) ∧
      (∀ i ∈ is, ∀ operand, i.text = "bipush " ++ operand →
        ∃ k, i = iconst k ∧ -128 ≤ k.toInt ∧ k.toInt ≤ 127) ∧
      (∀ i ∈ is, ∀ operand, i.text = "sipush " ++ operand →
        ∃ k, i = iconst k ∧ -32768 ≤ k.toInt ∧ k.toInt ≤ 32767) := by
  refine ⟨linesOf_bodyText his, bodyText_eq_iff his hjs, ?_, fun i hi => ofLine?_line (his i hi),
    fun k => ofLine?_line trivial, fun i hi _ h => bipush_range (his i hi) h,
    fun i hi _ h => sipush_range (his i hi) h⟩
  rintro m m' rfl rfl hspec hspec' htext
  exact (bodyText_eq_iff his hjs).mp (body_eq_of_text_eq hspec hspec' his hjs htext)

/-- A string constant cannot pose as another one with an instruction behind it. -/
theorem text_determines_code_forgery :
    (∀ i ∈ [sconst "\"\n    iconst_1", load .bool 3], i.Writable) ∧
      (∀ j ∈ [sconst "", iconst 1, load .int 3], j.Writable) ∧
        bodyText [sconst "\"\n    iconst_1", load .bool 3] ≠
          bodyText [sconst "", iconst 1, load .int 3] := by
  have his : ∀ i ∈ [sconst "\"\n    iconst_1", load .bool 3], i.Writable := by simp [Writable]
  have hjs : ∀ j ∈ [sconst "", iconst 1, load .int 3], j.Writable := by simp [Writable]
  refine ⟨his, hjs, fun htext => ?_⟩
  have hseen := congrArg List.length ((text_determines_code his hjs).2.1.mp htext)
  exact absurd hseen (by decide)

end Jvm

end MiniC
