import Mathlib.Data.List.Induction
import Mathlib.Data.List.TakeWhile
import MiniC.Proofs.Token.Scanners

/-!
# Numerals

A numeral is scanned in three parts, and each part takes what it can. So the scan gives a
well-formed numeral that is spelled at its place, and nothing at this place that has the form of a
numeral is longer. The double that is computed from the parts is the one that its spelling denotes
when it is read as a text.
-/

namespace MiniC

open Byte

/-! ## Runs -/

section Runs

variable {α : Type} {p : α → Bool} {run rest : List α}

/-- A run, of digits for instance, ends where nothing of its kind follows. -/
theorem takeWhile_run (hrun : ∀ b ∈ run, p b = true) (hrest : ∀ b ∈ rest.head?, p b = false) :
    (run ++ rest).takeWhile p = run := by
  rw [List.takeWhile_append_of_pos hrun]
  cases rest with
  | nil => simp
  | cons b rest => simp [hrest b rfl]

/-- A run that ends where it should is what is dropped. -/
theorem dropWhile_run (hrun : ∀ b ∈ run, p b = true) (hrest : ∀ b ∈ rest.head?, p b = false) :
    (run ++ rest).dropWhile p = rest := by
  rw [List.dropWhile_append_of_pos hrun]
  cases rest with
  | nil => simp
  | cons b rest => simp [hrest b rfl]

end Runs

namespace Exponent

/-- An exponent of the form that its docstring gives. -/
structure WellFormed (x : Exponent) : Prop where
  mark : x.mark ∈ [ascii 'e', ascii 'E']
  sign : ∀ b ∈ x.sign, b ∈ [ascii '+', ascii '-']
  digits : IsDigits x.digits

/-- A well-formed exponent is spelled as the grammar has it. -/
theorem WellFormed.part {x : Exponent} (h : x.WellFormed) : ExponentPart x.bytes := by
  refine .digits h.mark ?_ h.digits
  cases hsign : x.sign with
  | none => simp
  | some b =>
    have hb := h.sign b hsign
    simpa using hb

/-- The sign and what stands behind it make up the whole. -/
theorem sign?_append (bs : List UInt8) :
    (sign? bs).toList ++ bs.drop (sign? bs).toList.length = bs := by
  cases bs with
  | nil => rfl
  | cons b bs =>
    by_cases hb : b = ascii '+' ∨ b = ascii '-'
    · simp [sign?, Option.filter, hb]
    · simp [sign?, Option.filter, hb]

/-- A scanned exponent is well formed and is what the bytes begin with. -/
theorem scan?_sound {bs : List UInt8} {x : Exponent} (h : scan? bs = some x) :
    x.WellFormed ∧ x.bytes <+: bs := by
  cases bs with
  | nil => cases h
  | cons mark rest =>
    simp only [scan?, Option.ite_none_right_eq_some, Option.some.injEq, Bool.and_eq_true,
      Bool.or_eq_true, decide_eq_true_eq, Bool.not_eq_true', List.isEmpty_eq_false_iff] at h
    obtain ⟨⟨hmark, hdigits⟩, rfl⟩ := h
    refine ⟨⟨by simpa using hmark, fun b hb => ?_, hdigits, fun b hb => ?_⟩, ?_⟩
    · have := Option.filter_eq_some_iff.mp hb
      simpa using this.2
    · exact List.mem_takeWhile_imp hb
    · refine List.cons_prefix_cons.mpr ⟨rfl, ?_⟩
      have hdigits := List.takeWhile_prefix isDigit (l := rest.drop (sign? rest).toList.length)
      have hprefix := (List.prefix_append_right_inj (sign? rest).toList).mpr hdigits
      rw [sign?_append] at hprefix
      exact hprefix

/-- Whenever the bytes begin with an exponent, one is scanned that is at least as long. -/
theorem scan?_longest {part bs : List UInt8} (hpart : ExponentPart part) (hne : part ≠ [])
    (h : part <+: bs) : ∃ x, scan? bs = some x ∧ part.length ≤ x.bytes.length := by
  obtain ⟨more, rfl⟩ := h
  cases hpart with
  | absent => exact absurd rfl hne
  | @digits mark sign ds hmark hsign hds =>
    obtain ⟨d, ds', rfl⟩ := List.exists_cons_of_ne_nil hds.1
    have hd : isDigit d = true := hds.2 d (by simp)
    obtain ⟨s, hs, rfl⟩ : ∃ s, sign? (sign ++ (d :: ds' ++ more)) = s ∧ s.toList = sign := by
      simp only [List.mem_cons, List.not_mem_nil, or_false] at hsign
      rcases hsign with rfl | rfl | rfl
      · have hplus : d ≠ ascii '+' := by
          rintro rfl
          exact absurd hd (by decide)
        have hminus : d ≠ ascii '-' := by
          rintro rfl
          exact absurd hd (by decide)
        exact ⟨none, by simp [sign?, Option.filter, hplus, hminus], rfl⟩
      · exact ⟨some (ascii '+'), rfl, rfl⟩
      · exact ⟨some (ascii '-'), rfl, rfl⟩
    have htake : (d :: ds' ++ more).takeWhile isDigit = d :: ds' ++ more.takeWhile isDigit :=
      List.takeWhile_append_of_pos hds.2
    refine ⟨⟨mark, s, d :: ds' ++ more.takeWhile isDigit⟩, ?_, ?_⟩
    · rw [List.cons_append, List.append_assoc, scan?]
      simp only [hs, List.drop_left, htake]
      simp only [List.mem_cons, List.not_mem_nil, or_false] at hmark
      rcases hmark with rfl | rfl <;> rfl
    · simp only [bytes, List.length_cons, List.length_append]
      omega

end Exponent

/-! ## The whole numeral -/

/-- An exponent begins with neither a digit nor a point, so it never prolongs what is in front of
it. -/
theorem ExponentPart.head_not_digit {part : List UInt8} (h : ExponentPart part) :
    ∀ b ∈ part.head?, isDigit b = false ∧ b ≠ ascii '.' := by
  cases h with
  | absent => simp
  | digits hmark hsign hds =>
    simp only [List.mem_cons, List.not_mem_nil, or_false] at hmark
    rcases hmark with rfl | rfl <;> simp <;> decide

/-- A fraction begins with its point, so it never prolongs the digits in front of it. -/
theorem PointPart.head_not_digit {part : List UInt8} (h : PointPart part) :
    ∀ b ∈ part.head?, isDigit b = false := by
  cases h with
  | absent => simp
  | digits hds => simp; decide

namespace Numeral

/-- The exponent as it is spelled; empty when there is none. -/
def exponentBytes (n : Numeral) : List UInt8 := (n.exponent.map Exponent.bytes).getD []

structure WellFormed (n : Numeral) : Prop where
  whole : ∀ b ∈ n.first :: n.whole, isDigit b = true
  fraction : ∀ b ∈ n.fraction, isDigit b = true
  exponent : ∀ x ∈ n.exponent, x.WellFormed

theorem WellFormed.point {n : Numeral} (h : n.WellFormed) :
    PointPart (fractionBytes n.fraction) := by
  unfold fractionBytes
  split
  · exact .absent
  · next hne => exact .digits ⟨by simpa using hne, h.fraction⟩

theorem WellFormed.exponentPart {n : Numeral} (h : n.WellFormed) :
    ExponentPart n.exponentBytes := by
  unfold exponentBytes
  cases hx : n.exponent with
  | none => exact .absent
  | some x => exact (h.exponent x hx).part

/-- The fraction scanned is what the bytes begin with, point included. -/
theorem scanFraction_isPrefix (bs : List UInt8) : fractionBytes (scanFraction bs) <+: bs := by
  unfold scanFraction
  split
  · next hpoint =>
    obtain ⟨rest, rfl⟩ := List.head?_eq_some_iff.mp hpoint
    unfold fractionBytes
    split
    · exact List.nil_prefix
    · exact List.cons_prefix_cons.mpr ⟨rfl, List.takeWhile_prefix _⟩
  · exact List.nil_prefix

/-- A numeral scanned from a digit is well formed. -/
theorem scan_wellFormed {b : UInt8} (rest : List UInt8) (hb : isDigit b = true) :
    (scan b rest).WellFormed := by
  refine ⟨?_, ?_, ?_⟩
  · intro c hc
    rcases List.mem_cons.mp hc with rfl | hc
    · exact hb
    · exact List.mem_takeWhile_imp hc
  · intro c hc
    simp only [scan, scanFraction] at hc
    split at hc
    · exact List.mem_takeWhile_imp hc
    · cases hc
  · intro x hx
    exact (Exponent.scan?_sound hx).1

theorem tail_eq (n : Numeral) :
    n.tail = n.whole ++ fractionBytes n.fraction ++ n.exponentBytes := rfl

/-- An integer is spelled by its digits alone. -/
theorem tail_of_isInteger {n : Numeral} (h : n.isInteger = true) : n.tail = n.whole := by
  obtain ⟨hfraction, hexponent⟩ := Bool.and_eq_true_iff.mp h
  rw [tail, List.isEmpty_iff.mp hfraction, Option.isNone_iff_eq_none.mp hexponent]
  exact (List.append_nil _).trans (List.append_nil _)

/-- One prefix after another. -/
theorem append_isPrefix {as bs l : List UInt8} (has : as <+: l) (hbs : bs <+: l.drop as.length) :
    as ++ bs <+: l := by
  obtain ⟨r, rfl⟩ := has
  rw [List.drop_left] at hbs
  exact (List.prefix_append_right_inj as).mpr hbs

theorem exponent_isPrefix (bs : List UInt8) :
    ((Exponent.scan? bs).map Exponent.bytes).getD [] <+: bs := by
  cases hx : Exponent.scan? bs with
  | none => exact List.nil_prefix
  | some x => exact (Exponent.scan?_sound hx).2

/-- The scanned numeral is what the bytes begin with. -/
theorem scan_isPrefix (b : UInt8) (rest : List UInt8) : (scan b rest).tail <+: rest := by
  rw [tail, List.append_assoc]
  refine append_isPrefix (List.takeWhile_prefix _) ?_
  exact append_isPrefix (scanFraction_isPrefix _) (exponent_isPrefix _)

theorem fractionBytes_of_ne_nil {fraction : List UInt8} (h : fraction ≠ []) :
    fractionBytes fraction = ascii '.' :: fraction := by
  rw [fractionBytes, if_neg (by simpa using h)]

/-- Without a point there is no fraction. -/
theorem scanFraction_of_head {bs : List UInt8} (h : ∀ b ∈ bs.head?, b ≠ ascii '.') :
    scanFraction bs = [] := by
  unfold scanFraction
  rw [if_neg]
  exact fun hhead => h _ hhead rfl

theorem head?_append_of_ne_nil {part more : List UInt8} (hne : part ≠ []) :
    (part ++ more).head? = part.head? := by
  rw [List.head?_append, List.head?_eq_some_head hne]
  rfl

/-- Behind the digits, the point and the exponent are read as far as they go. -/
theorem scan_rest_longest {point exponent bs : List UInt8} (hpoint : PointPart point)
    (hexponent : ExponentPart exponent) (h : point ++ exponent <+: bs) :
    (point ++ exponent).length ≤ (fractionBytes (scanFraction bs)).length +
      (((Exponent.scan? (bs.drop (fractionBytes (scanFraction bs)).length)).map
        Exponent.bytes).getD []).length := by
  obtain ⟨more, rfl⟩ := h
  cases hpoint with
  | absent =>
    by_cases hne : exponent = []
    · subst hne
      exact Nat.zero_le _
    · have hfraction : scanFraction ([] ++ exponent ++ more) = [] := by
        refine scanFraction_of_head fun b hb => (hexponent.head_not_digit b ?_).2
        rwa [List.nil_append, head?_append_of_ne_nil hne] at hb
      obtain ⟨x, hx, hlen⟩ := Exponent.scan?_longest hexponent hne (List.prefix_append _ more)
      rw [hfraction]
      simp only [List.nil_append, fractionBytes, List.isEmpty_nil, if_true, List.length_nil,
        List.drop_zero, hx, Option.map_some, Option.getD_some]
      omega
  | @digits ds hds =>
    have hscan : scanFraction (ascii '.' :: ds ++ exponent ++ more) =
        (ds ++ (exponent ++ more)).takeWhile isDigit := by
      rw [List.cons_append, List.cons_append, List.append_assoc]
      exact if_pos rfl
    by_cases hne : exponent = []
    · subst hne
      have htake : (ds ++ ([] ++ more)).takeWhile isDigit = ds ++ more.takeWhile isDigit :=
        List.takeWhile_append_of_pos hds.2
      rw [hscan, htake, fractionBytes_of_ne_nil (by simp [hds.1])]
      simp only [List.append_nil, List.length_cons, List.length_append]
      omega
    · have htake : (ds ++ (exponent ++ more)).takeWhile isDigit = ds := by
        refine takeWhile_run hds.2 fun b hb => (hexponent.head_not_digit b ?_).1
        rwa [head?_append_of_ne_nil hne] at hb
      obtain ⟨x, hx, hlen⟩ := Exponent.scan?_longest hexponent hne (List.prefix_append _ more)
      rw [hscan, htake, fractionBytes_of_ne_nil hds.1, List.append_assoc, List.drop_left, hx]
      simp only [List.length_append, Option.map_some, Option.getD_some]
      omega

/-- Nothing at this place that has the form of a numeral goes further. -/
theorem scan_longest {b : UInt8} {rest whole point exponent : List UInt8} (hwhole : IsDigits whole)
    (hpoint : PointPart point) (hexponent : ExponentPart exponent)
    (h : whole ++ point ++ exponent <+: b :: rest) :
    (whole ++ point ++ exponent).length ≤ (scan b rest).tail.length + 1 := by
  obtain ⟨d, ds, rfl⟩ := List.exists_cons_of_ne_nil hwhole.1
  rw [List.append_assoc, List.cons_append, List.cons_prefix_cons] at h
  obtain ⟨rfl, more, rfl⟩ := h
  have hds : ∀ c ∈ ds, isDigit c = true := fun c hc => hwhole.2 c (by simp [hc])
  simp only [tail, List.append_assoc, List.length_append, List.length_cons]
  by_cases hend : point ++ exponent = []
  · obtain ⟨rfl, rfl⟩ := List.append_eq_nil_iff.mp hend
    have htake : (scan d (ds ++ ([] ++ ([] ++ more)))).whole = ds ++ more.takeWhile isDigit :=
      List.takeWhile_append_of_pos hds
    simp only [htake, List.length_append, List.length_nil]
    omega
  · -- what follows is no digit, so `ds` are all the digits there are
    have hstop : ∀ c ∈ (point ++ (exponent ++ more)).head?, isDigit c = false := by
      intro c hc
      rw [← List.append_assoc, head?_append_of_ne_nil hend] at hc
      by_cases hne : point = []
      · subst hne
        exact (hexponent.head_not_digit c hc).1
      · rw [head?_append_of_ne_nil hne] at hc
        exact hpoint.head_not_digit c hc
    have htake : (ds ++ (point ++ (exponent ++ more))).takeWhile isDigit = ds :=
      takeWhile_run hds hstop
    have hrest := scan_rest_longest hpoint hexponent (List.prefix_append _ more)
    simp only [List.append_assoc, List.length_append] at hrest
    simp only [scan, htake, List.drop_left]
    omega

end Numeral

/-! ## Values -/

/-- The value read from left to right is the decimal value of the digits. -/
theorem natOfDigits_eq (ds : List UInt8) : natOfDigits ds = decimalValue ds := by
  induction ds using List.reverseRecOn with
  | nil => rfl
  | append_singleton ds d ih =>
    rw [natOfDigits, List.foldl_append, ← natOfDigits, ih, decimalValue, decimalValue,
      List.reverse_append, List.map_append]
    simp [Nat.ofDigits_cons, Nat.add_comm]

theorem toNat_ofUInt8 (b : UInt8) : (Char.ofUInt8 b).toNat = b.toNat := by
  simp [Char.toNat, val_ofUInt8]

/-- A byte is a digit exactly when the character it spells is one. -/
theorem isDigit_ofUInt8 (b : UInt8) : (Char.ofUInt8 b).isDigit = isDigit b := by
  simp [Char.isDigit, isDigit, val_ofUInt8, ascii, UInt8.le_iff_toNat_le, UInt32.le_iff_toNat_le]
  rfl

theorem isDigit_comp_ofUInt8 : Char.isDigit ∘ Char.ofUInt8 = isDigit := funext isDigit_ofUInt8

theorem takeWhile_chars (bs : List UInt8) :
    (bs.map Char.ofUInt8).takeWhile Char.isDigit = (bs.takeWhile isDigit).map Char.ofUInt8 := by
  rw [List.takeWhile_map, isDigit_comp_ofUInt8]

theorem dropWhile_chars (bs : List UInt8) :
    (bs.map Char.ofUInt8).dropWhile Char.isDigit = (bs.dropWhile isDigit).map Char.ofUInt8 := by
  rw [List.dropWhile_map, isDigit_comp_ofUInt8]

/-- The digit has one value, read as a byte or as a character. -/
theorem digitValue_ofUInt8 (b : UInt8) : Double.digitValue (Char.ofUInt8 b) = digitValue b := by
  rw [Double.digitValue, toNat_ofUInt8]
  rfl

/-- Digits have one value, read as bytes or as characters. -/
theorem natOfDigits_chars (bs : List UInt8) :
    Double.natOfDigits (bs.map Char.ofUInt8) = natOfDigits bs := by
  simp only [Double.natOfDigits, natOfDigits, List.foldl_map, digitValue_ofUInt8]

/-- A text that begins with a digit has no sign. -/
theorem splitSign_of_isDigit {c : Char} (cs : List Char) (hc : c.isDigit = true) :
    Double.splitSign (c :: cs) = (false, c :: cs) := by
  unfold Double.splitSign
  split
  · next heq =>
    rw [(List.cons.inj heq).1] at hc
    exact absurd hc (by decide)
  · next heq =>
    rw [(List.cons.inj heq).1] at hc
    exact absurd hc (by decide)
  · rfl

/-- Digits have no case. -/
theorem toLower_of_isDigit {c : Char} (h : c.isDigit = true) : c.toLower = c := by
  simp only [Char.isDigit, Bool.and_eq_true, decide_eq_true_eq] at h
  refine dif_neg ?_
  rintro ⟨hupper, -⟩
  exact absurd (UInt32.le_trans hupper h.2) (by decide)

/-- What starts with a digit is neither a sign nor a word. -/
theorem Double.ofString?_signed (minus : Bool) {c : Char} (cs : List Char) (hc : c.isDigit = true) :
    Double.ofString? (String.ofList ((if minus then ['-'] else []) ++ c :: cs)) =
      (Double.magnitudeOfChars? (c :: cs)).map fun d => if minus then d.neg else d := by
  have hword : ∀ (w : String) (a : Char), w.toList.head? = some a → a.isDigit = false →
      ¬String.ofList ((c :: cs).map Char.toLower) = w := by
    rintro w a hhead ha rfl
    rw [String.toList_ofList] at hhead
    obtain rfl := Option.some.inj hhead
    rw [toLower_of_isDigit hc, hc] at ha
    cases ha
  have hsplit : Double.splitSign ((if minus then ['-'] else []) ++ c :: cs) = (minus, c :: cs) := by
    cases minus with
    | true => rfl
    | false => exact splitSign_of_isDigit cs hc
  rw [Double.ofString?, String.toList_ofList, hsplit]
  dsimp only
  rw [if_neg, if_neg (hword "nan" 'n' rfl rfl)]
  rw [Bool.or_eq_true, decide_eq_true_eq, decide_eq_true_eq]
  exact not_or.mpr ⟨hword "inf" 'i' rfl rfl, hword "infinity" 'i' rfl rfl⟩

/-- The exponent is read back from its spelling. -/
theorem exponentOfChars?_bytes {x : Exponent} (h : x.WellFormed) :
    Double.exponentOfChars? (x.bytes.map Char.ofUInt8) = some x.value := by
  obtain ⟨mark, sign, digits⟩ := x
  obtain ⟨hmark, hsign, hne, hdigits⟩ := h
  have hsplit : Double.splitSign ((sign.toList ++ digits).map Char.ofUInt8) =
      (decide (sign = some (ascii '-')), digits.map Char.ofUInt8) := by
    cases sign with
    | none =>
      obtain ⟨d, ds, rfl⟩ := List.exists_cons_of_ne_nil hne
      have hd : (Char.ofUInt8 d).isDigit = true := by
        rw [isDigit_ofUInt8]
        exact hdigits d (by simp)
      exact splitSign_of_isDigit _ hd
    | some b =>
      have hb := hsign b rfl
      simp only [List.mem_cons, List.not_mem_nil, or_false] at hb
      rcases hb with rfl | rfl <;> rfl
  have hmark' : (Char.ofUInt8 mark = 'e' || Char.ofUInt8 mark = 'E') = true := by
    simp only [List.mem_cons, List.not_mem_nil, or_false] at hmark
    rcases hmark with rfl | rfl <;> rfl
  have hall : (digits.map Char.ofUInt8).all Char.isDigit = true := by
    rw [List.all_map, isDigit_comp_ofUInt8, List.all_eq_true]
    exact hdigits
  have hempty : (digits.map Char.ofUInt8).isEmpty = false := by
    rw [List.isEmpty_map]
    simpa using hne
  have hvalue : (digits.map Char.ofUInt8).map Double.digitValue = digits.map digitValue := by
    rw [List.map_map]
    exact List.map_congr_left fun b _ => digitValue_ofUInt8 b
  rw [Exponent.bytes, List.map_cons, Double.exponentOfChars?]
  simp only [hsplit, hmark', hall, hempty, hvalue, Bool.not_false, Bool.and_self, if_true,
    Exponent.value, decide_eq_true_eq]

namespace Numeral

variable {n : Numeral}

theorem exponentOfChars?_exponentBytes (h : n.WellFormed) :
    Double.exponentOfChars? (n.exponentBytes.map Char.ofUInt8) =
      some ((n.exponent.map Exponent.value).getD 0) := by
  unfold exponentBytes
  cases hx : n.exponent with
  | none => rfl
  | some x => exact exponentOfChars?_bytes (h.exponent x hx)

/-- The magnitude read from the spelling of a numeral is its value. -/
theorem magnitudeOfChars?_spelling (h : n.WellFormed) :
    Double.magnitudeOfChars? ((n.first :: n.tail).map Char.ofUInt8) = some n.toDouble := by
  have hexponent := h.exponentPart
  have hspelling : n.first :: n.tail =
      n.first :: n.whole ++ (fractionBytes n.fraction ++ n.exponentBytes) := by
    rw [tail_eq, List.append_assoc, List.cons_append]
  have hstop : ∀ c ∈ (fractionBytes n.fraction ++ n.exponentBytes).head?, isDigit c = false := by
    by_cases hne : fractionBytes n.fraction = []
    · rw [hne]
      exact fun c hc => (hexponent.head_not_digit c hc).1
    · rw [head?_append_of_ne_nil hne]
      exact h.point.head_not_digit
  have hwhole := takeWhile_run h.whole hstop
  have hafter := dropWhile_run h.whole hstop
  rw [Double.magnitudeOfChars?, takeWhile_chars, dropWhile_chars, hspelling, hwhole, hafter]
  by_cases hfraction : n.fraction = []
  · have hbytes : fractionBytes n.fraction = [] := by rw [hfraction, fractionBytes]; rfl
    have hhead : ¬(n.exponentBytes.map Char.ofUInt8).head? = some '.' := by
      rw [List.head?_map, Option.map_eq_some_iff]
      rintro ⟨b, hb, hpoint⟩
      exact (hexponent.head_not_digit b hb).2 (eq_ascii hpoint)
    simp only [hbytes, List.nil_append, if_neg hhead, List.takeWhile_nil, List.append_nil,
      exponentOfChars?_exponentBytes h, natOfDigits_chars]
    simp [toDouble, hfraction]
  · have hbytes := fractionBytes_of_ne_nil hfraction
    have hend : ∀ c ∈ n.exponentBytes.head?, isDigit c = false :=
      fun c hc => (hexponent.head_not_digit c hc).1
    have hpoint : Char.ofUInt8 (ascii '.') = '.' := rfl
    simp only [hbytes, List.cons_append, List.map_cons, hpoint, List.head?_cons, if_true,
      List.tail_cons, takeWhile_chars, dropWhile_chars, takeWhile_run h.fraction hend,
      dropWhile_run h.fraction hend, exponentOfChars?_exponentBytes h]
    have hvalue : Double.natOfDigits (Char.ofUInt8 n.first :: (n.whole.map Char.ofUInt8 ++
        n.fraction.map Char.ofUInt8)) = natOfDigits (n.first :: n.whole ++ n.fraction) := by
      rw [← natOfDigits_chars, List.map_append, List.map_cons, List.cons_append]
    simp [toDouble, hvalue]

/-- The text of a numeral is read back as its value. -/
theorem ofString?_spelling (h : n.WellFormed) :
    Double.ofString? (toText (n.first :: n.tail)) = some n.toDouble := by
  have hfirst : (Char.ofUInt8 n.first).isDigit = true := by
    rw [isDigit_ofUInt8]
    exact h.whole n.first (by simp)
  have hread := Double.ofString?_signed false (n.tail.map Char.ofUInt8) hfirst
  rwa [if_neg Bool.false_ne_true, List.nil_append, ← List.map_cons, magnitudeOfChars?_spelling h,
    Option.map_some, if_neg Bool.false_ne_true] at hread

end Numeral

end MiniC
