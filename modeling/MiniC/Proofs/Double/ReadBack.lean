import Mathlib.Data.List.Induction
import MiniC.Double.Text
import MiniC.Proofs.Double.ShortestDigits
import MiniC.Proofs.Jvm.AssemblyLines
import MiniC.Proofs.Token.Numerals

/-!
# Doubles read back

The text of a double is read as the double again. In either notation, and whether or not a point
stands before the exponent, the text spells the decimal that its digits denote; this decimal rounds
to the double. The sign is written apart and only turns the highest bit.
-/

namespace MiniC.Double

/-! ## Exponents -/

/-- Below the bound the digits of an exponent are read like any others. -/
theorem exponentOfDigits_eq {cs : List Char} (h : natOfDigits cs < exponentBound) :
    exponentOfDigits (cs.map digitValue) = natOfDigits cs := by
  induction cs using List.reverseRecOn with
  | nil => rfl
  | append_singleton cs c ih =>
    have hsnoc : natOfDigits (cs ++ [c]) = 10 * natOfDigits cs + digitValue c := by
      simp [natOfDigits]
    rw [hsnoc] at h ⊢
    have hprefix : natOfDigits cs < exponentBound := by omega
    have hfold : exponentOfDigits ((cs ++ [c]).map digitValue) =
        extendExponent (exponentOfDigits (cs.map digitValue)) (digitValue c) := by
      simp [exponentOfDigits]
    rw [hfold, ih hprefix, extendExponent, if_pos hprefix]

theorem isDigit_of_mem_toDigits {n : Nat} : ∀ c ∈ Nat.toDigits 10 n, c.isDigit = true :=
  fun _ hc => Nat.isDigit_of_mem_toDigits (by decide) (Nat.le_refl 10) hc

/-- An exponent within the bound is read back from its text. -/
theorem exponentOfChars?_toString {k : Int} (hk : k.natAbs < exponentBound) :
    exponentOfChars? ('e' :: (toString k).toList) = some k := by
  have hdigits : ∀ n : Nat, n < exponentBound →
      exponentOfDigits ((Nat.toDigits 10 n).map digitValue) = n := by
    intro n hn
    rw [exponentOfDigits_eq, natOfDigits_toDigits]
    rwa [natOfDigits_toDigits]
  have hall : ∀ n : Nat, (Nat.toDigits 10 n).all Char.isDigit = true :=
    fun n => List.all_eq_true.mpr isDigit_of_mem_toDigits
  have hne : ∀ n : Nat, (Nat.toDigits 10 n).isEmpty = false :=
    fun n => List.isEmpty_eq_false_iff.mpr Nat.toDigits_ne_nil
  cases k with
  | ofNat n =>
    have hsplit : splitSign (toString (Int.ofNat n)).toList = (false, Nat.toDigits 10 n) := by
      rw [show toString (Int.ofNat n) = Nat.repr n from rfl, Nat.toList_repr]
      obtain ⟨c, cs, hcs⟩ := List.exists_cons_of_ne_nil (Nat.toDigits_ne_nil (n := n) (b := 10))
      rw [hcs]
      exact splitSign_of_isDigit _ (isDigit_of_mem_toDigits c (by rw [hcs]; simp))
    simp only [exponentOfChars?, hsplit, hall, hne, hdigits n hk]
    simp
  | negSucc n =>
    have hsplit : splitSign (toString (Int.negSucc n)).toList =
        (true, Nat.toDigits 10 (n + 1)) := by
      rw [show toString (Int.negSucc n) = "-" ++ Nat.repr (n + 1) from rfl, String.toList_append,
        Nat.toList_repr]
      rfl
    simp only [exponentOfChars?, hsplit, hall, hne, hdigits (n + 1) hk]
    simp
    omega

/-! ## Decimal texts -/

/-- The text spells a decimal of the given value. -/
def Spells (cs : List Char) (x : ℚ) : Prop :=
  ∃ m e, magnitudeOfChars? cs = some (ofDecimal m e) ∧ (m : ℚ) * 10 ^ e = x

section Reading

variable {whole fraction rest : List Char} {e : Int}

/-- Digits with a point between them spell the digits, scaled by those behind the point. -/
theorem spells_point (hne : whole ≠ []) (hwhole : ∀ c ∈ whole, c.isDigit = true)
    (hfraction : ∀ c ∈ fraction, c.isDigit = true) (hrest : ∀ c ∈ rest.head?, c.isDigit = false)
    (he : exponentOfChars? rest = some e) :
    Spells (whole ++ '.' :: (fraction ++ rest))
      (natOfDigits (whole ++ fraction) * 10 ^ (e - fraction.length)) := by
  have hstop : ∀ c ∈ ('.' :: (fraction ++ rest)).head?, c.isDigit = false := by simp
  refine ⟨_, _, ?_, rfl⟩
  unfold magnitudeOfChars?
  simp only [takeWhile_run hwhole hstop, dropWhile_run hwhole hstop, List.head?_cons, if_true,
    List.tail_cons, takeWhile_run hfraction hrest, dropWhile_run hfraction hrest, he]
  simp [hne]

/-- Digits without a point spell their own value, scaled by the exponent. -/
theorem spells_whole (hne : whole ≠ []) (hwhole : ∀ c ∈ whole, c.isDigit = true)
    (hrest : ∀ c ∈ rest.head?, c.isDigit = false ∧ c ≠ '.') (he : exponentOfChars? rest = some e) :
    Spells (whole ++ rest) (natOfDigits whole * 10 ^ e) := by
  have hstop : ∀ c ∈ rest.head?, c.isDigit = false := fun c hc => (hrest c hc).1
  have hpoint : rest.head? ≠ some '.' := fun h => (hrest '.' h).2 rfl
  refine ⟨_, _, ?_, rfl⟩
  unfold magnitudeOfChars?
  simp only [takeWhile_run hwhole hstop, dropWhile_run hwhole hstop, if_neg hpoint, he]
  simp [hne]

/-- A text that ends with the digits behind its point. -/
theorem spells_decimal (hne : whole ≠ []) (hwhole : ∀ c ∈ whole, c.isDigit = true)
    (hfraction : ∀ c ∈ fraction, c.isDigit = true) :
    Spells (whole ++ '.' :: fraction)
      (natOfDigits (whole ++ fraction) * 10 ^ (-fraction.length : Int)) := by
  have hread : Spells (whole ++ '.' :: (fraction ++ [])) _ :=
    spells_point hne hwhole hfraction (by simp) rfl
  rwa [List.append_nil, zero_sub] at hread

end Reading

/-! ## The two notations -/

section Notations

variable {n : Digits}

theorem isDigit_replicate (k : Nat) : ∀ c ∈ List.replicate k '0', c.isDigit = true := by
  intro c hc
  rw [List.eq_of_mem_replicate hc]
  decide

/-- Positional notation spells the value. -/
theorem spells_positional (hne : n.digits ≠ []) (hdigits : ∀ c ∈ n.digits, c.isDigit = true) :
    Spells (positional n) n.value := by
  unfold positional
  split
  · next hpoint =>
    -- zeros stand between the point and the digits
    have hfraction : ∀ c ∈ List.replicate (-n.point).toNat '0' ++ n.digits, c.isDigit = true :=
      List.forall_mem_append.mpr ⟨isDigit_replicate _, hdigits⟩
    have hread := spells_decimal (List.cons_ne_nil '0' [])
      (List.forall_mem_singleton.mpr (by decide)) hfraction
    have hexponent : n.point - n.digits.length =
        -((List.replicate (-n.point).toNat '0' ++ n.digits).length : Int) := by
      rw [List.length_append, List.length_replicate]
      omega
    have hvalue : natOfDigits (['0'] ++ (List.replicate (-n.point).toNat '0' ++ n.digits)) =
        natOfDigits n.digits := by
      rw [natOfDigits_append, natOfDigits_append, natOfDigits_replicate]
      simp [natOfDigits, digitValue]
    rwa [hvalue, ← hexponent] at hread
  · next hpoint =>
    have hwhole : ∀ c ∈ n.digits.take n.point.toNat ++
        List.replicate (n.point.toNat - n.digits.length) '0', c.isDigit = true :=
      List.forall_mem_append.mpr
        ⟨fun c hc => hdigits c (List.mem_of_mem_take hc), isDigit_replicate _⟩
    have hwhole_ne : n.digits.take n.point.toNat ++
        List.replicate (n.point.toNat - n.digits.length) '0' ≠ [] := by
      have hpos : n.point.toNat ≠ 0 := by omega
      simp [List.take_eq_nil_iff, hpos, hne]
    dsimp only
    rw [List.append_assoc _ ['.'], List.singleton_append]
    rcases le_or_gt n.digits.length n.point.toNat with hle | hlt
    · -- zeros fill up the whole part
      rw [List.drop_eq_nil_of_le hle, List.isEmpty_nil, if_pos rfl]
      have hread := spells_decimal hwhole_ne hwhole (List.forall_mem_singleton.mpr (by decide) :
        ∀ c ∈ ['0'], c.isDigit = true)
      rw [List.take_of_length_le hle] at hread ⊢
      convert hread using 1
      have hexponent : n.point - n.digits.length = (n.point.toNat - n.digits.length : Nat) := by
        omega
      rw [Digits.value, hexponent, zpow_natCast, natOfDigits_append, natOfDigits_append,
        natOfDigits_replicate]
      simp [show natOfDigits ['0'] = 0 from rfl]
      ring
    · -- the point stands between digits
      have hfraction : ∀ c ∈ n.digits.drop n.point.toNat, c.isDigit = true :=
        fun c hc => hdigits c (List.mem_of_mem_drop hc)
      have hempty : ¬(n.digits.drop n.point.toNat).isEmpty = true := by
        simp [hlt]
      rw [if_neg hempty]
      have hread := spells_decimal hwhole_ne hwhole hfraction
      rw [Nat.sub_eq_zero_of_le hlt.le, List.replicate_zero, List.append_nil] at hread ⊢
      have hexponent : n.point - n.digits.length =
          -((n.digits.drop n.point.toNat).length : Int) := by
        rw [List.length_drop]
        omega
      rwa [List.take_append_drop, ← hexponent] at hread

/-- Exponential notation spells the value as long as the exponent is within the bound. -/
theorem spells_exponential (rule : PointRule) (hne : n.digits ≠ [])
    (hdigits : ∀ c ∈ n.digits, c.isDigit = true) (hpoint : (n.point - 1).natAbs < exponentBound) :
    Spells (exponential rule n) n.value := by
  obtain ⟨digits, point⟩ := n
  cases digits with
  | nil => exact absurd rfl hne
  | cons c ds =>
  have he := exponentOfChars?_toString hpoint
  have hmark : ∀ a ∈ ('e' :: (toString (point - 1)).toList).head?, a.isDigit = false ∧ a ≠ '.' := by
    simp
  have hstop : ∀ a ∈ ('e' :: (toString (point - 1)).toList).head?, a.isDigit = false :=
    fun a ha => (hmark a ha).1
  have hc : ∀ a ∈ [c], a.isDigit = true := List.forall_mem_singleton.mpr (hdigits c (by simp))
  cases ds with
  | nil =>
    cases rule with
    | whenNeeded => exact spells_whole (List.cons_ne_nil c []) hc hmark he
    | always =>
      have hzero : ∀ a ∈ ['0'], a.isDigit = true := List.forall_mem_singleton.mpr (by decide)
      have hread := spells_point (List.cons_ne_nil c []) hc hzero hstop he
      have hvalue : (⟨[c], point⟩ : Digits).value =
          natOfDigits ([c] ++ ['0']) * 10 ^ (point - 1 - ['0'].length) := by
        rw [natOfDigits_append, show natOfDigits ['0'] = 0 from rfl, Digits.value]
        simp [zpow_sub₀]
        ring
      rw [hvalue]
      exact hread
  | cons d ds =>
    have hds : ∀ a ∈ d :: ds, a.isDigit = true := fun a ha => hdigits a (List.mem_cons_of_mem c ha)
    have hread := spells_point (List.cons_ne_nil c []) hc hds hstop he
    have hexponent : point - (c :: d :: ds).length = point - 1 - (d :: ds).length := by
      simp only [List.length_cons]
      omega
    rw [Digits.value]
    dsimp only
    rw [hexponent]
    have htext : exponential rule ⟨c :: d :: ds, point⟩ =
        [c] ++ '.' :: (d :: ds ++ 'e' :: (toString (point - 1)).toList) := by
      simp [exponential]
    rw [htext]
    exact hread

end Notations

/-! ## Magnitudes -/

section Magnitude

variable {d : Double}

/-- The text of a magnitude spells its shortest digits, in whichever notation. -/
theorem spells_magnitudeText (rule : PointRule) (hfinite : d.isFinite = true)
    (hd : d.significand ≠ 0) : Spells (magnitudeText rule d) d.shortest.value := by
  have hne := shortest_digits_ne_nil hfinite hd
  have hdigits : ∀ c ∈ d.shortest.digits, c.isDigit = true := fun _ hc => shortest_isDigit hc
  have hpoint := shortest_point hfinite hd
  unfold magnitudeText
  rw [if_neg hd]
  dsimp only
  split
  · exact spells_positional hne hdigits
  · exact spells_exponential rule hne hdigits (by unfold exponentBound; omega)

theorem eq_zero_of_significand (hsign : d.isNegative = false) (hd : d.significand = 0) :
    d = zero := by
  have hexponent : d.exponentField = 0 := by
    by_contra hne
    rw [significand, if_neg hne] at hd
    unfold exponentWeight at hd
    omega
  have hfraction : d.fractionField = 0 := by
    rwa [significand, if_pos hexponent] at hd
  have hbits := bits_eq_fields hsign
  rw [hexponent, hfraction] at hbits
  obtain ⟨bits⟩ := d
  exact congrArg Double.mk (UInt64.toNat_inj.mp hbits)

/-- The magnitude of a double without sign is read as the double. -/
theorem magnitudeOfChars?_magnitudeText (rule : PointRule) (hsign : d.isNegative = false)
    (hfinite : d.isFinite = true) : magnitudeOfChars? (magnitudeText rule d) = some d := by
  by_cases hd : d.significand = 0
  · obtain rfl := eq_zero_of_significand hsign hd
    cases rule <;> decide
  · obtain ⟨m, e, hread, hvalue⟩ := spells_magnitudeText rule hfinite hd
    have hhas := has_shortest hd
    rw [← hvalue] at hhas
    rw [hread, ofDecimal_eq hsign hfinite hd hhas]

/-- The text of a magnitude begins with a digit, so it is never taken for a sign. -/
theorem magnitudeText_starts (rule : PointRule) (hfinite : d.isFinite = true) :
    ∃ c cs, magnitudeText rule d = c :: cs ∧ c.isDigit = true := by
  unfold magnitudeText
  split
  · exact ⟨_, _, rfl, by decide⟩
  · next hd =>
    obtain ⟨c, ds, hds⟩ := List.exists_cons_of_ne_nil (shortest_digits_ne_nil hfinite hd)
    have hc : c.isDigit = true := shortest_isDigit (by rw [hds]; simp)
    dsimp only
    split
    · unfold positional
      split
      · exact ⟨_, _, rfl, by decide⟩
      · next hpoint =>
        obtain ⟨k, hk⟩ : ∃ k, d.shortest.point.toNat = k + 1 :=
          ⟨d.shortest.point.toNat - 1, by omega⟩
        rw [hds, hk]
        exact ⟨_, _, rfl, hc⟩
    · unfold exponential
      rw [hds]
      exact ⟨_, _, rfl, hc⟩

end Magnitude

/-! ## Signs -/

section Sign

variable {d : Double}

/-- Negation turns the sign bit over, hence twice is not at all. -/
protected theorem neg_neg (d : Double) : d.neg.neg = d := by
  simp only [neg, UInt64.xor_assoc, UInt64.xor_self, UInt64.xor_zero]

theorem toNat_neg (d : Double) : d.neg.bits.toNat = d.bits.toNat ^^^ 2 ^ 63 :=
  UInt64.toNat_xor _ _

/-- Negation leaves the fraction alone. -/
theorem fractionField_neg (d : Double) : d.neg.fractionField = d.fractionField := by
  have h := Nat.xor_mod_two_pow (a := d.bits.toNat) (b := 2 ^ 63) (n := 52)
  unfold fractionField
  rw [toNat_neg]
  simpa [exponentWeight] using h

theorem exponentField_neg (d : Double) : d.neg.exponentField = d.exponentField := by
  have h := Nat.xor_div_two_pow (a := d.bits.toNat) (b := 2 ^ 63) (n := 52)
  have h' := Nat.xor_mod_two_pow (a := d.bits.toNat / 2 ^ 52) (b := 2 ^ 63 / 2 ^ 52) (n := 11)
  unfold exponentField
  rw [toNat_neg]
  rw [← h] at h'
  simpa [exponentWeight] using h'

theorem isNegative_neg (h : d.isNegative = true) : d.neg.isNegative = false := by
  have hge : 2 ^ 63 ≤ d.bits.toNat := of_decide_eq_true h
  have hlt : d.bits.toNat < 2 ^ 64 := d.bits.toNat_lt
  have hone : d.bits.toNat / 2 ^ 63 = 1 := by omega
  have hxor := Nat.xor_div_two_pow (a := d.bits.toNat) (b := 2 ^ 63) (n := 63)
  rw [hone, ← toNat_neg] at hxor
  have hzero : d.neg.bits.toNat / 2 ^ 63 = 0 := hxor
  have hlt' : d.neg.bits.toNat < signWeight := by
    unfold signWeight
    omega
  exact decide_eq_false (not_le.mpr hlt')

theorem isFinite_neg (d : Double) : d.neg.isFinite = d.isFinite := by
  rw [isFinite, isFinite, exponentField_neg]

theorem isNaN_neg (d : Double) : d.neg.isNaN = d.isNaN := by
  rw [isNaN, isNaN, isFinite_neg, fractionField_neg]

/-- A number and its negation have magnitudes of one text. -/
theorem magnitudeText_neg (rule : PointRule) (d : Double) :
    magnitudeText rule d.neg = magnitudeText rule d := by
  have hsignificand : d.neg.significand = d.significand := by
    simp only [significand, exponentField_neg, fractionField_neg]
  have hscale : d.neg.scale = d.scale := by
    simp only [scale, exponentField_neg]
  have hinterval : d.neg.interval = d.interval := by
    simp only [interval, hsignificand, hscale, exponentField_neg, fractionField_neg]
  have hshortest : d.neg.shortest = d.shortest := by
    simp only [shortest, hinterval]
  simp only [magnitudeText, hsignificand, hshortest]

/-- The one positive double that is neither finite nor undefined is infinity. -/
theorem eq_infinity (hsign : d.isNegative = false) (hfinite : d.isFinite = false)
    (hnan : d.isNaN = false) : d = infinity := by
  have hexponent : d.exponentField = 2047 := by simpa [isFinite] using hfinite
  have hfraction : d.fractionField = 0 := by simpa [isNaN, hfinite] using hnan
  have hbits := bits_eq_fields hsign
  rw [hexponent, hfraction] at hbits
  obtain ⟨bits⟩ := d
  exact congrArg Double.mk (UInt64.toNat_inj.mp hbits)

/-- A double is read back from its text, by either rule for the point. -/
theorem ofString?_render (rule : PointRule) (hnan : d.isNaN = false) :
    ofString? (d.render rule) = some d := by
  have hunsigned : ∃ a : Double, a.isNegative = false ∧ a.isFinite = d.isFinite ∧
      a.isNaN = d.isNaN ∧ magnitudeText rule a = magnitudeText rule d ∧
        (if d.isNegative then a.neg else a) = d := by
    cases hsign : d.isNegative with
    | false => exact ⟨d, hsign, rfl, rfl, rfl, rfl⟩
    | true =>
      exact ⟨d.neg, isNegative_neg hsign, isFinite_neg d, isNaN_neg d, magnitudeText_neg rule d,
        d.neg_neg⟩
  obtain ⟨a, hsign, hfinite', hnan', htext, hneg⟩ := hunsigned
  unfold render
  rw [if_neg (by simp [hnan])]
  dsimp only
  cases hfinite : d.isFinite with
  | true =>
    rw [hfinite] at hfinite'
    obtain ⟨c, cs, hcs, hc⟩ := magnitudeText_starts rule hfinite'
    rw [if_pos rfl, ← htext, hcs, ofString?_signed _ _ hc, ← hcs,
      magnitudeOfChars?_magnitudeText rule hsign hfinite', Option.map_some, hneg]
  | false =>
    have hread : ∀ minus : Bool, ofString? (String.ofList ((if minus then ['-'] else []) ++
        ['i', 'n', 'f'])) = some (if minus then infinity.neg else infinity) := by decide
    obtain rfl := eq_infinity hsign (hfinite'.trans hfinite) (hnan'.trans hnan)
    rw [if_neg Bool.false_ne_true, hread, hneg]

end Sign

end MiniC.Double
