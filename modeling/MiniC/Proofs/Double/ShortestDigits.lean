import Mathlib.Data.List.TakeWhile
import Mathlib.Data.Nat.Cast.Order.Field
import MiniC.Proofs.Double.Rounding

/-!
# The digits of a double

The search for digits goes through decimal grids, each ten times as fine as the one before. On the
seventeenth grid a step is shorter than the interval of the double, so one of the two neighbours of
the value lies inside; whatever grid the search ends on, the point that it finds lies in the
interval. So the decimal that is found rounds to the double again.
-/

namespace MiniC.Double

/-! ## Decimal orders -/

theorem lt_pow_decimalLength (n : Nat) : n < 10 ^ decimalLength n :=
  (Nat.length_toDigits_le_iff (by decide) Nat.length_toDigits_pos).mp le_rfl

theorem pow_decimalLength_le {n : Nat} (hn : 0 < n) : 10 ^ (decimalLength n - 1) ≤ n := by
  by_contra hlt
  rw [not_le] at hlt
  rcases Nat.eq_zero_or_pos (decimalLength n - 1) with hzero | hpos
  · rw [hzero] at hlt
    omega
  · have hle := (Nat.length_toDigits_le_iff (b := 10) (by decide) hpos).mpr hlt
    unfold decimalLength at hle hpos
    omega

/-- A decimal lies in the order that the number of its digits tells. -/
theorem decimal_order {m : Nat} (hm : 0 < m) (e : Int) :
    (10 : ℚ) ^ (decimalLength m + e - 1) ≤ m * 10 ^ e ∧
      (m : ℚ) * 10 ^ e < 10 ^ (decimalLength m + e) := by
  have hpos : 0 < decimalLength m := Nat.length_toDigits_pos
  have hsplit : (decimalLength m + e - 1 : Int) = (decimalLength m - 1 : Nat) + e := by omega
  rw [hsplit, zpow_add₀ (by norm_num), zpow_add₀ (by norm_num), zpow_natCast, zpow_natCast]
  constructor
  · gcongr
    exact_mod_cast pow_decimalLength_le hm
  · gcongr
    exact_mod_cast lt_pow_decimalLength m

theorem pow_decimalTop_le {num den : Nat} (hnum : 0 < num) (hden : 0 < den) :
    (10 : ℚ) ^ (decimalTop num den - 1) ≤ num / den := by
  have hnum' : (0 : ℚ) < num := by exact_mod_cast hnum
  have hden' : (0 : ℚ) < den := by exact_mod_cast hden
  unfold decimalTop
  split
  · next hle =>
    have horder := (decimal_order (Nat.div_pos hle hden) 0).1
    rw [add_zero, zpow_zero, mul_one] at horder
    exact horder.trans Nat.cast_div_le
  · next hlt =>
    -- the digits of the integer part of the inverse
    have hinverse : den ≤ num * 10 ^ decimalLength ((den - 1) / num) := by
      have := Nat.lt_mul_of_div_lt (lt_pow_decimalLength ((den - 1) / num)) hnum
      rw [mul_comm] at this
      omega
    have hexponent : (1 - decimalLength ((den - 1) / num) - 1 : Int) =
        -(decimalLength ((den - 1) / num) : Nat) := by omega
    rw [hexponent, zpow_neg, zpow_natCast, inv_le_iff_one_le_mul₀ (by positivity),
      ← mul_div_right_comm, one_le_div hden']
    exact_mod_cast hinverse

/-! ## Decimals of the interval -/

section Decimals

variable {d : Double} {x : ℚ}

/-- Every number that rounds to a finite double is far from the bounds of `ofDecimal`. -/
theorem has_order (hfinite : d.isFinite = true) (hd : d.significand ≠ 0) (hx : d.interval.Has x) :
    10 ^ (-324 : ℤ) < x ∧ x < 10 ^ (309 : ℤ) := by
  have hreach := d.reach_le
  have hnear := near_of_has hd hx
  have hm : (1 : ℚ) ≤ d.significand := by exact_mod_cast Nat.one_le_iff_ne_zero.mpr hd
  have hm' : (d.significand : ℚ) + 1 ≤ 2 ^ (53 : ℤ) := by exact_mod_cast d.significand_lt
  have hsmall : (2 : ℚ) ^ 1075 < 10 ^ 324 := by
    have h : 2 ^ 1075 < 10 ^ 324 := by decide +kernel
    exact_mod_cast h
  have hlarge : (2 : ℚ) ^ 1024 < 10 ^ 309 := by
    have h : 2 ^ 1024 < 10 ^ 309 := by decide +kernel
    exact_mod_cast h
  constructor
  · calc (10 : ℚ) ^ (-324 : ℤ) < 2 ^ (-1074 + -1 : ℤ) := by
          rw [zpow_neg, ← neg_add, zpow_neg]
          exact inv_strictAnti₀ (by positivity) hsmall
      _ ≤ 2 ^ (d.scale + -1) := zpow_le_zpow_right₀ one_le_two (by linarith [d.le_scale])
      _ ≤ x := (le_units_iff (-1)).mp (by norm_num at hnear ⊢; linarith)
  · calc x < 2 ^ (d.scale + 53) := (units_lt_iff 53).mp (by linarith)
      _ ≤ 2 ^ (971 + 53 : ℤ) := zpow_le_zpow_right₀ one_le_two (by linarith [scale_le hfinite])
      _ < 10 ^ (309 : ℤ) := hlarge

theorem decimal_bounds {m : Nat} {e : Int} (hfinite : d.isFinite = true) (hd : d.significand ≠ 0)
    (hx : d.interval.Has (m * 10 ^ e)) :
    0 < m ∧ -324 < decimalLength m + e ∧ decimalLength m + e ≤ 309 := by
  obtain ⟨hgt, hlt⟩ := has_order hfinite hd hx
  have hm : 0 < m := by
    rw [Nat.pos_iff_ne_zero]
    rintro rfl
    rw [Nat.cast_zero, zero_mul] at hgt
    exact hgt.not_ge (by positivity)
  obtain ⟨hge, hlt'⟩ := decimal_order hm e
  have hlow := (zpow_lt_zpow_iff_right₀ (by norm_num)).mp (hgt.trans hlt')
  have hhigh := (zpow_lt_zpow_iff_right₀ (by norm_num)).mp (hge.trans_lt hlt)
  exact ⟨hm, hlow, by omega⟩

/-- A decimal of the interval is read as the double. -/
theorem ofDecimal_eq {m : Nat} {e : Int} (hsign : d.isNegative = false)
    (hfinite : d.isFinite = true) (hd : d.significand ≠ 0)
    (hx : d.interval.Has (m * 10 ^ e)) : ofDecimal m e = d := by
  obtain ⟨hm, hlow, hhigh⟩ := decimal_bounds hfinite hd hx
  have hratio : ((m * power 10 e : Nat) : ℚ) / power 10 (-e) = m * 10 ^ e := by
    have := scaled_div m 1 10 e
    rwa [one_mul, Nat.cast_one, div_one, Nat.cast_ofNat] at this
  unfold ofDecimal
  dsimp only
  rw [if_neg (by simp; omega), if_neg (by omega)]
  refine ofRatio_eq hsign hfinite hd ?_ (power_pos (by decide) _) (hratio ▸ hx)
  exact Nat.mul_pos hm (power_pos (by decide) e)

end Decimals

/-! ## Grids -/

namespace Interval

variable {i : Interval}

theorem contains_iff (hden : 0 < i.den) (n : Nat) : i.contains (n * i.den) = true ↔ i.Has n := by
  have hden' : (0 : ℚ) < i.den := by exact_mod_cast hden
  unfold contains Has
  rw [div_le_iff₀ hden', le_div_iff₀ hden', div_lt_iff₀ hden', lt_div_iff₀ hden']
  split
  · rw [Bool.and_eq_true, decide_eq_true_eq, decide_eq_true_eq]
    exact_mod_cast Iff.rfl
  · rw [Bool.and_eq_true, decide_eq_true_eq, decide_eq_true_eq]
    exact_mod_cast Iff.rfl

theorem has_onGrid (i : Interval) (g : Int) (x : ℚ) : (i.onGrid g).Has x ↔ i.Has (x * 10 ^ g) := by
  have hstep : (0 : ℚ) < 10 ^ g := by positivity
  have hscale : ∀ k : Nat,
      ((k * power 10 (-g) : Nat) : ℚ) / (i.onGrid g).den = k / i.den / 10 ^ g := by
    intro k
    have h := scaled_div k i.den 10 (-g)
    rw [neg_neg, zpow_neg, ← div_eq_mul_inv] at h
    exact h
  unfold Has
  rw [show ((i.onGrid g).low : ℚ) / _ = _ from hscale i.low,
    show ((i.onGrid g).high : ℚ) / _ = _ from hscale i.high, div_le_iff₀ hstep, le_div_iff₀ hstep,
    div_lt_iff₀ hstep, lt_div_iff₀ hstep]
  rfl

/-- A point that the search gives lies in the interval. -/
theorem has_of_nearest? {n : Nat} (hden : 0 < i.den) (h : i.nearest? = some n) : i.Has n := by
  rw [← contains_iff hden]
  unfold nearest? at h
  dsimp only at h
  split at h
  · next hc hc' =>
    obtain rfl := Option.some.inj h
    split
    · exact hc
    · exact hc'
  · next hc _ =>
    obtain rfl := Option.some.inj h
    exact hc
  · next _ hc' =>
    obtain rfl := Option.some.inj h
    exact hc'
  · cases h

/-- The search fails only if both neighbours of the value lie outside. -/
theorem nearest?_isSome (hden : 0 < i.den)
    (h : i.Has (i.value / i.den : Nat) ∨ i.Has (i.value / i.den + 1 : Nat)) :
    i.nearest?.isSome = true := by
  rw [← contains_iff hden, ← contains_iff hden] at h
  unfold nearest?
  dsimp only
  split <;> simp_all

end Interval

/-! ## Seventeen digits suffice -/

section Search

variable {d : Double} {x : ℚ}

theorem interval_den_pos (d : Double) : 0 < d.interval.den := power_pos two_pos _

theorem interval_value (d : Double) :
    (d.interval.value : ℚ) / d.interval.den = d.significand * 2 ^ d.scale := by
  refine (d.quarters_div (4 * d.significand)).trans ?_
  push_cast
  ring

/-- What is nearer to the value than the ends lies in the interval. -/
theorem has_of_near (hd : d.significand ≠ 0)
    (hbelow : d.significand - d.reach < x * 2 ^ (-d.scale))
    (habove : x * 2 ^ (-d.scale) < d.significand + 1 / 2) : d.interval.Has x := by
  rw [has_interval hd]
  split
  · exact ⟨hbelow.le, habove.le⟩
  · exact ⟨hbelow, habove⟩

/-- On a grid whose step is at most `10 ^ -16` of the value, one of the two points around the value
lies in the interval. -/
theorem has_of_fine {k : Nat} {step : ℚ} (hd : d.significand ≠ 0)
    (hstep : step * 2 ^ (-d.scale) ≤ d.significand / 10 ^ 16)
    (hle : k * (step * 2 ^ (-d.scale)) ≤ d.significand)
    (hlt : d.significand < (k + 1) * (step * 2 ^ (-d.scale))) :
    d.interval.Has (k * step) ∨ d.interval.Has ((k + 1) * step) := by
  have hm : (d.significand : ℚ) + 1 ≤ 2 ^ 53 := by exact_mod_cast d.significand_lt
  have hreach : 0 < d.reach := by
    unfold reach
    split <;> norm_num
  generalize ht : step * 2 ^ (-d.scale) = t at hstep hle hlt
  by_cases hnear : d.significand - d.reach < k * t
  · left
    refine has_of_near hd ?_ ?_
    · rwa [mul_assoc, ht]
    · rw [mul_assoc, ht]
      linarith
  · right
    rw [not_lt] at hnear
    have hnext : (k + 1) * t < d.significand + 1 / 2 := by
      by_cases hpower : d.significand = 2 ^ 52
      · -- at a power of two the step is even shorter than half a unit
        rw [hpower] at hstep hle ⊢
        norm_num at hstep hle ⊢
        linarith
      · rw [reach_eq_half hpower] at hnear
        norm_num at hm hstep
        linarith
    refine has_of_near hd ?_ ?_
    · rw [mul_assoc, ht]
      linarith
    · rwa [mul_assoc, ht]

/-- The seventeenth grid is fine enough. -/
theorem nearest?_seventeen (hd : d.significand ≠ 0) :
    (d.interval.onGrid
      (decimalTop d.interval.value d.interval.den - 17)).nearest?.isSome = true := by
  have hvalue : 0 < d.interval.value :=
    Nat.mul_pos (Nat.mul_pos four_pos (Nat.pos_of_ne_zero hd)) (power_pos two_pos _)
  have htop := pow_decimalTop_le hvalue d.interval_den_pos
  rw [interval_value] at htop
  generalize decimalTop d.interval.value d.interval.den = top at htop
  have hunit : (0 : ℚ) < 2 ^ d.scale := by positivity
  have hstep : (0 : ℚ) < 10 ^ (top - 17) := by positivity
  set i := d.interval.onGrid (top - 17) with hi
  have hden : 0 < i.den := Nat.mul_pos d.interval_den_pos (power_pos (by decide) _)
  have hscaled : (i.value : ℚ) / i.den = d.significand * 2 ^ d.scale / 10 ^ (top - 17) := by
    rw [← interval_value, div_eq_mul_inv _ ((10 : ℚ) ^ (top - 17)), ← zpow_neg]
    have h := scaled_div d.interval.value d.interval.den 10 (-(top - 17))
    rwa [neg_neg] at h
  have hfloor : ((i.value / i.den : Nat) : ℚ) * 10 ^ (top - 17) ≤ d.significand * 2 ^ d.scale := by
    rw [← le_div_iff₀ hstep, ← hscaled]
    exact Nat.cast_div_le
  have hceil : d.significand * 2 ^ d.scale <
      ((i.value / i.den : Nat) + 1) * (10 : ℚ) ^ (top - 17) := by
    rw [← div_lt_iff₀ hstep, ← hscaled, div_lt_iff₀ (by exact_mod_cast hden)]
    exact_mod_cast Nat.lt_mul_of_div_lt (Nat.lt_succ_self (i.value / i.den)) hden
  refine Interval.nearest?_isSome hden ?_
  rw [hi, Interval.has_onGrid, Interval.has_onGrid, ← hi]
  push_cast
  refine has_of_fine hd ?_ ?_ ?_
  · have hsplit : (10 : ℚ) ^ (top - 1) = 10 ^ (top - 17) * 10 ^ 16 := by
      rw [← zpow_natCast, ← zpow_add₀ (by norm_num)]
      congr 1
      push_cast
      ring
    rwa [zpow_neg, ← div_eq_mul_inv, div_le_div_iff₀ hunit (by positivity), ← hsplit]
  · rwa [zpow_neg, ← div_eq_mul_inv, ← mul_div_assoc, div_le_iff₀ hunit]
  · rwa [zpow_neg, ← div_eq_mul_inv, ← mul_div_assoc, lt_div_iff₀ hunit]

/-- The digits of a double are those of a decimal in its interval. -/
theorem exists_shortest (hd : d.significand ≠ 0) :
    ∃ n g, d.shortest = digitsOf n g ∧ d.interval.Has (n * 10 ^ g) := by
  unfold shortest
  dsimp only
  generalize hgrids : (List.range 17).map
    (fun n => decimalTop d.interval.value d.interval.den - (n + 1 : Nat)) = grids
  cases hfind : grids.findSome? fun g =>
      ((d.interval.onGrid g).nearest?).map fun n => digitsOf n g with
  | none =>
    rw [List.findSome?_eq_none_iff] at hfind
    have hmem : decimalTop d.interval.value d.interval.den - 17 ∈ grids := by
      rw [← hgrids]
      exact List.mem_map.mpr ⟨16, by decide, rfl⟩
    have hnone := Option.map_eq_none_iff.mp (hfind _ hmem)
    have hsome := nearest?_seventeen hd
    rw [hnone] at hsome
    cases hsome
  | some ds =>
    obtain ⟨g, -, hg⟩ := List.exists_of_findSome?_eq_some hfind
    obtain ⟨n, hn, rfl⟩ := Option.map_eq_some_iff.mp hg
    refine ⟨n, g, rfl, ?_⟩
    rw [← Interval.has_onGrid]
    exact Interval.has_of_nearest?
      (Nat.mul_pos d.interval_den_pos (power_pos (by decide) g)) hn

end Search

/-! ## Digits as a number -/

theorem natOfDigits_append (cs ds : List Char) :
    natOfDigits (cs ++ ds) = 10 ^ ds.length * natOfDigits cs + natOfDigits ds :=
  (Nat.ofDigitChars_append 0).trans Nat.ofDigitChars_eq_ofDigitChars_zero

theorem natOfDigits_toDigits (n : Nat) : natOfDigits (Nat.toDigits 10 n) = n :=
  Nat.ofDigitChars_ten_toDigits

theorem natOfDigits_replicate (k : Nat) : natOfDigits (List.replicate k '0') = 0 :=
  Nat.ofDigitChars_replicate_zero

/-- The number that digits denote. -/
def Digits.value (n : Digits) : ℚ := natOfDigits n.digits * 10 ^ (n.point - n.digits.length)

/-- Zeros at the end are left out. -/
theorem digitsOf_zeros (n : Nat) (g : Int) :
    ∃ k, Nat.toDigits 10 n = (digitsOf n g).digits ++ List.replicate k '0' := by
  have hsplit := List.takeWhile_append_dropWhile (p := (· = '0')) (l := (Nat.toDigits 10 n).reverse)
  have hzeros : (Nat.toDigits 10 n).reverse.takeWhile (· = '0') =
      List.replicate ((Nat.toDigits 10 n).reverse.takeWhile (· = '0')).length '0' := by
    refine List.eq_replicate_of_mem fun c hc => ?_
    simpa using List.mem_takeWhile_imp hc
  refine ⟨((Nat.toDigits 10 n).reverse.takeWhile (· = '0')).length, ?_⟩
  rw [← List.reverse_inj, List.reverse_append, List.reverse_replicate, ← hzeros]
  simp only [digitsOf, List.reverse_reverse]
  exact hsplit.symm

theorem digitsOf_value (n : Nat) (g : Int) : (digitsOf n g).value = n * 10 ^ g := by
  obtain ⟨k, hk⟩ := digitsOf_zeros n g
  have hn : n = 10 ^ k * natOfDigits (digitsOf n g).digits := by
    have h := congrArg natOfDigits hk
    rwa [natOfDigits_append, natOfDigits_toDigits, natOfDigits_replicate, List.length_replicate,
      add_zero] at h
  have hpoint : (digitsOf n g).point - (digitsOf n g).digits.length = k + g := by
    have h := congrArg List.length hk
    rw [List.length_append, List.length_replicate] at h
    simp only [digitsOf] at h ⊢
    omega
  have hcast : (n : ℚ) = 10 ^ k * natOfDigits (digitsOf n g).digits := by exact_mod_cast hn
  rw [Digits.value, hpoint, hcast, zpow_add₀ (by norm_num), zpow_natCast]
  ring

section Shortest

variable {d : Double}

theorem has_shortest (hd : d.significand ≠ 0) : d.interval.Has d.shortest.value := by
  obtain ⟨n, g, hshortest, hhas⟩ := exists_shortest hd
  rwa [hshortest, digitsOf_value]

theorem shortest_digits_ne_nil (hfinite : d.isFinite = true) (hd : d.significand ≠ 0) :
    d.shortest.digits ≠ [] := by
  intro hnil
  have hgt := (has_order hfinite hd (has_shortest hd)).1
  rw [Digits.value, hnil, show natOfDigits [] = 0 from rfl, Nat.cast_zero, zero_mul] at hgt
  exact hgt.not_ge (by positivity)

/-- The weight of the first digit is far from what an exponent can express. -/
theorem shortest_point (hfinite : d.isFinite = true) (hd : d.significand ≠ 0) :
    -324 < d.shortest.point ∧ d.shortest.point ≤ 309 := by
  obtain ⟨n, g, hshortest, hhas⟩ := exists_shortest hd
  have hpoint : d.shortest.point = decimalLength n + g := by
    rw [hshortest, add_comm]
    rfl
  rw [hpoint]
  exact (decimal_bounds hfinite hd hhas).2

end Shortest

end MiniC.Double
