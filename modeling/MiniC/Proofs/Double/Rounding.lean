import Mathlib.Algebra.Order.Field.Power
import Mathlib.Algebra.Order.Ring.Rat
import Mathlib.Algebra.Field.Rat
import Mathlib.Tactic.Linarith
import Mathlib.Tactic.NormNum
import Mathlib.Tactic.Positivity
import Mathlib.Tactic.Ring
import MiniC.Double.Shortest

/-!
# Rounding

A finite double is a significand and a scale, and the fractions that round to it are those of its
interval. `ofRatio` looks for the scale first: it is the one whose unit leaves fifty-three bits, so
it is the scale of the double itself, or, right below a power of two, the one before it. In the
second case the rounding carries, and the carry gives the same bit pattern.
-/

namespace MiniC.Double

/-! ## Powers -/

/-- A power with any exponent is a fraction of two powers of naturals. -/
theorem power_div_power (base : Nat) (e : Int) :
    (power base e : ℚ) / power base (-e) = (base : ℚ) ^ e := by
  obtain ⟨n, rfl | rfl⟩ := e.eq_nat_or_neg
  · simp [power]
  · simp [power]

theorem power_pos {base : Nat} (hbase : 0 < base) (e : Int) : 0 < power base e :=
  Nat.pow_pos hbase

theorem scaled_div (num den : Nat) (base : Nat) (e : Int) :
    ((num * power base e : Nat) : ℚ) / (den * power base (-e) : Nat) =
      num / den * (base : ℚ) ^ e := by
  push_cast
  rw [mul_div_mul_comm, power_div_power]

/-- A bound in units of `2 ^ s`. -/
theorem units_lt_iff {x : ℚ} {s : Int} (k : Int) : x * 2 ^ (-s) < 2 ^ k ↔ x < 2 ^ (s + k) := by
  rw [zpow_neg, ← div_eq_mul_inv, div_lt_iff₀ (by positivity), add_comm, zpow_add₀ two_ne_zero]

theorem le_units_iff {x : ℚ} {s : Int} (k : Int) : 2 ^ k ≤ x * 2 ^ (-s) ↔ 2 ^ (s + k) ≤ x := by
  rw [← not_lt, units_lt_iff, not_lt]

/-! ## The nearest integer -/

/-- The integer `r` is nearest to `y`; halfway between two it is the even one. -/
structure Nearest (y : ℚ) (r : Nat) : Prop where
  above : y ≤ r + 1 / 2
  below : r - 1 / 2 ≤ y
  even : y = r + 1 / 2 ∨ y = r - 1 / 2 → r % 2 = 0

theorem roundEven_eq {num den r : Nat} (hden : 0 < den) (h : Nearest (num / den) r) :
    roundEven num den = r := by
  have hden' : (0 : ℚ) < den := by exact_mod_cast hden
  have hdiv : (num : ℚ) / den = (num / den : Nat) + (num % den : Nat) / den := by
    rw [div_eq_iff hden'.ne', add_mul, div_mul_cancel₀ _ hden'.ne']
    exact_mod_cast (Nat.div_add_mod' num den).symm
  have hrem : ((num % den : Nat) : ℚ) / den < 1 := by
    rw [div_lt_one hden']
    exact_mod_cast Nat.mod_lt num hden
  have hrem' : (0 : ℚ) ≤ ((num % den : Nat) : ℚ) / den := by positivity
  obtain ⟨habove, hbelow, heven⟩ := h
  rw [hdiv] at habove hbelow heven
  unfold roundEven
  generalize num / den = q at *
  generalize num % den = t at *
  have hle : r ≤ q + 1 := by
    have : (r : ℚ) < q + 1 + 1 := by linarith
    exact Nat.lt_succ_iff.mp (by exact_mod_cast this)
  have hge : q ≤ r := by
    have : (q : ℚ) < r + 1 := by linarith
    exact Nat.lt_succ_iff.mp (by exact_mod_cast this)
  have hhalf : den < 2 * t ↔ 1 / 2 < (t : ℚ) / den := by
    rw [lt_div_iff₀ hden', div_mul_eq_mul_div, div_lt_iff₀ two_pos, one_mul, mul_comm]
    exact_mod_cast Iff.rfl
  have htie : 2 * t = den ↔ (t : ℚ) / den = 1 / 2 := by
    rw [div_eq_div_iff hden'.ne' two_ne_zero, one_mul, mul_comm]
    exact_mod_cast Iff.rfl
  simp only [hhalf, htie, Bool.or_eq_true, decide_eq_true_eq, Bool.and_eq_true, beq_iff_eq]
  rcases (by omega : r = q ∨ r = q + 1) with rfl | rfl
  · rw [if_neg]
    rintro (hlt | ⟨htie, hodd⟩)
    · linarith
    · have := heven (.inl (by linarith))
      omega
  · push_cast at hbelow heven
    rw [if_pos]
    rcases lt_or_eq_of_le (by linarith : 1 / 2 ≤ (t : ℚ) / den) with hlt | heq
    · exact .inl hlt
    · have := heven (.inr (by linarith))
      exact .inr ⟨heq.symm, by omega⟩

/-! ## The scale of a fraction -/

/-- In units of `2 ^ q` the fraction `x` has an integer part of at most fifty-three bits, and of no
fewer unless the scale is the least of all. -/
structure Scaled (x : ℚ) (q : Int) : Prop where
  least : -1074 ≤ q
  lt : x < 2 ^ (q + 53)
  ge : q = -1074 ∨ 2 ^ (q + 52) ≤ x

theorem Scaled.le {x : ℚ} {q q' : Int} (h : Scaled x q) (h' : Scaled x q') : q ≤ q' := by
  rcases h.ge with rfl | hge
  · exact h'.least
  · have hpow : (2 : ℚ) ^ (q + 52) < 2 ^ (q' + 53) := hge.trans_lt h'.lt
    have := (zpow_lt_zpow_iff_right₀ one_lt_two).mp hpow
    omega

theorem scaled_scaleOf {num den : Nat} (hnum : 0 < num) (hden : 0 < den) :
    Scaled (num / den) (scaleOf num den) := by
  have hnum' : (0 : ℚ) < num := by exact_mod_cast hnum
  have hden' : (0 : ℚ) < den := by exact_mod_cast hden
  have hnum_ge : (2 : ℚ) ^ (num.log2 : Int) ≤ num := by
    exact_mod_cast Nat.log2_self_le hnum.ne'
  have hnum_lt : (num : ℚ) < 2 ^ (num.log2 + 1 : Int) := by
    exact_mod_cast (Nat.lt_log2_self : num < _)
  have hden_ge : (2 : ℚ) ^ (den.log2 : Int) ≤ den := by
    exact_mod_cast Nat.log2_self_le hden.ne'
  have hden_lt : (den : ℚ) < 2 ^ (den.log2 + 1 : Int) := by
    exact_mod_cast (Nat.lt_log2_self : den < _)
  -- the logarithms enclose the fraction between two powers that are two apart
  have hge : (2 : ℚ) ^ ((num.log2 : Int) - den.log2 - 1) ≤ num / den := by
    rw [le_div_iff₀ hden']
    calc (2 : ℚ) ^ ((num.log2 : Int) - den.log2 - 1) * den
        ≤ 2 ^ ((num.log2 : Int) - den.log2 - 1) * 2 ^ (den.log2 + 1 : Int) := by gcongr
      _ = 2 ^ (num.log2 : Int) := by
        rw [← zpow_add₀ two_ne_zero]
        congr 1
        ring
      _ ≤ num := hnum_ge
  have hlt : (num : ℚ) / den < 2 ^ ((num.log2 : Int) - den.log2 + 1) := by
    rw [div_lt_iff₀ hden']
    calc (num : ℚ) < 2 ^ (num.log2 + 1 : Int) := hnum_lt
      _ = 2 ^ ((num.log2 : Int) - den.log2 + 1) * 2 ^ (den.log2 : Int) := by
        rw [← zpow_add₀ two_ne_zero]
        congr 1
        ring
      _ ≤ 2 ^ ((num.log2 : Int) - den.log2 + 1) * den := by gcongr
  have hcompare : ∀ e : Int, den * power 2 e ≤ num * power 2 (-e) ↔ (2 : ℚ) ^ e ≤ num / den := by
    intro e
    have h := scaled_div num den 2 (-e)
    rw [neg_neg] at h
    have hscaled : (0 : ℚ) < (den * power 2 e : Nat) := by
      exact_mod_cast Nat.mul_pos hden (power_pos two_pos e)
    rw [← Nat.cast_le (α := ℚ), ← one_le_div hscaled, h, zpow_neg, ← div_eq_mul_inv,
      one_le_div (by positivity)]
    rfl
  unfold scaleOf
  generalize hq : max ((num.log2 : Int) - den.log2 - 53) (-1074) = q
  have hq_le : (num.log2 : Int) - den.log2 - 53 ≤ q := by omega
  dsimp only
  split
  · next hcarry =>
    rw [hcompare] at hcarry
    refine ⟨by omega, hlt.trans_le ?_, .inr ?_⟩
    · exact zpow_le_zpow_right₀ one_le_two (by omega)
    · convert hcarry using 2
      ring
  · next hcarry =>
    rw [hcompare, not_le] at hcarry
    refine ⟨by omega, hcarry, ?_⟩
    rcases (by omega : q = -1074 ∨ q = (num.log2 : Int) - den.log2 - 53) with hleast | heq
    · exact .inl hleast
    · right
      convert hge using 2
      omega

theorem scaleOf_eq {num den : Nat} {q : Int} (hnum : 0 < num) (hden : 0 < den)
    (h : Scaled (num / den) q) : scaleOf num den = q :=
  le_antisymm ((scaled_scaleOf hnum hden).le h) (h.le (scaled_scaleOf hnum hden))

theorem ofRatio_of_scaled {num den r : Nat} {q : Int} (hnum : 0 < num) (hden : 0 < den)
    (hq : Scaled (num / den) q) (hr : Nearest (num / den * 2 ^ (-q)) r)
    (hbits : (q + 1074).toNat * exponentWeight + r < infinity.bits.toNat) :
    ofRatio num den = ⟨UInt64.ofNat ((q + 1074).toNat * exponentWeight + r)⟩ := by
  have hround : roundEven (num * power 2 (-q)) (den * power 2 q) = r := by
    refine roundEven_eq (Nat.mul_pos hden (power_pos two_pos q)) ?_
    have hdiv := scaled_div num den 2 (-q)
    rw [neg_neg] at hdiv
    rwa [hdiv]
  unfold ofRatio
  rw [scaleOf_eq hnum hden hq]
  dsimp only
  rw [hround, if_pos hbits]

/-! ## The fields of a double -/

section Fields

variable {d : Double}

theorem significand_lt (d : Double) : d.significand < 2 ^ 53 := by
  have hfraction : d.fractionField < exponentWeight := Nat.mod_lt _ (by decide)
  unfold significand
  unfold exponentWeight at *
  split <;> omega

theorem le_scale (d : Double) : -1074 ≤ d.scale := by
  unfold scale
  split <;> omega

/-- The leading bit of the significand is there unless the scale is the least of all. -/
theorem scale_or_significand (d : Double) : d.scale = -1074 ∨ 2 ^ 52 ≤ d.significand := by
  unfold scale significand exponentWeight
  split
  · exact .inl rfl
  · exact .inr (by omega)

theorem exponentField_lt (hfinite : d.isFinite = true) : d.exponentField < 2047 := by
  have hmod : d.exponentField < 2048 := Nat.mod_lt _ (by decide)
  have hne : d.exponentField ≠ 2047 := by simpa [isFinite] using hfinite
  omega

theorem scale_le (hfinite : d.isFinite = true) : d.scale ≤ 971 := by
  have := exponentField_lt hfinite
  unfold scale
  split <;> omega

theorem bits_eq_fields (hsign : d.isNegative = false) :
    d.bits.toNat = d.exponentField * exponentWeight + d.fractionField := by
  have hlt : d.bits.toNat < signWeight := by simpa [isNegative] using hsign
  unfold exponentField fractionField
  unfold exponentWeight signWeight at *
  omega

theorem bits_eq (hsign : d.isNegative = false) :
    d.bits.toNat = (d.scale + 1074).toNat * exponentWeight + d.significand := by
  rw [bits_eq_fields hsign]
  unfold scale significand
  split
  · next hzero => simp [hzero]
  · next hzero =>
    have hfield : ((d.exponentField : Int) - 1075 + 1074).toNat = d.exponentField - 1 := by omega
    rw [hfield]
    unfold exponentWeight
    omega

theorem bits_lt_infinity (hsign : d.isNegative = false) (hfinite : d.isFinite = true) :
    d.bits.toNat < infinity.bits.toNat := by
  have hexponent := exponentField_lt hfinite
  have hfraction : d.fractionField < exponentWeight := Nat.mod_lt _ (by decide)
  have hinf : infinity.bits.toNat = 2047 * exponentWeight := rfl
  rw [bits_eq_fields hsign, hinf]
  unfold exponentWeight at *
  omega

end Fields

/-! ## The interval of a double -/

/-- The number lies in the interval. -/
def Interval.Has (i : Interval) (x : ℚ) : Prop :=
  if i.closed then (i.low : ℚ) / i.den ≤ x ∧ x ≤ i.high / i.den
  else (i.low : ℚ) / i.den < x ∧ x < i.high / i.den

section Interval

variable {d : Double} {x : ℚ}

/-- How far the interval reaches below the value, in units of the last place: half a unit, but only
a quarter at a power of two, where the units below are half as large. -/
def reach (d : Double) : ℚ := if d.fractionField = 0 && 1 < d.exponentField then 1 / 4 else 1 / 2

theorem reach_le (d : Double) : d.reach ≤ 1 / 2 := by
  unfold reach
  split <;> norm_num

theorem reach_of_significand (hm : d.significand = 2 ^ 52) (hs : -1074 < d.scale) :
    d.reach = 1 / 4 := by
  have hnormal : d.exponentField ≠ 0 := by
    intro hzero
    simp [scale, hzero] at hs
  have hfraction : d.fractionField = 0 := by
    rw [significand, if_neg hnormal] at hm
    unfold exponentWeight at hm
    omega
  have hexponent : 1 < d.exponentField := by
    rw [scale, if_neg hnormal] at hs
    omega
  simp [reach, hfraction, hexponent]

/-- Only a power of two has the shorter reach. -/
theorem reach_eq_half (hm : d.significand ≠ 2 ^ 52) : d.reach = 1 / 2 := by
  unfold reach
  rw [if_neg]
  rw [Bool.and_eq_true, decide_eq_true_eq, decide_eq_true_eq]
  rintro ⟨hfraction, hexponent⟩
  rw [significand, if_neg (by omega), hfraction] at hm
  exact hm rfl

/-- The ends of the interval are multiples of a quarter of a unit. -/
theorem quarters_div (d : Double) (k : Nat) :
    ((k * power 2 (d.scale - 2) : Nat) : ℚ) / d.interval.den = k / 4 * 2 ^ d.scale := by
  have hden : d.interval.den = power 2 (-(d.scale - 2)) := by
    rw [neg_sub]
    rfl
  have hscaled := scaled_div k 1 2 (d.scale - 2)
  rw [one_mul, ← hden] at hscaled
  rw [hscaled, Nat.cast_one, div_one, Nat.cast_ofNat, zpow_sub₀ two_ne_zero]
  ring

/-- The interval of a double in units of the last place. -/
theorem has_interval (hd : d.significand ≠ 0) :
    d.interval.Has x ↔
      if d.significand % 2 = 0 then
        d.significand - d.reach ≤ x * 2 ^ (-d.scale) ∧ x * 2 ^ (-d.scale) ≤ d.significand + 1 / 2
      else
        d.significand - d.reach < x * 2 ^ (-d.scale) ∧
          x * 2 ^ (-d.scale) < d.significand + 1 / 2 := by
  have hunit : (0 : ℚ) < 2 ^ d.scale := by positivity
  have hhigh : (d.interval.high : ℚ) / d.interval.den = (d.significand + 1 / 2) * 2 ^ d.scale := by
    refine (d.quarters_div (4 * d.significand + 2)).trans ?_
    push_cast
    ring
  have hlow : (d.interval.low : ℚ) / d.interval.den = (d.significand - d.reach) * 2 ^ d.scale := by
    refine (d.quarters_div (4 * d.significand - _)).trans ?_
    rw [reach]
    split
    · rw [Nat.cast_sub (by omega)]
      push_cast
      ring
    · rw [Nat.cast_sub (by omega)]
      push_cast
      ring
  have hclosed : d.interval.closed = true ↔ d.significand % 2 = 0 := by
    simp [interval]
  unfold Interval.Has
  rw [hhigh, hlow, zpow_neg, ← div_eq_mul_inv, le_div_iff₀ hunit, div_le_iff₀ hunit,
    lt_div_iff₀ hunit, div_lt_iff₀ hunit]
  simp only [hclosed]

/-- A number of the interval is at most half a unit away. -/
theorem near_of_has (hd : d.significand ≠ 0) (hx : d.interval.Has x) :
    d.significand - d.reach ≤ x * 2 ^ (-d.scale) ∧
      x * 2 ^ (-d.scale) ≤ d.significand + 1 / 2 := by
  rw [has_interval hd] at hx
  split at hx
  · exact hx
  · exact ⟨hx.1.le, hx.2.le⟩

/-- A number of the interval rounds to the significand. -/
theorem nearest_of_has (hd : d.significand ≠ 0) (hx : d.interval.Has x) :
    Nearest (x * 2 ^ (-d.scale)) d.significand := by
  have hreach := d.reach_le
  have hnear := near_of_has hd hx
  refine ⟨hnear.2, by linarith, fun htie => ?_⟩
  by_contra hodd
  rw [has_interval hd, if_neg hodd] at hx
  rcases htie with htie | htie <;> linarith

/-- Unless it lies below the binary order of the double, a number of the interval has its scale. -/
theorem scaled_of_has (hd : d.significand ≠ 0) (hx : d.interval.Has x)
    (hge : d.scale = -1074 ∨ 2 ^ (52 : ℤ) ≤ x * 2 ^ (-d.scale)) : Scaled x d.scale := by
  have hm : (d.significand : ℚ) + 1 ≤ 2 ^ (53 : ℤ) := by exact_mod_cast d.significand_lt
  have hnear := near_of_has hd hx
  refine ⟨d.le_scale, (units_lt_iff 53).mp (by linarith), ?_⟩
  rcases hge with hleast | hge
  · exact .inl hleast
  · exact .inr ((le_units_iff 52).mp hge)

/-- Below its binary order, only a power of two has numbers in its interval; they have the scale
before, and round up to the carry. -/
theorem scaled_of_has_below (hd : d.significand ≠ 0) (hx : d.interval.Has x)
    (hs : -1074 < d.scale) (hlt : x * 2 ^ (-d.scale) < 2 ^ (52 : ℤ)) :
    d.significand = 2 ^ 52 ∧ Scaled x (d.scale - 1) ∧
      Nearest (x * 2 ^ (-(d.scale - 1))) (2 ^ 53) := by
  have hreach := d.reach_le
  have hnear := near_of_has hd hx
  have hm : d.significand = 2 ^ 52 := by
    have hge := d.scale_or_significand.resolve_left hs.ne'
    have hle : (d.significand : ℚ) < 2 ^ (52 : ℤ) + 1 := by linarith
    have hle' : d.significand < 2 ^ 52 + 1 := by exact_mod_cast hle
    omega
  rw [reach_of_significand hm hs, hm] at hnear
  push_cast at hnear
  have hdouble : x * 2 ^ (-(d.scale - 1)) = 2 * (x * 2 ^ (-d.scale)) := by
    rw [neg_sub, sub_eq_add_neg, zpow_add₀ two_ne_zero]
    ring
  generalize x * 2 ^ (-d.scale) = u at hlt hnear hdouble
  norm_num at hlt
  refine ⟨hm, ⟨by omega, (units_lt_iff 53).mp ?_, .inr ((le_units_iff 52).mp ?_)⟩, ?_⟩
  · rw [hdouble]
    norm_num
    linarith
  · rw [hdouble]
    norm_num
    linarith
  · rw [hdouble]
    refine ⟨?_, ?_, fun _ => by norm_num⟩
    · push_cast
      linarith
    · push_cast
      linarith

/-- A double is the result of rounding any fraction of its interval. -/
theorem ofRatio_eq {num den : Nat} (hsign : d.isNegative = false) (hfinite : d.isFinite = true)
    (hd : d.significand ≠ 0) (hnum : 0 < num) (hden : 0 < den)
    (hx : d.interval.Has (num / den)) : ofRatio num den = d := by
  have hbits := bits_lt_infinity hsign hfinite
  by_cases hge : d.scale = -1074 ∨ 2 ^ (52 : ℤ) ≤ (num : ℚ) / den * 2 ^ (-d.scale)
  · rw [bits_eq hsign] at hbits
    rw [ofRatio_of_scaled hnum hden (scaled_of_has hd hx hge) (nearest_of_has hd hx) hbits,
      ← bits_eq hsign, UInt64.ofNat_toNat]
  · obtain ⟨hs, hlt⟩ := not_or.mp hge
    have hs' : -1074 < d.scale := lt_of_le_of_ne d.le_scale (Ne.symm hs)
    obtain ⟨hm, hscaled, hnearest⟩ := scaled_of_has_below hd hx hs' (not_le.mp hlt)
    have hcarry : (d.scale - 1 + 1074).toNat * exponentWeight + 2 ^ 53 = d.bits.toNat := by
      rw [bits_eq hsign, hm]
      unfold exponentWeight
      omega
    rw [ofRatio_of_scaled hnum hden hscaled hnearest (hcarry ▸ hbits), hcarry, UInt64.ofNat_toNat]

end Interval

end MiniC.Double
