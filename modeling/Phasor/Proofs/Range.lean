import Phasor.Proofs.Canonical
import Phasor.Proofs.Reduction
import Phasor.Proofs.SeriesBounds

namespace Dyadic

theorem Nearest.lt_middle {p : Nat} {r : ℝ} {x z : Dyadic} (h : Nearest p r x) (hz : z.Fits p) (hx : 0 ≤ x.toReal)
    (hlt : x.toReal < z.toReal) : r < (x.toReal + z.toReal) / 2 := by
  -- A tie goes away from zero, so what is rounded down lies below the middle.
  have hne : z ≠ x := by
    rintro rfl
    exact lt_irrefl _ hlt
  have hbest := h.best z hz hne
  rw [abs_of_nonneg hx, abs_of_pos (hx.trans_lt hlt)] at hbest
  have hcloser := hbest.resolve_right (fun htie => htie.2.not_gt hlt)
  by_contra hge
  rw [abs_of_nonpos (by linarith : x.toReal - r ≤ 0), lt_abs] at hcloser
  rcases hcloser with h | h <;> linarith

section Reciprocal

variable {w : Nat} (hw : 0 < w) {x : Dyadic} (hx : x.Fits w)

theorem two_eq_pow_mul_zpow (w : Nat) : (2 : ℝ) = 2 ^ w * 2 ^ (1 - w : Int) := by
  rw [← zpow_natCast, ← zpow_add₀ (by norm_num), add_sub_cancel, zpow_one]

include hx

theorem exists_eq_mul_of_one_le (hone : 1 ≤ x.toReal) (htwo : x.toReal ≤ 2) :
    ∃ j : Nat, x.toReal = j * 2 ^ (1 - w : Int) ∧ j ≤ 2 ^ w := by
  obtain ⟨j, hj⟩ := exists_eq_mul_zpow (k := 1) hx (by rw [abs_of_nonneg (by linarith)]; norm_num; exact hone)
  have hpow := two_eq_pow_mul_zpow w
  have hunit : (0 : ℝ) < 2 ^ (1 - w : Int) := by positivity
  have hlow : (0 : ℝ) ≤ j := nonneg_of_mul_nonneg_left (by rw [← hj]; linarith) hunit
  have hhigh : (j : ℝ) ≤ 2 ^ w := le_of_mul_le_mul_right (by rw [← hj, ← hpow]; exact htwo) hunit
  lift j to Nat using (by exact_mod_cast hlow)
  exact ⟨j, hj, by exact_mod_cast hhigh⟩

include hw

theorem two_sub_le_divTo_of_one_le (hone : 1 ≤ x.toReal) (htwo : x.toReal ≤ 2) :
    2 - x.toReal ≤ (divTo w 1 x).toReal := by
  obtain ⟨j, hj, hle⟩ := exists_eq_mul_of_one_le hx hone htwo
  -- the difference has no digit below the last of `x`, so it fits
  have hfits : (scaled (2 ^ w - j : Nat) (1 - w)).Fits w := fits_scaled hw (by omega) _
  have hvalue : (scaled (2 ^ w - j : Nat) (1 - w)).toReal = 2 - x.toReal := by
    rw [toReal_scaled, hj]
    push_cast [hle]
    linarith [two_eq_pow_mul_zpow w]
  rw [← hvalue]
  apply (nearest_divTo hw 1 (toReal_ne_zero.mp (by linarith))).ge hfits
  rw [hvalue, toReal_one, le_div_iff₀ (by linarith)]
  nlinarith [sq_nonneg (x.toReal - 1)]

theorem two_sub_le_divTo_of_lt_one (hhalf : 1 / 2 ≤ x.toReal) (hone : x.toReal < 1) :
    2 - x.toReal ≤ (divTo w 1 x).toReal := by
  have hnearest := nearest_divTo hw 1 (toReal_ne_zero.mp (by linarith : x.toReal ≠ 0))
  have hrecip : 2 - x.toReal ≤ (1 : Dyadic).toReal / x.toReal := by
    rw [toReal_one, le_div_iff₀ (by linarith)]
    nlinarith [sq_nonneg (x.toReal - 1)]
  have hdown := hnearest.ge (fits_one hw) (by rw [toReal_one] at hrecip ⊢; linarith)
  rw [toReal_one] at hdown
  by_contra hlt
  obtain ⟨i, hi, -⟩ := exists_eq_mul_of_one_le hnearest.fits hdown (by linarith)
  obtain ⟨j, hj⟩ := exists_eq_mul_zpow (k := 0) hx
    (by rw [abs_of_nonneg (by linarith)]; norm_num at hhalf ⊢; exact hhalf)
  have hunit : (0 : ℝ) < 2 ^ (0 - w : Int) := by positivity
  have hdouble : (2 : ℝ) ^ (1 - w : Int) = 2 * 2 ^ (0 - w : Int) := by
    rw [← zpow_one_add₀ (by norm_num)]
    congr 1
    ring
  have hpow := two_eq_pow_mul_zpow w
  rw [hdouble] at hi hpow
  -- in units of the last place of `x`; the difference may lie half way to the next number that
  -- fits, and the reciprocal, which is beyond it, would be rounded up
  have hgap : 2 * i + 1 + j ≤ 2 * 2 ^ w := by
    have : ((2 * i + j : Int) : ℝ) < (2 * 2 ^ w : Int) := by
      push_cast
      apply lt_of_mul_lt_mul_right _ hunit.le
      linarith
    have := Int.cast_lt.mp this
    omega
  have hj' : (0 : ℝ) < j := pos_of_mul_pos_left (by rw [← hj]; linarith) hunit.le
  norm_cast at hj'
  have hfits : (scaled (i + 1) (1 - w)).Fits w := by
    apply fits_scaled hw
    zify
    rw [abs_of_nonneg (by omega)]
    omega
  have hvalue : (scaled (i + 1) (1 - w)).toReal = (divTo w 1 x).toReal + 2 * 2 ^ (0 - w : Int) := by
    rw [toReal_scaled, hi, hdouble]
    push_cast
    ring
  have hmiddle := hnearest.lt_middle hfits (by linarith) (by linarith)
  have hreal : ((2 * i + 1 + j : Int) : ℝ) ≤ (2 * 2 ^ w : Int) := Int.cast_le.mpr hgap
  push_cast at hreal
  have := mul_le_mul_of_nonneg_right hreal hunit.le
  linarith

theorem two_le_add_divTo (hpos : 0 < x.toReal) : 2 ≤ x.toReal + (divTo w 1 x).toReal := by
  have hnearest := nearest_divTo hw 1 (toReal_ne_zero.mp hpos.ne')
  rw [toReal_one] at hnearest
  rcases le_or_gt 2 x.toReal with htwo | htwo
  · have hdown := hnearest.ge (fits_zero w) (by rw [toReal_zero]; positivity)
    rw [toReal_zero] at hdown
    linarith
  · rcases le_or_gt 1 x.toReal with hone | hone
    · linarith [two_sub_le_divTo_of_one_le hw hx hone htwo.le]
    · rcases le_or_gt (1 / 2) x.toReal with hhalf | hhalf
      · linarith [two_sub_le_divTo_of_lt_one hw hx hhalf hone]
      · have htwo : (scaled 1 1).toReal = 2 := by rw [toReal_scaled]; norm_num
        have hdown := hnearest.ge (fits_scaled (m := 1) hw Nat.one_le_two_pow 1) (by
          rw [htwo, le_div_iff₀ hpos]
          linarith)
        rw [htwo] at hdown
        linarith

end Reciprocal

end Dyadic

namespace Phasor.BigFloat

open Dyadic (fits_addTo fits_divTo toReal_zero toReal_one toReal_neg toReal_scaled toReal_ofInt toReal_shiftLeft
  toReal_ne_zero scaled nearest_mulTo nearest_roundTo le_addTo)

theorem abs_roundTo_le_one {p : Nat} (hp : 0 < p) {x : Dyadic} (h : |x.toReal| ≤ 1) : |(x.roundTo p).toReal| ≤ 1 := by
  have hone : (1 : Dyadic).Fits p := Dyadic.fits_one hp
  rw [abs_le] at h
  have hlow := (nearest_roundTo hp x).ge hone.neg (by rw [toReal_neg, toReal_one]; exact h.1)
  have hhigh := (nearest_roundTo hp x).le hone (by rw [toReal_one]; exact h.2)
  rw [toReal_neg, toReal_one] at hlow
  rw [toReal_one] at hhigh
  exact abs_le.mpr ⟨hlow, hhigh⟩

theorem abs_le_one_of_mem_uIcc {a b : ℝ} (h : a ∈ Set.uIcc 0 b) (hb : |b| ≤ 1) : |a| ≤ 1 := by
  have hle := Set.abs_sub_left_of_mem_uIcc h
  rw [sub_zero, sub_zero] at hle
  exact hle.trans hb

theorem abs_quarterTurns_le {s c : Dyadic} (hs : |s.toReal| ≤ 1) (hc : |c.toReal| ≤ 1) (q : Int) :
    |(quarterTurns q s c).1.toReal| ≤ 1 ∧ |(quarterTurns q s c).2.toReal| ≤ 1 := by
  unfold quarterTurns
  split <;> simp only [toReal_neg, abs_neg] <;> exact ⟨by assumption, by assumption⟩

theorem sinCosTo_range {x : Dyadic} (hx : x.Fits precision) :
    estimateWithin? angleBound x = none ∧ sinCosTo precision x = (nan, nan) ∨
      ∃ s c, sinCosTo precision x = (num s, num c) ∧ |s.toReal| ≤ 1 ∧ |c.toReal| ≤ 1 := by
  unfold sinCosTo
  split
  · refine .inr ⟨0, 1, rfl, ?_, ?_⟩
    · rw [toReal_zero, abs_zero]
      exact zero_le_one
    · rw [toReal_one, abs_one]
  · split
    · rename_i hnone
      exact .inl ⟨hnone, rfl⟩
    · rename_i v hsome
      have hreduced := abs_quadrantReduced_le hx hsome
      have hfits : (quadrantReduced 128 x (quadrant v)).Fits 128 := fits_addTo (by norm_num) _ _
      obtain ⟨-, hsin⟩ := Series.sin_mem (w := 128) (by norm_num) hfits hreduced
      obtain ⟨-, hcos⟩ := Series.cos_mem (w := 128) (by norm_num) hreduced
      obtain ⟨hfirst, hsecond⟩ := abs_quarterTurns_le (abs_le_one_of_mem_uIcc hsin hreduced)
        (abs_le_one_of_mem_uIcc hcos abs_one.le) (quadrant v)
      exact .inr ⟨_, _, rfl, abs_roundTo_le_one precision_pos hfirst, abs_roundTo_le_one precision_pos hsecond⟩

theorem le_abs_of_angle_cutOff {x : Dyadic} (h : estimateWithin? angleBound x = none) : 10 ^ 15 - 1 ≤ |x.toReal| := by
  have hle := le_abs_of_cutOff (by rw [toReal_angleBound]; norm_num) (by rw [toReal_angleBound]; norm_num) h
  rw [toReal_angleBound] at hle
  norm_num at hle ⊢
  linarith

theorem le_abs_of_exp_cutOff {x : Dyadic} (h : estimateWithin? expBound x = none) : 10 ^ 12 - 1 ≤ |x.toReal| := by
  have hle := le_abs_of_cutOff (by rw [toReal_expBound]; norm_num) (by rw [toReal_expBound]; norm_num) h
  rw [toReal_expBound] at hle
  norm_num at hle ⊢
  linarith

theorem squareTimes_pos {w : Nat} (hw : 0 < w) (n : Nat) {x : Dyadic} (hx : 0 < x.toReal) :
    0 < (squareTimes w n x).toReal := by
  induction n generalizing x with
  | zero => exact hx
  | succ n ih =>
    apply ih
    exact (nearest_mulTo hw x x).pos hw (mul_pos hx hx)

theorem expTo_range {p : Nat} (hp : 96 ≤ p) {x : Dyadic} (hx : x.Fits precision) :
    estimateWithin? expBound x = none ∧ expTo p x = (if x.mantissa < 0 then 0 else nan) ∨
      ∃ y, expTo p x = num y ∧ y.Fits p ∧ 0 < y.toReal := by
  have hp' : 0 < p := by omega
  unfold expTo
  split
  · exact .inr ⟨1, rfl, Dyadic.fits_one hp', by rw [toReal_one]; exact zero_lt_one⟩
  · split
    · rename_i hnone
      exact .inl ⟨hnone, rfl⟩
    · rename_i v hsome
      have hw : 128 ≤ p + guardDigits := by
        show 128 ≤ p + 32
        omega
      have hreduced := abs_expReduced_le hw (hx.trans (show 96 ≤ p + guardDigits by omega)) hsome
      obtain ⟨-, hpos⟩ := Series.exp_pos (w := p + guardDigits) (by omega) hreduced
      have hsquares := squareTimes_pos (w := p + guardDigits) (by omega) 10 hpos
      refine .inr ⟨_, rfl, Dyadic.fits_roundTo hp' _, (nearest_roundTo hp' _).pos hp' ?_⟩
      rw [toReal_shiftLeft]
      exact mul_pos (by positivity) hsquares

theorem one_le_half_sum {w p : Nat} (hw : 0 < w) (hp : 0 < p) {u : Dyadic} (hu : u.Fits w) (hpos : 0 < u.toReal) :
    1 ≤ (((u.addTo w (Dyadic.divTo w 1 u)) <<< (-1 : Int)).roundTo p).toReal := by
  have htwo : (scaled 1 1).toReal = 2 := by
    rw [toReal_scaled]
    norm_num
  have hsum := le_addTo hw hu (fits_divTo hw 1 u) (Dyadic.fits_scaled (m := 1) hw Nat.one_le_two_pow 1)
    (htwo.le.trans (Dyadic.two_le_add_divTo hw hu hpos))
  have hround := (nearest_roundTo hp ((u.addTo w (Dyadic.divTo w 1 u)) <<< (-1 : Int))).ge (Dyadic.fits_one hp) (by
    rw [toReal_shiftLeft, toReal_one]
    rw [htwo] at hsum
    norm_num
    linarith)
  rwa [toReal_one] at hround

theorem sinhCoshTo_range {x : Dyadic} (hx : x.Fits precision) :
    estimateWithin? expBound x = none ∧ sinhCoshTo precision x = (nan, nan) ∨
      ∃ s c, sinhCoshTo precision x = (num s, num c) ∧ 1 ≤ c.toReal := by
  unfold sinhCoshTo
  split
  · exact .inr ⟨0, 1, rfl, toReal_one.ge⟩
  · obtain ⟨hnone, hexp⟩ | ⟨u, hexp, hfits, hpos⟩ := expTo_range (p := precision + guardDigits) (by decide) hx
    · have htop : ¬ x.top < -3 := by
        intro hlt
        have hsize := x.abs_toReal_lt.trans (zpow_lt_zpow_right₀ (by norm_num : (1 : ℝ) < 2) hlt)
        have hlarge := le_abs_of_exp_cutOff hnone
        norm_num at hsize hlarge
        linarith
      simp only [if_neg htop, hexp]
      left
      split
      · exact ⟨hnone, rfl⟩
      · exact ⟨hnone, rfl⟩
    · have hcosh := one_le_half_sum (w := precision + guardDigits) (p := precision) (by decide) (by decide) hfits hpos
      have hdown : divTo (precision + guardDigits) 1 (num u) = num (Dyadic.divTo (precision + guardDigits) 1 u) := by
        have hne : num u ≠ 0 := by
          intro h
          rw [num.inj h, toReal_ofInt] at hpos
          norm_num at hpos
        rw [divTo, if_neg hne]
        rfl
      simp only [hexp, hdown]
      right
      split
      · exact ⟨_, _, rfl, hcosh⟩
      · exact ⟨_, _, rfl, hcosh⟩

end Phasor.BigFloat
