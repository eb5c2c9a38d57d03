import Phasor.Proofs.Range

namespace Dyadic

theorem Nearest.shiftRight {p : Nat} {r : ℝ} {x : Dyadic} (h : Nearest p r x) (k : Int) :
    Nearest p (r / 2 ^ k) (x >>> k) := by
  refine ⟨h.fits.shiftRight k, ?_⟩
  intro z hz hne
  have hk : (0 : ℝ) < 2 ^ k := by positivity
  have hz' : z.toReal = (z <<< k).toReal / 2 ^ k := by
    rw [toReal_shiftLeft]
    field_simp
  have hne' : z <<< k ≠ x := by
    intro heq
    apply hne
    rw [← toReal_inj, hz', heq, toReal_shiftRight]
  have hbest := h.best (z <<< k) (hz.shiftLeft k) hne'
  rw [hz', toReal_shiftRight, ← sub_div, ← sub_div, abs_div, abs_div, abs_div, abs_div, abs_of_pos hk]
  simpa only [div_lt_div_iff_of_pos_right hk, div_left_inj' hk.ne'] using hbest

theorem roundTo_shiftRight {p : Nat} (hp : 0 < p) (x : Dyadic) (k : Int) : (x >>> k).roundTo p = x.roundTo p >>> k := by
  have hnearest := nearest_roundTo hp (x >>> k)
  rw [toReal_shiftRight] at hnearest
  exact hnearest.unique ((nearest_roundTo hp x).shiftRight k)

theorem roundTo_mono {p : Nat} (hp : 0 < p) {x y : Dyadic} (h : x.toReal ≤ y.toReal) :
    (x.roundTo p).toReal ≤ (y.roundTo p).toReal :=
  (nearest_roundTo hp x).mono (nearest_roundTo hp y) h

end Dyadic

namespace Phasor.BigFloat

open Dyadic (scaled fits_divTo fits_scaled toReal_zero toReal_one toReal_neg toReal_scaled toReal_shiftLeft
  toReal_shiftRight toReal_ne_zero toReal_lt_iff toReal_pos toReal_lt_zero nearest_mulTo nearest_divTo nearest_sqrtTo
  nearest_roundTo addTo_le le_addTo roundTo_mono roundTo_shiftRight)

theorem roundTo_piTo_working : (piTo 160).roundTo 128 = piTo 128 := by
  unfold piTo
  rw [piWide_eq]
  decide +kernel

theorem roundTo_piTo_precision : (piTo 128).roundTo precision = piTo precision := by
  unfold piTo
  rw [piWide_eq]
  decide +kernel

theorem piTo_mem {w : Nat} (hw : 2 ≤ w) : 3 ≤ (piTo w).toReal ∧ (piTo w).toReal ≤ 4 := by
  have hpow : 2 ^ 2 ≤ 2 ^ w := Nat.pow_le_pow_right (by norm_num) hw
  have hnearest := nearest_roundTo (p := w) (by omega) piWide
  have hthree : (scaled 3 0).toReal = 3 := by rw [toReal_scaled]; norm_num
  have hfour : (scaled 4 0).toReal = 4 := by rw [toReal_scaled]; norm_num
  rw [piTo, ← hthree, ← hfour]
  refine ⟨hnearest.ge (fits_scaled (by omega) (by omega) 0) ?_, hnearest.le (fits_scaled (by omega) (by omega) 0) ?_⟩
  · rw [hthree, piWide_eq, toReal_scaled]
    norm_num
  · rw [hfour, piWide_eq, toReal_scaled]
    norm_num

section ExceedsOne

variable {x : Dyadic} (hpos : 0 < x.toReal)

include hpos

theorem le_of_exceedsOne (h : exceedsOne x = true) : 1 - 2 ^ (-50 : Int) ≤ x.toReal := by
  rcases le_or_gt x.top 0 with htop | htop
  · obtain ⟨v, hv⟩ := Binary64.exists_estimate? (x := x) (by omega)
    have hclose := Binary64.abs_estimate?_sub_le_of_top_le (by norm_num) htop hv
    rw [exceedsOne, hv] at h
    have hlt := toReal_lt_iff.mpr (of_decide_eq_true h)
    rw [toReal_one] at hlt
    rw [abs_le] at hclose
    norm_num at hclose ⊢
    linarith
  · have hlow := Dyadic.two_zpow_pred_top_le_toReal hpos
    have hone : (2 : ℝ) ^ (0 : Int) ≤ 2 ^ (x.top - 1) := zpow_le_zpow_right₀ (by norm_num) (by omega)
    rw [zpow_zero] at hone
    norm_num
    linarith

theorem le_of_not_exceedsOne (h : exceedsOne x = false) : x.toReal ≤ 1 + 2 ^ (-50 : Int) := by
  rcases le_or_gt x.top 0 with htop | htop
  · have hhigh := Dyadic.toReal_lt_two_zpow_top hpos
    have hone : (2 : ℝ) ^ x.top ≤ 2 ^ (0 : Int) := zpow_le_zpow_right₀ (by norm_num) htop
    rw [zpow_zero] at hone
    norm_num
    linarith
  · rcases hv : Binary64.estimate? x with _ | v
    · rw [exceedsOne, hv] at h
      cases h
    · have hclose := Binary64.abs_estimate?_sub_le_mul (toReal_ne_zero.mp hpos.ne') (by omega) hv
      rw [exceedsOne, hv] at h
      have hle := not_lt.mp (mt toReal_lt_iff.mp (of_decide_eq_false h))
      rw [toReal_one] at hle
      rw [abs_of_pos hpos, abs_le] at hclose
      norm_num at hclose ⊢
      linarith

end ExceedsOne

theorem halveAngle_mem {w : Nat} (hw : 0 < w) {y : Dyadic} (hy : y.Fits w) (hpos : 0 < y.toReal) :
    (halveAngle w y).Fits w ∧ 0 < (halveAngle w y).toReal ∧ (halveAngle w y).toReal ≤ y.toReal / 2 := by
  have hone : (1 : Dyadic).Fits w := Dyadic.fits_one hw
  have htwo : (scaled 1 1).toReal = 2 := by rw [toReal_scaled]; norm_num
  have hsquare := (nearest_mulTo hw y y).pos hw (mul_pos hpos hpos)
  have hsum := le_addTo hw hone (Dyadic.fits_roundTo hw (y * y)) hone (le_add_of_nonneg_right hsquare.le)
  rw [toReal_one] at hsum
  have hroot := (nearest_sqrtTo hw ((toReal_pos _).mp (zero_lt_one.trans_le hsum)).le).ge hone (by
    rw [toReal_one]
    exact Real.one_le_sqrt.mpr hsum)
  rw [toReal_one] at hroot
  -- the divisor is at least two, however the square and its root were rounded
  have hdivisor := le_addTo hw hone (Dyadic.fits_sqrtTo hw _) (fits_scaled (m := 1) hw Nat.one_le_two_pow 1) (by
    rw [htwo, toReal_one]
    linarith)
  rw [htwo] at hdivisor
  have hquot := nearest_divTo hw y (toReal_ne_zero.mp (by linarith))
  have hle := hquot.le (hy.shiftRight 1) (by
    rw [toReal_shiftRight, zpow_one]
    gcongr)
  rw [toReal_shiftRight, zpow_one] at hle
  exact ⟨hquot.fits, hquot.pos hw (by positivity), hle⟩

theorem halveAngle_twice_mem {w : Nat} (hw : 0 < w) {y : Dyadic} (hy : y.Fits w) (hpos : 0 < y.toReal)
    (hle : y.toReal ≤ 6 / 5) :
    let z := halveAngle w (halveAngle w y)
    z.Fits w ∧ 0 < z.toReal ∧ z.toReal ≤ 3 / 10 := by
  obtain ⟨hfits₁, hpos₁, hle₁⟩ := halveAngle_mem hw hy hpos
  obtain ⟨hfits₂, hpos₂, hle₂⟩ := halveAngle_mem hw hfits₁ hpos₁
  exact ⟨hfits₂, hpos₂, by linarith⟩

theorem quadrupled_atan_mem {w : Nat} (hw : 8 ≤ w) {y : Dyadic} (hy : y.Fits w) (hpos : 0 < y.toReal)
    (hle : y.toReal ≤ 6 / 5) :
    let angle := (Series.atan w (halveAngle w (halveAngle w y))).value <<< (2 : Int)
    angle.Fits w ∧ 0 < angle.toReal ∧ angle.toReal ≤ 6 / 5 := by
  intro angle
  obtain ⟨hfits', hpos', hle'⟩ := halveAngle_twice_mem (by omega) hy hpos hle
  obtain ⟨hfits, hlow, hhigh⟩ := Series.atan_mem hw hfits' hpos' hle'
  refine ⟨hfits.shiftLeft 2, ?_, ?_⟩
  · rw [toReal_shiftLeft]
    positivity
  · rw [toReal_shiftLeft]
    norm_num
    linarith

theorem reflected_mem {w : Nat} (hw : 8 ≤ w) {x : Dyadic} (hx : x.Fits w) (hpos : 0 < x.toReal) :
    let y := if exceedsOne x then Dyadic.divTo w 1 x else x
    y.Fits w ∧ 0 < y.toReal ∧ y.toReal ≤ 6 / 5 := by
  cases hexceeds : exceedsOne x with
  | false =>
    have hle := le_of_not_exceedsOne hpos hexceeds
    simp only [Bool.false_eq_true, if_false]
    exact ⟨hx, hpos, hle.trans (by norm_num)⟩
  | true =>
    have hge := le_of_exceedsOne hpos hexceeds
    have hquot := roundedOnce_divTo (w := w) (by omega) 1 (toReal_ne_zero.mp hpos.ne')
    have hrecip : (1 : Dyadic).toReal / x.toReal ≤ 101 / 100 := by
      rw [toReal_one, div_le_iff₀ hpos]
      norm_num at hge
      linarith
    have hone : 0 < (1 : Dyadic).toReal / x.toReal := by
      rw [toReal_one]
      positivity
    have hle := (le_abs_self _).trans (hquot.abs_le hw)
    rw [abs_of_pos hone] at hle
    simp only [if_true]
    exact ⟨fits_divTo (by omega) 1 x, hquot.pos hw hone, by linarith⟩

theorem atanTo_mem {p : Nat} (hp : 0 < p) {x : Dyadic} (hx : x.Fits (p + guardDigits)) (hpos : 0 < x.toReal) :
    (atanTo p x).Fits p ∧ 0 < (atanTo p x).toReal ∧
      (atanTo p x).toReal ≤ ((piTo (p + guardDigits)).roundTo p >>> (1 : Int)).toReal := by
  have habs : x.abs = x := by
    rw [Dyadic.abs, if_neg (by have := (toReal_pos x).mp hpos; omega)]
  have hw : 8 ≤ p + guardDigits := by
    show 8 ≤ p + 32
    omega
  simp only [atanTo, if_neg (toReal_ne_zero.mp hpos.ne'), habs, if_neg ((toReal_lt_zero x).not.mp hpos.not_gt)]
  rw [← roundTo_shiftRight hp]
  generalize p + guardDigits = w at *
  have hpi : 3 / 2 ≤ (piTo w >>> (1 : Int)).toReal := by
    rw [toReal_shiftRight, zpow_one]
    linarith [(piTo_mem (w := w) (by omega)).1]
  have hround {a : Dyadic} (hlow : 0 < a.toReal) (hhigh : a.toReal ≤ (piTo w >>> (1 : Int)).toReal) :
      (a.roundTo p).Fits p ∧ 0 < (a.roundTo p).toReal ∧
        (a.roundTo p).toReal ≤ ((piTo w >>> (1 : Int)).roundTo p).toReal :=
    ⟨Dyadic.fits_roundTo hp a, (nearest_roundTo hp a).pos hp hlow, roundTo_mono hp hhigh⟩
  obtain ⟨hfits', hpos', hle'⟩ := reflected_mem hw hx hpos
  obtain ⟨hfits, hlow, hhigh⟩ := quadrupled_atan_mem hw hfits' hpos' hle'
  cases hexceeds : exceedsOne x with
  | false =>
    simp only [hexceeds, Bool.false_eq_true, if_false] at hlow hhigh ⊢
    exact hround hlow (by linarith)
  | true =>
    have hhalf : (piTo w >>> (1 : Int)).Fits w := (Dyadic.fits_roundTo (by omega) piWide).shiftRight 1
    simp only [hexceeds, if_true] at hfits hlow hhigh ⊢
    apply hround
    · apply (roundedOnce_addTo (by omega) hhalf hfits.neg).pos hw
      rw [toReal_neg]
      linarith
    · apply addTo_le (by omega) hhalf hfits.neg hhalf
      rw [toReal_neg]
      linarith

section Quadrants

variable {y x : Dyadic} (hy : 0 < y.toReal)

theorem atanTo_working_mem {q : Dyadic} (hq : q.Fits 128) (hpos : 0 < q.toReal) :
    (atanTo 128 q).Fits 128 ∧ 0 < (atanTo 128 q).toReal ∧
      (atanTo 128 q).toReal ≤ (piTo 128 >>> (1 : Int)).toReal := by
  have hmem := atanTo_mem (p := 128) (by norm_num) (hq.trans (by decide)) hpos
  rw [show 128 + guardDigits = 160 from rfl, roundTo_piTo_working] at hmem
  exact hmem

include hy

theorem atan2To_first_quadrant (hx : 0 < x.toReal) :
    0 < (atan2To precision y x).toReal ∧ (atan2To precision y x).toReal ≤ (piTo precision >>> (1 : Int)).toReal := by
  have hquot := nearest_divTo (p := 128) (by norm_num) y (toReal_ne_zero.mp hx.ne')
  obtain ⟨-, hlow, hhigh⟩ := atanTo_working_mem hquot.fits (hquot.pos (by norm_num) (div_pos hy hx))
  simp only [atan2To, if_neg (toReal_ne_zero.mp hx.ne'), if_pos ((toReal_pos x).mp hx)]
  rw [← roundTo_piTo_precision, ← roundTo_shiftRight precision_pos]
  exact ⟨(nearest_roundTo precision_pos _).pos precision_pos hlow, roundTo_mono precision_pos hhigh⟩

theorem atan2To_second_quadrant (hx : x.toReal < 0) :
    (piTo precision >>> (1 : Int)).toReal ≤ (atan2To precision y x).toReal ∧
      (atan2To precision y x).toReal ≤ (piTo precision).toReal := by
  have hquot := (nearest_divTo (p := 128) (by norm_num) y (toReal_ne_zero.mp hx.ne)).neg
  obtain ⟨hfits, hlow, hhigh⟩ := atanTo_working_mem hquot.fits
    (hquot.pos (by norm_num) (neg_pos.mpr (div_neg_of_pos_of_neg hy hx)))
  have hpi : (piTo 128).Fits 128 := Dyadic.fits_roundTo (by norm_num) piWide
  have hangle : atanTo 128 (y.divTo 128 x) = -atanTo 128 (-(y.divTo 128 x)) := by rw [atanTo_neg, Dyadic.neg_neg]
  generalize atanTo 128 (-(y.divTo 128 x)) = a at *
  rw [toReal_shiftRight, zpow_one] at hhigh
  have hsum_low := le_addTo (by norm_num) hfits.neg hpi (hpi.shiftRight 1) (by
    rw [toReal_neg, toReal_shiftRight, zpow_one]
    linarith)
  have hsum_high := addTo_le (by norm_num) hfits.neg hpi hpi (by
    rw [toReal_neg]
    linarith)
  have hx' := (toReal_lt_zero x).mp hx
  have hy' := (toReal_pos y).mp hy
  have hvalue : atan2To precision y x = ((-a).addTo 128 (piTo 128)).roundTo precision := by
    simp only [atan2To, if_neg (toReal_ne_zero.mp hx.ne), if_neg (by omega : ¬ 0 < x.mantissa),
      if_neg (by omega : ¬ y.mantissa < 0)]
    rw [← hangle]
    rfl
  rw [hvalue, ← roundTo_piTo_precision, ← roundTo_shiftRight precision_pos]
  exact ⟨roundTo_mono precision_pos hsum_low, roundTo_mono precision_pos hsum_high⟩

omit hy in
theorem atan2To_negative_axis (hx : x.toReal < 0) : atan2To precision 0 x = piTo precision := by
  have hpi : (piTo 128).Fits 128 := Dyadic.fits_roundTo (by norm_num) piWide
  have hsum : Dyadic.addTo 128 0 (piTo 128) = piTo 128 := by
    apply Dyadic.addTo_eq_of_exact (by norm_num) (Dyadic.fits_zero 128) hpi hpi
    rw [toReal_zero, zero_add]
  have hneg := (toReal_lt_zero x).mp hx
  have hangle : atanTo (precision + guardDigits) 0 = 0 := rfl
  have hmantissa : ¬ (0 : Dyadic).mantissa < 0 := by decide
  simp only [atan2To, if_neg (toReal_ne_zero.mp hx.ne), if_neg (by omega : ¬ 0 < x.mantissa), Dyadic.zero_divTo, hangle,
    if_neg hmantissa]
  exact (congrArg (Dyadic.roundTo precision) hsum).trans roundTo_piTo_precision

end Quadrants

end Phasor.BigFloat
