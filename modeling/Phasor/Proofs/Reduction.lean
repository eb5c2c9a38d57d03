import Phasor.Proofs.Estimate

/-!
The arguments that reach the series. A multiple of `log 2` or of half of pi is taken off, found from
the 64-bit estimate of the argument; what is left is small although the estimate, the quotient and
the constant are all rounded. The constants are evaluated here once, and every use of their digits
goes through their values.
-/

namespace Phasor.BigFloat

open Dyadic (scaled toReal_scaled toReal_ofInt toReal_shiftRight toReal_shiftLeft toReal_one toReal_neg toReal_le_iff
  toReal_abs two_zpow_top_le_toReal nearest_roundTo nearest_mulTo addTo_le le_addTo)

theorem piWide_eq :
    piWide = scaled 90942894222941581070058735694432465663348344332098107489693037779484723616547 (-254) := by
  decide +kernel

theorem logTwoWide_eq :
    logTwoWide = scaled 20065240046497827215558476051577517633497666902897486651530716876354989244041 (-254) := by
  decide +kernel

theorem abs_halfPi64_sub_le : |halfPi64.toReal - (piTo 128 >>> (1 : Int)).toReal| ≤ 62 / 10 ^ 18 := by
  have hround := (nearest_roundTo (p := 128) (by norm_num) piWide).abs_sub_le (by norm_num)
  rw [toReal_shiftRight, piTo]
  generalize (piWide.roundTo 128).toReal = a at *
  rw [piWide_eq, toReal_scaled, abs_le] at hround
  rw [halfPi64, toReal_scaled, abs_le]
  norm_num [abs_of_pos] at hround ⊢
  constructor <;> linarith

theorem abs_logTwo64_sub_le {w : Nat} (hw : 128 ≤ w) : |logTwo64.toReal - (logTwoTo w).toReal| ≤ 1 / 10 ^ 16 := by
  have hround := (nearest_roundTo (p := w) (by omega) logTwoWide).abs_sub_le (by omega)
  have hunit : (2 : ℝ) ^ (-(w : Int)) ≤ 2 ^ (-128 : Int) := zpow_le_zpow_right₀ (by norm_num) (by omega)
  have hclose := hround.trans (mul_le_mul_of_nonneg_right hunit (abs_nonneg _))
  rw [logTwoTo]
  generalize (logTwoWide.roundTo w).toReal = a at *
  rw [logTwoWide_eq, toReal_scaled, abs_le] at hclose
  rw [logTwo64, toReal_scaled, abs_le]
  norm_num [abs_of_pos] at hclose ⊢
  constructor <;> linarith

theorem toReal_angleBound : angleBound.toReal = 10 ^ 15 := by
  rw [angleBound, toReal_ofInt]
  norm_num

theorem toReal_expBound : expBound.toReal = 10 ^ 12 := by
  rw [expBound, toReal_ofInt]
  norm_num

section Estimate

variable {bound x v : Dyadic} (h : estimateWithin? bound x = some v)

include h

theorem estimate?_of_within : Binary64.estimate? x = some v ∧ |v.toReal| ≤ bound.toReal := by
  obtain ⟨hsome, hle⟩ := Option.filter_eq_some_iff.mp h
  refine ⟨hsome, ?_⟩
  rw [← toReal_abs, toReal_le_iff]
  exact of_decide_eq_true hle

theorem abs_sub_le_of_within {k : Int} (hk : 0 ≤ k) (hbound : bound.toReal < (1 - 2 ^ (-52 : Int)) * 2 ^ k) :
    |x.toReal - v.toReal| ≤ 2 ^ (k - 54) + 2 ^ (k - 63) := by
  obtain ⟨hsome, hle⟩ := estimate?_of_within h
  rw [abs_sub_comm]
  apply Binary64.abs_estimate?_sub_le_of_top_le (by omega) _ hsome
  by_contra hlt
  have hne : x ≠ 0 := by
    rintro rfl
    exact hlt hk
  have hclose := Binary64.abs_estimate?_sub_le_mul hne (by omega) hsome
  have htri := abs_sub_abs_le_abs_sub x.toReal v.toReal
  rw [abs_sub_comm] at htri
  have hsize := two_zpow_top_le_toReal hne
  have hpow : (2 : ℝ) ^ (k + 1) ≤ 2 ^ x.top := zpow_le_zpow_right₀ (by norm_num) (by omega)
  rw [zpow_add_one₀ (by norm_num)] at hpow
  have hfactor : (0 : ℝ) < 1 - 2 ^ (-52 : Int) := by norm_num
  have hmul := mul_le_mul_of_nonneg_left (show (2 : ℝ) ^ k ≤ |x.toReal| by linarith) hfactor.le
  linarith

end Estimate

theorem le_abs_of_cutOff {bound x : Dyadic} (hlow : 2 ≤ bound.toReal) (hhigh : bound.toReal ≤ 2 ^ (99 : Int))
    (h : estimateWithin? bound x = none) : (1 - 2 ^ (-52 : Int)) * bound.toReal ≤ |x.toReal| := by
  have hfactor : (1 - 2 ^ (-52 : Int)) * bound.toReal ≤ bound.toReal :=
    mul_le_of_le_one_left (by linarith) (by norm_num)
  rcases lt_or_ge 1000 x.top with hlarge | hsmall
  · have hne : x ≠ 0 := by
      rintro rfl
      exact absurd hlarge (by decide)
    have hsize := two_zpow_top_le_toReal hne
    have hpow : (2 : ℝ) ^ (99 + 1 : Int) ≤ 2 ^ x.top := zpow_le_zpow_right₀ (by norm_num) (by omega)
    rw [zpow_add_one₀ (by norm_num)] at hpow
    linarith
  · obtain ⟨v, hv⟩ := Binary64.exists_estimate? hsmall
    have hbeyond : bound.toReal < |v.toReal| := by
      rw [estimateWithin?, hv, Option.filter_some] at h
      by_contra hle
      rw [not_lt, ← toReal_abs, toReal_le_iff] at hle
      rw [if_pos (decide_eq_true hle)] at h
      exact Option.some_ne_none v h
    have htri := abs_sub_abs_le_abs_sub v.toReal x.toReal
    rcases le_or_gt x.top 0 with htop | htop
    · have hclose := Binary64.abs_estimate?_sub_le_of_top_le (by norm_num) htop hv
      have hsize := x.abs_toReal_lt.trans_le (zpow_le_zpow_right₀ (by norm_num : (1 : ℝ) ≤ 2) htop)
      norm_num at hclose hsize
      linarith
    · have hne : x ≠ 0 := by
        rintro rfl
        exact absurd htop (by decide)
      have hclose := Binary64.abs_estimate?_sub_le_mul hne (by omega) hv
      norm_num at hclose ⊢
      linarith

theorem abs_sub_mul_le {v b : ℝ} (hb : b ≠ 0) (x c : ℝ) (k : Int) :
    |x - k * c| ≤ |x - v| + |b| * |k - v / b| + |(k : ℝ)| * |b - c| := by
  have hsplit : x - k * c = (x - v) + -(b * (k - v / b)) + k * (b - c) := by
    field_simp
    ring
  rw [hsplit, ← abs_mul, ← abs_mul, ← abs_neg (b * (k - v / b))]
  exact (abs_add_le _ _).trans (by gcongr; exact abs_add_le _ _)

theorem abs_subTo_le_one {w : Nat} (hw : 0 < w) {x y : Dyadic} (hx : x.Fits w) (hy : y.Fits w)
    (h : |x.toReal - y.toReal| ≤ 1) : |(x.subTo w y).toReal| ≤ 1 := by
  have hone : (1 : Dyadic).Fits w := Dyadic.fits_one hw
  rw [abs_le] at h ⊢
  have hlow := le_addTo hw hx hy.neg hone.neg (by rw [toReal_neg, toReal_neg, toReal_one]; linarith)
  have hhigh := addTo_le hw hx hy.neg hone (by rw [toReal_neg, toReal_one]; linarith)
  rw [toReal_neg, toReal_one] at hlow
  rw [toReal_one] at hhigh
  exact ⟨hlow, hhigh⟩

section Multiple

variable {w : Nat} (hw : 128 ≤ w) {x v b c : Dyadic}

include hw

theorem abs_mulTo_ofInt_sub_le (hc : |c.toReal| ≤ 3) {k : Int} (hk : |(k : ℝ)| ≤ 10 ^ 15 + 1) :
    |k * c.toReal - (c.mulTo w (.ofInt k)).toReal| ≤ 1 / 1000 := by
  have hround := (nearest_mulTo (p := w) (by omega) c (.ofInt k)).abs_sub_le (by omega)
  have hunit : (2 : ℝ) ^ (-(w : Int)) ≤ 2 ^ (-128 : Int) := zpow_le_zpow_right₀ (by norm_num) (by omega)
  rw [toReal_ofInt, abs_mul] at hround
  rw [abs_sub_comm, mul_comm]
  calc |(c.mulTo w (.ofInt k)).toReal - c.toReal * k| ≤ 2 ^ (-(w : Int)) * (|c.toReal| * |(k : ℝ)|) := hround
    _ ≤ 2 ^ (-128 : Int) * (3 * (10 ^ 15 + 1)) := by gcongr
    _ ≤ 1 / 1000 := by norm_num

variable (hx : x.Fits w) {m : ℝ} (hm : |v.toReal| ≤ m * b.toReal) (hb : 0 < b.toReal)

include hx hm hb

theorem abs_subTo_mulTo_le_one (hmax : m ≤ 10 ^ 15) {δ ε : ℝ} (hδ : |x.toReal - v.toReal| ≤ δ)
    (hε : |b.toReal - c.toReal| ≤ ε) (hsum : δ + b.toReal * (9 / 16 + 2 ^ (-16 : Int)) + (m + 1) * ε ≤ 99 / 100) :
    |(x.subTo w (c.mulTo w (.ofInt (Binary64.roundedQuotient v b)))).toReal| ≤ 1 := by
  have hquotient : |v.toReal / b.toReal| ≤ m := by
    rw [abs_div, abs_of_pos hb, div_le_iff₀ hb]
    exact hm
  have hm' : 0 ≤ m := (abs_nonneg _).trans hquotient
  have hk := Binary64.abs_roundedQuotient_sub_le (x := v) (y := b) (Dyadic.toReal_ne_zero.mp hb.ne')
    (hquotient.trans (hmax.trans (by norm_num)))
  have hcount : |(Binary64.roundedQuotient v b : ℝ)| ≤ m + 1 := by
    have htri := abs_sub_abs_le_abs_sub (Binary64.roundedQuotient v b : ℝ) (v.toReal / b.toReal)
    norm_num at hk
    linarith
  have hc : |c.toReal| ≤ 3 := by
    have hone : ε ≤ (m + 1) * ε := le_mul_of_one_le_left ((abs_nonneg _).trans hε) (by linarith)
    have hδ' := (abs_nonneg _).trans hδ
    norm_num at hsum
    rw [abs_le] at hε ⊢
    constructor <;> linarith
  have hmultiple := abs_mulTo_ofInt_sub_le hw hc (hcount.trans (by linarith))
  have hleft := abs_sub_mul_le (v := v.toReal) hb.ne' x.toReal c.toReal (Binary64.roundedQuotient v b)
  have hparts : |b.toReal| * |Binary64.roundedQuotient v b - v.toReal / b.toReal| +
      |(Binary64.roundedQuotient v b : ℝ)| * |b.toReal - c.toReal| ≤
      b.toReal * (9 / 16 + 2 ^ (-16 : Int)) + (m + 1) * ε := by
    rw [abs_of_pos hb]
    gcongr
  have hfits : (c.mulTo w (.ofInt (Binary64.roundedQuotient v b))).Fits w := Dyadic.fits_roundTo (by omega) _
  apply abs_subTo_le_one (by omega) hx hfits
  refine (abs_sub_le _ (Binary64.roundedQuotient v b * c.toReal) _).trans ?_
  linarith

end Multiple

theorem abs_quadrantReduced_le {x v : Dyadic} (hx : x.Fits 96) (h : estimateWithin? angleBound x = some v) :
    |(quadrantReduced 128 x (quadrant v)).toReal| ≤ 1 := by
  have hbound := toReal_angleBound
  have hpi : halfPi64.toReal = 7074237752028440 * 2 ^ (-52 : Int) := by
    rw [halfPi64, toReal_scaled]
    norm_num
  have hclose := abs_halfPi64_sub_le
  have hestimate := abs_sub_le_of_within h (k := 50) (by norm_num) (by rw [hbound]; norm_num)
  have hv := (estimate?_of_within h).2
  rw [hbound] at hv
  apply abs_subTo_mulTo_le_one (m := 636620 * 10 ^ 9) le_rfl (hx.trans (by norm_num)) _ _ (by norm_num) hestimate hclose
  · rw [hpi]
    norm_num
  · rw [hpi]
    norm_num at hv ⊢
    linarith
  · rw [hpi]
    norm_num

theorem abs_expReduced_le {w : Nat} (hw : 128 ≤ w) {x v : Dyadic} (hx : x.Fits w)
    (h : estimateWithin? expBound x = some v) : |(expReduced w x (expShift v)).toReal| ≤ 1 / 1024 := by
  have hbound := toReal_expBound
  have hlog : logTwo64.toReal = 6243314768165359 * 2 ^ (-53 : Int) := by
    rw [logTwo64, toReal_scaled]
    norm_num
  have hclose := abs_logTwo64_sub_le hw
  have hestimate := abs_sub_le_of_within h (k := 40) (by norm_num) (by rw [hbound]; norm_num)
  have hv := (estimate?_of_within h).2
  rw [hbound] at hv
  have hone : |(x.subTo w ((logTwoTo w).mulTo w (.ofInt (expShift v)))).toReal| ≤ 1 := by
    apply abs_subTo_mulTo_le_one (m := 15 * 10 ^ 11) hw hx _ _ (by norm_num) hestimate hclose
    · rw [hlog]
      norm_num
    · rw [hlog]
      norm_num at hv ⊢
      linarith
    · rw [hlog]
      norm_num
  rw [expReduced, toReal_shiftLeft, abs_mul]
  norm_num
  linarith

end Phasor.BigFloat
