import Mathlib.Analysis.SpecialFunctions.Log.Deriv
import Mathlib.Analysis.Complex.ExponentialBounds
import Phasor.BigFloat.Elementary
import Phasor.Proofs.SeriesError

/-!
The error of the natural logarithm. A number is split into a power of two and a rest between a half
and one, and each part has a small relative error. For a number between one and two the parts have
opposite signs and cancel, and there only an absolute error is left.
-/

namespace Dyadic

theorem toReal_one : (1 : Dyadic).toReal = 1 := by
  rw [show (1 : Dyadic) = scaled 1 0 by decide, toReal_scaled]
  norm_num

theorem toReal_natCast (n : Nat) : (n : Dyadic).toReal = n := by
  simp [toReal]

theorem toReal_ofInt (n : Int) : (Dyadic.ofInt n).toReal = n := by
  show (n : Dyadic).toReal = n
  simp [toReal]

theorem toReal_shiftLeft (x : Dyadic) (k : Int) : (x <<< k).toReal = 2 ^ k * x.toReal := by
  cases x with
  | zero =>
    show toReal 0 = 2 ^ k * toReal 0
    simp [toReal_zero]
  | ofOdd n e hn =>
    rw [toReal_eq, toReal_eq]
    show (n : ℝ) * 2 ^ (-(e - k)) = 2 ^ k * (n * 2 ^ (-e))
    rw [show -(e - k) = k + -e by ring, zpow_add₀ (by norm_num)]
    ring

theorem top_le_iff {x : Dyadic} (h : 0 < x.toReal) (k : Int) : x.top ≤ k ↔ x.toReal < 2 ^ k := by
  constructor
  · intro hle
    exact (toReal_lt_two_zpow_top h).trans_le (zpow_le_zpow_right₀ (by norm_num) hle)
  · intro hlt
    have hpow := (two_zpow_pred_top_le_toReal h).trans_lt hlt
    have hpred := (zpow_lt_zpow_iff_right₀ (by norm_num : (1 : ℝ) < 2)).mp hpow
    omega

end Dyadic

namespace Phasor

open Dyadic (scaled toReal_eq toReal_inj toReal_scaled toReal_zero toReal_one toReal_natCast toReal_ofInt
  toReal_shiftLeft toReal_ne_zero top_le_iff two_zpow_pred_top_le_toReal toReal_lt_two_zpow_top exists_eq_mul_zpow
  fits_scaled fits_zero fits_roundTo fits_divTo addTo_eq_of_exact)

theorem RoundedOnce.roundings {w : Nat} {a r : ℝ} (h : RoundedOnce w a r) : Roundings w 1 a r :=
  (Roundings.refl w 0 r).round h (Nat.zero_le _)

namespace Series

theorem hasSum_logTwo : HasSum (fun n : Nat => 1 / (n * 2 ^ n : ℝ)) (Real.log 2) := by
  have hsum := Real.hasSum_pow_div_log_of_abs_lt_one (x := 1 / 2) (by norm_num [abs_of_pos])
  have hlog : -Real.log (1 - 1 / 2) = Real.log 2 := by
    rw [← Real.log_inv]
    norm_num
  have hterm : (fun n : Nat => (1 / 2 : ℝ) ^ (n + 1) / (n + 1)) = fun n => 1 / ((n + 1 : Nat) * 2 ^ (n + 1) : ℝ) := by
    funext n
    rw [one_div_pow, div_div, Nat.cast_succ, mul_comm]
  rw [hlog, hterm] at hsum
  simpa using (hasSum_nat_add_iff (f := fun n : Nat => 1 / (n * 2 ^ n : ℝ)) 1).mp hsum

theorem halving_logTwo : Halving 256 262 (fun n : Nat => 1 / (n * 2 ^ n : ℝ)) where
  nonneg n := by positivity
  half n hn := by
    have hpos : (0 : ℝ) < n := by exact_mod_cast hn
    rw [div_div]
    apply one_div_le_one_div_of_le (by positivity)
    push_cast
    rw [pow_succ]
    have hpow : (0 : ℝ) < 2 ^ n := by positivity
    linarith
  small n hn := by
    have hfirst : (1 / 2 : ℝ) ≤ ∑ i ∈ Finset.range n, 1 / (i * 2 ^ i : ℝ) := by
      have hle := Finset.single_le_sum (f := fun i : Nat => 1 / (i * 2 ^ i : ℝ)) (fun i _ => by positivity)
        (Finset.mem_range.mpr (by omega : 1 < n))
      simpa using hle
    have hone : (1 : ℝ) ≤ n := by exact_mod_cast (by omega : 1 ≤ n)
    calc 1 / (n * 2 ^ n : ℝ) * 2 ^ (256 + 5) ≤ 1 / (1 * 2 ^ (256 + 5 + 1)) * 2 ^ (256 + 5) := by
          gcongr
          norm_num
      _ = 1 / 2 := by
          rw [pow_succ, one_mul]
          field_simp
      _ ≤ ∑ i ∈ Finset.range n, 1 / (i * 2 ^ i : ℝ) := hfirst

theorem logTwo_term {n : Nat} (hn : 1 ≤ n) :
    (Dyadic.divTo 256 1 (scaled n n)).Fits 256 ∧
      Roundings 256 (2 * n + 1) (Dyadic.divTo 256 1 (scaled n n)).toReal (1 * (1 / (n * 2 ^ n : ℝ))) := by
  have hne : scaled n n ≠ 0 := by
    rw [← toReal_ne_zero, toReal_scaled]
    have : (n : ℝ) ≠ 0 := by exact_mod_cast (by omega : n ≠ 0)
    push_cast
    positivity
  refine ⟨fits_divTo (by norm_num) _ _, ?_⟩
  have hround := (roundedOnce_divTo (w := 256) (by norm_num) 1 hne).roundings
  rw [toReal_scaled, toReal_one, Int.cast_natCast, zpow_natCast, ← one_mul (1 / _)] at hround
  exact hround.mono (by omega)

theorem summed_logTwo : Summed 256 262 1 (fun n : Nat => 1 / (n * 2 ^ n : ℝ)) (fun _ _ => True) 1 0 0 :=
  ⟨le_rfl, by norm_num, trivial, fits_zero 256, by simpa [toReal_zero] using Roundings.refl 256 2 0⟩

theorem logTwo_roundings : Roundings 256 526 (logTwo 256).value.toReal (Real.log 2) := by
  rw [← one_mul (Real.log 2)]
  exact (sumFrom_roundings (by norm_num) halving_logTwo (fun n _ hn _ _ => ⟨trivial, logTwo_term hn⟩) hasSum_logTwo
    (by decide) summed_logTwo).2

section Artanh

variable {z : Dyadic} (hsmall : z.toReal ^ 2 ≤ 1 / 8)

include hsmall

theorem hasSum_artanh (hz : z ≠ 0) : HasSum (fun n : Nat => (z.toReal ^ 2) ^ n / (2 * n + 1 : ℝ))
    ((Real.log (1 + z.toReal) - Real.log (1 - z.toReal)) / (2 * z.toReal)) := by
  have hne := toReal_ne_zero.mpr hz
  have habs : |z.toReal| < 1 := by
    rw [← sq_lt_one_iff_abs_lt_one]
    linarith
  refine ((Real.hasSum_log_sub_log_of_abs_lt_one habs).div_const (2 * z.toReal)).congr_fun ?_
  intro n
  rw [pow_succ z.toReal (2 * n), pow_mul]
  field_simp

theorem halving_artanh : Halving 128 45 (fun n : Nat => (z.toReal ^ 2) ^ n / (2 * n + 1 : ℝ)) where
  nonneg n := by positivity
  half n hn := by
    calc (z.toReal ^ 2) ^ (n + 1) / (2 * (n + 1 : Nat) + 1 : ℝ)
        = (z.toReal ^ 2) ^ n * z.toReal ^ 2 / (2 * (n + 1 : Nat) + 1 : ℝ) := by rw [pow_succ]
      _ ≤ (z.toReal ^ 2) ^ n * (1 / 2) / (2 * n + 1 : ℝ) := by
          gcongr
          · linarith
          · omega
      _ = (z.toReal ^ 2) ^ n / (2 * n + 1 : ℝ) / 2 := by ring
  small n hn := by
    have hfirst : (1 : ℝ) ≤ ∑ i ∈ Finset.range n, (z.toReal ^ 2) ^ i / (2 * i + 1 : ℝ) := by
      have hle := Finset.single_le_sum (f := fun i : Nat => (z.toReal ^ 2) ^ i / (2 * i + 1 : ℝ))
        (fun i _ => by positivity) (Finset.mem_range.mpr (by omega : 0 < n))
      simpa using hle
    have hpow : (z.toReal ^ 2) ^ n ≤ (1 / 8) ^ 45 :=
      calc (z.toReal ^ 2) ^ n ≤ (1 / 8) ^ n := by gcongr
        _ ≤ (1 / 8) ^ 45 := pow_le_pow_of_le_one (by norm_num) (by norm_num) hn
    have hindex : (1 : ℝ) ≤ 2 * n + 1 := by
      have : (0 : ℝ) ≤ n := by positivity
      linarith
    calc (z.toReal ^ 2) ^ n / (2 * n + 1 : ℝ) * 2 ^ (128 + 5) ≤ (1 / 8) ^ 45 / 1 * 2 ^ (128 + 5) := by gcongr
      _ ≤ 1 := by norm_num
      _ ≤ ∑ i ∈ Finset.range n, (z.toReal ^ 2) ^ i / (2 * i + 1 : ℝ) := hfirst

omit hsmall in
theorem artanh_power {n : Nat} (hn : 1 ≤ n) (hbound : n ≤ 45) {power : Dyadic}
    (h : Roundings 128 (2 * (n - 1)) power.toReal (z.toReal * (z.toReal ^ 2) ^ (n - 1))) :
    Roundings 128 (2 * n) (power.mulTo 128 (z.mulTo 128 z)).toReal (z.toReal * (z.toReal ^ 2) ^ n) := by
  have hsquare := roundedOnce_mulTo (w := 128) (by norm_num) z z
  have hprod := roundedOnce_mulTo (w := 128) (by norm_num) power (z.mulTo 128 z)
  have hnext := (h.mul_rounded hsquare (by omega)).round hprod (by omega)
  obtain ⟨k, rfl⟩ := Nat.exists_eq_add_of_le' hn
  have hvalue : z.toReal * (z.toReal ^ 2) ^ k * (z.toReal * z.toReal) = z.toReal * (z.toReal ^ 2) ^ (k + 1) := by ring
  rwa [Nat.add_sub_cancel, hvalue] at hnext

omit hsmall in
theorem artanh_term {n : Nat} (hbound : n ≤ 45) {power : Dyadic}
    (h : Roundings 128 (2 * n) power.toReal (z.toReal * (z.toReal ^ 2) ^ n)) :
    Roundings 128 (2 * n + 1) (power.divTo 128 (2 * n + 1 : Nat)).toReal
      (z.toReal * ((z.toReal ^ 2) ^ n / (2 * n + 1 : ℝ))) := by
  have hodd : ((2 * n + 1 : Nat) : Dyadic) ≠ 0 := by
    rw [← toReal_ne_zero, toReal_natCast]
    positivity
  have hquotient := roundedOnce_divTo (w := 128) (by norm_num) power hodd
  have hscaled := h.mul_left (2 * n + 1 : ℝ)⁻¹
  rw [toReal_natCast] at hquotient
  push_cast at hquotient
  rw [inv_mul_eq_div, inv_mul_eq_div, mul_div_assoc z.toReal] at hscaled
  exact hscaled.round hquotient (by omega)

def ArtanhPower (z : Dyadic) (n : Nat) (power : Dyadic) : Prop :=
  Roundings 128 (2 * (n - 1)) power.toReal (z.toReal * (z.toReal ^ 2) ^ (n - 1))

omit hsmall in
theorem artanh_step :
    let s := oddQuotients 128 (z.mulTo 128 z)
    ∀ n power, 1 ≤ n → n ≤ 45 → ArtanhPower z n power →
      ArtanhPower z (n + 1) (s.step n power) ∧ (s.term n (s.step n power)).Fits 128 ∧
        Roundings 128 (2 * n + 1) (s.term n (s.step n power)).toReal
          (z.toReal * ((z.toReal ^ 2) ^ n / (2 * n + 1 : ℝ))) := by
  intro s n power hn hbound hpower
  have hnext := artanh_power hn hbound hpower
  simp only [s, ArtanhPower, Nat.add_sub_cancel, oddQuotients_step, oddQuotients_term]
  exact ⟨hnext, fits_divTo (by norm_num) _ _, artanh_term hbound hnext⟩

omit hsmall in
theorem summed_artanh (hfits : z.Fits 128) :
    Summed 128 45 z.toReal (fun n : Nat => (z.toReal ^ 2) ^ n / (2 * n + 1 : ℝ)) (ArtanhPower z) 1 z z where
  one_le := le_rfl
  le_bound := by norm_num
  power := by simpa [ArtanhPower] using Roundings.refl 128 0 z.toReal
  fits := hfits
  near := by simpa using Roundings.refl 128 2 z.toReal

theorem artanh_roundings (hz : z ≠ 0) (hfits : z.Fits 128) :
    (artanh 128 z).value.Fits 128 ∧ Roundings 128 92 (artanh 128 z).value.toReal
      ((Real.log (1 + z.toReal) - Real.log (1 - z.toReal)) / 2) := by
  have hne := toReal_ne_zero.mpr hz
  have htotal : (Real.log (1 + z.toReal) - Real.log (1 - z.toReal)) / 2 =
      z.toReal * ((Real.log (1 + z.toReal) - Real.log (1 - z.toReal)) / (2 * z.toReal)) := by
    field_simp
  rw [htotal]
  exact sumFrom_roundings (by norm_num) (halving_artanh hsmall) artanh_step (hasSum_artanh hsmall hz) (by decide)
    (summed_artanh hfits)

end Artanh

end Series

section Real

theorem abs_log_sub_log_le {a b c : ℝ} (hc : 0 < c) (ha : c ≤ a) (hb : c ≤ b) :
    |Real.log a - Real.log b| ≤ |a - b| / c := by
  have hle {a b : ℝ} (ha : c ≤ a) (hb : c ≤ b) : Real.log a - Real.log b ≤ |a - b| / c := by
    have hb0 : 0 < b := hc.trans_le hb
    calc Real.log a - Real.log b = Real.log (a / b) := (Real.log_div (hc.trans_le ha).ne' hb0.ne').symm
      _ ≤ a / b - 1 := Real.log_le_sub_one_of_pos (div_pos (hc.trans_le ha) hb0)
      _ = (a - b) / b := by rw [sub_div, div_self hb0.ne']
      _ ≤ |a - b| / c := div_le_div₀ (abs_nonneg _) (le_abs_self _) hc hb
  rw [abs_le]
  have hba := hle hb ha
  rw [abs_sub_comm] at hba
  exact ⟨by linarith, hle ha hb⟩

theorem log_mem_of_le_two {x : ℝ} (hone : 1 ≤ x) (htwo : x ≤ 2) :
    (x - 1) / x + (x - 1) ^ 2 / 6 ≤ Real.log x ∧ Real.log x + (x - 1) ^ 2 / 6 ≤ x - 1 := by
  obtain ⟨t, ht, rfl⟩ : ∃ t, 0 ≤ t ∧ x = 1 + t := ⟨x - 1, by linarith, by ring⟩
  have hle : t ≤ 1 := by linarith
  rw [add_sub_cancel_left]
  constructor
  · calc t / (1 + t) + t ^ 2 / 6 ≤ t / (1 + t) + t ^ 2 / ((t + 2) * (1 + t)) := by
          gcongr
          nlinarith
      _ = 2 * t / (t + 2) := by
          field_simp
          ring
      _ ≤ Real.log (1 + t) := Real.le_log_one_add_of_nonneg ht
  · -- half of the way is left out of the first factor, and taken in the second
    have hfactor : Real.log (1 + t) = Real.log ((1 + t) / (1 + t / 2)) + Real.log (1 + t / 2) := by
      rw [Real.log_div (by positivity) (by positivity)]
      ring
    have hfirst := Real.log_le_sub_one_of_pos (x := (1 + t) / (1 + t / 2)) (by positivity)
    have hsecond := Real.log_le_sub_one_of_pos (x := 1 + t / 2) (by positivity)
    have hquotient : (1 + t) / (1 + t / 2) - 1 = t / 2 - t ^ 2 / (4 + 2 * t) := by
      field_simp
      ring
    have hsquare : t ^ 2 / 6 ≤ t ^ 2 / (4 + 2 * t) := by
      gcongr
      linarith
    linarith

variable {m : ℝ} (hlow : 1 / 2 ≤ m) (hhigh : m < 1)

include hlow hhigh

theorem quotient_mem : -(1 / 3) ≤ (m - 1) / (m + 1) ∧ (m - 1) / (m + 1) < 0 := by
  have hpos : 0 < m + 1 := by linarith
  rw [le_div_iff₀ hpos, div_lt_iff₀ hpos]
  constructor <;> linarith

theorem two_mul_abs_quotient_le : 2 * |(m - 1) / (m + 1)| ≤ |Real.log m| := by
  have hpos : 0 < m := by linarith
  have hinv : 0 ≤ m⁻¹ - 1 := sub_nonneg.mpr ((one_le_inv₀ hpos).mpr hhigh.le)
  have hbound := Real.le_log_one_add_of_nonneg hinv
  have hvalue : 2 * (m⁻¹ - 1) / (m⁻¹ - 1 + 2) = -(2 * ((m - 1) / (m + 1))) := by
    have hne : m + 1 ≠ 0 := by linarith
    have hden : m⁻¹ - 1 + 2 = (m + 1) / m := by
      field_simp
      ring
    rw [hden]
    field_simp
    ring
  rw [add_sub_cancel, Real.log_inv, hvalue] at hbound
  rw [abs_of_neg (quotient_mem hlow hhigh).2, abs_of_neg (Real.log_neg hpos hhigh)]
  linarith

theorem log_one_add_sub_log_one_sub :
    Real.log (1 + (m - 1) / (m + 1)) - Real.log (1 - (m - 1) / (m + 1)) = Real.log m := by
  have hmem := quotient_mem hlow hhigh
  have hne : m + 1 ≠ 0 := by linarith
  rw [← Real.log_div (by linarith) (by linarith)]
  congr 1
  field_simp
  ring

theorem roundings_log_of_quotient {z : ℝ} (h : RoundedOnce 128 z ((m - 1) / (m + 1))) :
    z ≠ 0 ∧ z ^ 2 ≤ 1 / 8 ∧ Roundings 128 1 (Real.log (1 + z) - Real.log (1 - z)) (Real.log m) := by
  have hmem := quotient_mem hlow hhigh
  have hlog := two_mul_abs_quotient_le hlow hhigh
  rw [← log_one_add_sub_log_one_sub hlow hhigh] at hlog ⊢
  generalize (m - 1) / (m + 1) = y at *
  unfold RoundedOnce at h
  have hdist : |z - y| ≤ 1 / 100 * |y| := by
    refine h.trans ?_
    gcongr
    norm_num
  have hclose := hdist
  rw [abs_of_neg hmem.2, abs_le] at hclose
  refine ⟨by linarith, by nlinarith, ?_⟩
  have hplus := abs_log_sub_log_le (a := 1 + z) (b := 1 + y) (c := 5 / 8) (by norm_num) (by linarith) (by linarith)
  have hminus := abs_log_sub_log_le (a := 1 - z) (b := 1 - y) (c := 1) (by norm_num) (by linarith) (by linarith)
  rw [add_sub_add_left_eq_sub] at hplus
  rw [sub_sub_sub_cancel_left, abs_sub_comm y, div_one] at hminus
  unfold Roundings
  generalize Real.log (1 + y) = b at *
  generalize Real.log (1 - y) = d at *
  generalize Real.log (1 + z) = a at *
  generalize Real.log (1 - z) = c at *
  calc |a - c - (b - d)| = |(a - b) - (c - d)| := by congr 1; ring
    _ ≤ |a - b| + |c - d| := abs_sub _ _
    _ ≤ |z - y| / (5 / 8) + |z - y| := add_le_add hplus hminus
    _ = 13 / 5 * |z - y| := by ring
    _ ≤ 13 / 5 * (2 ^ (-(128 : Nat) : Int) * (1 + 2 ^ (-60 : Int)) * |y|) := by gcongr
    _ ≤ (1 : Nat) * 2 ^ (1 - (128 : Nat) : Int) * (2 * |y|) := by
        have := abs_nonneg y
        norm_num
        linarith
    _ ≤ (1 : Nat) * 2 ^ (1 - (128 : Nat) : Int) * |b - d| := by gcongr

end Real

namespace BigFloat

theorem logTwoTo_roundings : Roundings 128 1 (logTwoTo 128).toReal (Real.log 2) := by
  have hwide : Roundings 256 526 logTwoWide.toReal (Real.log 2) := by
    rw [logTwoWide, constantPrecision]
    exact Series.logTwo_roundings
  have hround : RoundedOnce 128 (logTwoTo 128).toReal logTwoWide.toReal := by
    rw [logTwoTo]
    exact roundedOnce_roundTo (by norm_num) _
  have hsize := hwide.abs_le
  unfold Roundings RoundedOnce at *
  generalize logTwoWide.toReal = a at *
  generalize (logTwoTo 128).toReal = l at *
  have htri := abs_sub_le l a (Real.log 2)
  have hpos := abs_nonneg (Real.log 2)
  norm_num at hwide hround hsize ⊢
  linarith

theorem addTo_one_exact {m y : Dyadic} (hm : m.Fits 96) (hlow : 1 / 2 ≤ m.toReal) (hhigh : m.toReal < 1) {k : Int}
    (hk : k.natAbs ≤ 1) (hy : y = scaled k 0) : (m.addTo 128 y).toReal = m.toReal + k := by
  obtain ⟨j, hj⟩ := exists_eq_mul_zpow (k := 0) hm (by rw [abs_of_pos (by linarith)]; norm_num; linarith)
  have hbounds : 0 ≤ j ∧ j ≤ 2 ^ 96 := by
    have hpow : (2 : ℝ) ^ (0 - (96 : Nat) : Int) * 2 ^ 96 = 1 := by norm_num
    have hval : m.toReal * 2 ^ 96 = j := by rw [hj, mul_assoc, hpow, mul_one]
    constructor
    · have : (0 : ℝ) ≤ j := by rw [← hval]; positivity
      exact_mod_cast this
    · have : (j : ℝ) ≤ 2 ^ 96 := by rw [← hval]; nlinarith
      exact_mod_cast this
  have hsum : (scaled (j + k * 2 ^ 96) (-96)).toReal = m.toReal + y.toReal := by
    rw [hy, toReal_scaled, toReal_scaled, hj]
    push_cast
    norm_num
    ring
  have hwide : m.Fits 128 := le_trans hm (by norm_num)
  have hyfits : y.Fits 128 := hy ▸ fits_scaled (by norm_num) (by omega) _
  rw [addTo_eq_of_exact (by norm_num) hwide hyfits (fits_scaled (by norm_num) (by omega) _) hsum, hsum, hy,
    toReal_scaled, zpow_zero, mul_one]

section Logarithm

variable {x : Dyadic} (hx : x.Fits 96) (hpos : 0 < x.toReal)

include hpos

theorem rest_mem : 1 / 2 ≤ (x <<< (-x.top)).toReal ∧ (x <<< (-x.top)).toReal < 1 := by
  have hlow := two_zpow_pred_top_le_toReal hpos
  have hhigh := toReal_lt_two_zpow_top hpos
  have hunit : (0 : ℝ) < 2 ^ x.top := by positivity
  rw [Dyadic.zpow_pred] at hlow
  rw [toReal_shiftLeft, zpow_neg, inv_mul_eq_div, le_div_iff₀ hunit, div_lt_iff₀ hunit]
  constructor <;> linarith

theorem log_rest : Real.log (x <<< (-x.top)).toReal = Real.log x.toReal - x.top * Real.log 2 := by
  rw [toReal_shiftLeft, Real.log_mul (by positivity) hpos.ne', Real.log_zpow]
  push_cast
  ring

theorem log_rest_mem : -Real.log 2 ≤ Real.log x.toReal - x.top * Real.log 2 ∧
    Real.log x.toReal - x.top * Real.log 2 ≤ 0 := by
  obtain ⟨hlow, hhigh⟩ := rest_mem hpos
  rw [← log_rest hpos, ← Real.log_inv, ← one_div]
  exact ⟨Real.log_le_log (by norm_num) hlow, Real.log_nonpos (by linarith) hhigh.le⟩

include hx

theorem roundedOnce_quotient_rest :
    let m := x <<< (-x.top)
    RoundedOnce 128 ((m.subTo 128 1).divTo 128 (m.addTo 128 1)).toReal ((m.toReal - 1) / (m.toReal + 1)) := by
  -- Numerator and denominator of the argument of the series are exact.
  intro m
  obtain ⟨hlow, hhigh⟩ := rest_mem hpos
  have hm : m.Fits 96 := hx.shiftLeft _
  have hminus : (m.subTo 128 1).toReal = m.toReal - 1 := by
    have := addTo_one_exact hm hlow hhigh (k := -1) (by decide) (y := -1) (by decide)
    rw [Dyadic.subTo, this]
    push_cast
    ring
  have hplus : (m.addTo 128 1).toReal = m.toReal + 1 := by
    have := addTo_one_exact hm hlow hhigh (k := 1) (by decide) (y := 1) (by decide)
    rw [this, Int.cast_one]
  have hne : m.addTo 128 1 ≠ 0 := by
    rw [← toReal_ne_zero, hplus]
    linarith
  rw [← hminus, ← hplus]
  exact roundedOnce_divTo (by norm_num) (m.subTo 128 1) hne

theorem artanh_rest :
    let m := x <<< (-x.top)
    let sum := (Series.artanh 128 ((m.subTo 128 1).divTo 128 (m.addTo 128 1))).value
    sum.Fits 128 ∧ Roundings 128 94 (2 * sum.toReal) (Real.log x.toReal - x.top * Real.log 2) := by
  intro m sum
  obtain ⟨hlow, hhigh⟩ := rest_mem hpos
  obtain ⟨hz, hsq, hlog⟩ := roundings_log_of_quotient hlow hhigh (roundedOnce_quotient_rest hx hpos)
  obtain ⟨hfits, hsum⟩ := Series.artanh_roundings hsq (toReal_ne_zero.mp hz) (fits_divTo (by norm_num) _ _)
  refine ⟨hfits, ?_⟩
  rw [← log_rest hpos]
  have hdouble := hsum.mul_left 2
  rw [mul_div_cancel₀ _ two_ne_zero] at hdouble
  exact hdouble.trans hlog (by norm_num)

omit hpos hx in
theorem abs_sub_le_of_rounded_twice {l v s : ℝ} (hv : RoundedOnce 128 v s) (hl : RoundedOnce 96 l v) :
    |l - s| ≤ 2 ^ (-96 : Int) * (1 + 2 ^ (-30 : Int)) * |s| := by
  have htri := abs_sub_le l v s
  have hsize := abs_sub_abs_le_abs_sub v s
  have hnonneg := abs_nonneg s
  unfold RoundedOnce at *
  norm_num at hv hl ⊢
  linarith

omit hpos hx in
theorem abs_sub_le_of_parts {l a b p r : ℝ} (hl : |l - (a + b)| ≤ 2 ^ (-96 : Int) * (1 + 2 ^ (-30 : Int)) * |a + b|)
    (ha : Roundings 128 2 a p) (hb : Roundings 128 94 b r) :
    |l - (p + r)| ≤ 2 ^ (-96 : Int) * (1 + 2 ^ (-30 : Int)) * |p + r| +
      (1 + 2 ^ (-95 : Int)) * 2 ^ (-127 : Int) * (2 * |p| + 94 * |r|) := by
  have hdist : |a + b - (p + r)| ≤ 2 ^ (-127 : Int) * (2 * |p| + 94 * |r|) := by
    unfold Roundings at *
    calc |a + b - (p + r)| = |(a - p) + (b - r)| := by congr 1; ring
      _ ≤ |a - p| + |b - r| := abs_add_le _ _
      _ ≤ 2 ^ (-127 : Int) * (2 * |p| + 94 * |r|) := by
          norm_num at ha hb ⊢
          linarith
  have htri := abs_sub_le l (a + b) (p + r)
  have hsize := abs_sub_abs_le_abs_sub (a + b) (p + r)
  have hnonneg : 0 ≤ 2 * |p| + 94 * |r| := by positivity
  norm_num at hl hdist ⊢
  linarith

theorem log_eq_num (hone : x ≠ 1) : ∃ l : Dyadic, log (num x) = num l ∧
    |l.toReal - Real.log x.toReal| ≤ 2 ^ (-96 : Int) * (1 + 2 ^ (-30 : Int)) * |Real.log x.toReal| +
      (1 + 2 ^ (-95 : Int)) * 2 ^ (-127 : Int) *
        (2 * |x.top * Real.log 2| + 94 * |Real.log x.toReal - x.top * Real.log 2|) := by
  have hmantissa : ¬ x.mantissa ≤ 0 := by
    intro hle
    have hcast : (x.mantissa : ℝ) ≤ 0 := by exact_mod_cast hle
    rw [toReal_eq] at hpos
    exact absurd hpos (not_lt.mpr (mul_nonpos_of_nonpos_of_nonneg hcast (by positivity)))
  obtain ⟨hfits, hrest⟩ := artanh_rest hx hpos
  have hpower : Roundings 128 2 ((logTwoTo 128).mulTo 128 (.ofInt x.top)).toReal (x.top * Real.log 2) := by
    have hround := roundedOnce_mulTo (w := 128) (by norm_num) (logTwoTo 128) (.ofInt x.top)
    rw [toReal_ofInt, mul_comm] at hround
    exact (logTwoTo_roundings.mul_left x.top).round hround (by norm_num)
  have hsum := roundedOnce_addTo (w := 128) (by norm_num) (fits_roundTo (by norm_num) (logTwoTo 128 * .ofInt x.top))
    (hfits.shiftLeft 1)
  have hlast := roundedOnce_roundTo (w := 96) (by norm_num) (((logTwoTo 128).mulTo 128 (.ofInt x.top)).addTo 128
    ((Series.artanh 128 (((x <<< (-x.top)).subTo 128 1).divTo 128 ((x <<< (-x.top)).addTo 128 1))).value <<< (1 : Int)))
  refine ⟨_, by rw [log, logTo, if_neg hmantissa, if_neg hone], ?_⟩
  rw [toReal_shiftLeft, zpow_one] at hsum
  have hparts := abs_sub_le_of_parts (abs_sub_le_of_rounded_twice hsum hlast) hpower hrest
  rwa [add_sub_cancel] at hparts

theorem log_relative_error (hone : x ≠ 1) (h : x.toReal < 1 ∨ 2 ≤ x.toReal) : ∃ l : Dyadic, log (num x) = num l ∧
    |l.toReal - Real.log x.toReal| ≤ 2 ^ (-95 : Int) * |Real.log x.toReal| := by
  obtain ⟨l, hl, herror⟩ := log_eq_num hx hpos hone
  have hparts : 2 * |x.top * Real.log 2| + 94 * |Real.log x.toReal - x.top * Real.log 2| ≤
      98 * |Real.log x.toReal| := by
    obtain ⟨hlow, hhigh⟩ := log_rest_mem hpos
    have htwo : 0 < Real.log 2 := Real.log_pos (by norm_num)
    rw [abs_of_nonpos hhigh]
    rcases h with h | h
    · -- both parts are negative
      have htop : (x.top : ℝ) ≤ 0 := by exact_mod_cast (top_le_iff hpos 0).mpr (by simpa using h)
      have hprod : x.top * Real.log 2 ≤ 0 := mul_nonpos_of_nonpos_of_nonneg htop htwo.le
      rw [abs_of_nonpos hprod, abs_of_nonpos (by linarith)]
      linarith
    · -- the power of two is at least twice as large as the rest
      have htop : (2 : ℝ) ≤ x.top := by
        have htop := (top_le_iff hpos 1).not.mpr (by rw [zpow_one]; linarith)
        exact_mod_cast (by omega : 2 ≤ x.top)
      have hprod : 2 * Real.log 2 ≤ x.top * Real.log 2 := by gcongr
      rw [abs_of_nonneg (by linarith), abs_of_nonneg (by linarith)]
      linarith
  refine ⟨l, hl, herror.trans ?_⟩
  generalize 2 * |x.top * Real.log 2| + 94 * |Real.log x.toReal - x.top * Real.log 2| = parts at *
  have hnonneg := abs_nonneg (Real.log x.toReal)
  norm_num
  linarith

theorem log_absolute_error (hlow : 1 < x.toReal) (hhigh : x.toReal < 2) : ∃ l : Dyadic, log (num x) = num l ∧
    |l.toReal - Real.log x.toReal| ≤ 2 ^ (-95 : Int) * |Real.log x.toReal| + 68 * 2 ^ (-127 : Int) := by
  have hone : x ≠ 1 := by
    rintro rfl
    exact absurd toReal_one hlow.ne'
  obtain ⟨l, hl, herror⟩ := log_eq_num hx hpos hone
  have htop : x.top = 1 := by
    have hle := (top_le_iff hpos 1).mpr (by rwa [zpow_one])
    have hgt := (top_le_iff hpos 0).not.mpr (by rw [zpow_zero]; linarith)
    omega
  have hparts : 2 * |x.top * Real.log 2| + 94 * |Real.log x.toReal - x.top * Real.log 2| ≤ 67 := by
    obtain ⟨hrest, hrest'⟩ := log_rest_mem hpos
    have htwo : 0 < Real.log 2 := Real.log_pos (by norm_num)
    have htwo' := Real.log_two_lt_d9
    rw [abs_of_nonpos hrest', htop, Int.cast_one, one_mul, abs_of_pos htwo]
    rw [htop, Int.cast_one, one_mul] at hrest
    linarith
  refine ⟨l, hl, herror.trans ?_⟩
  generalize 2 * |x.top * Real.log 2| + 94 * |Real.log x.toReal - x.top * Real.log 2| = parts at *
  have hnonneg := abs_nonneg (Real.log x.toReal)
  norm_num
  linarith

end Logarithm

theorem between_of_error {low high r l d : ℝ} (hnonneg : 0 ≤ low) (hlow : low ≤ r) (hhigh : r ≤ high)
    (herror : |l - r| ≤ 2 ^ (-95 : Int) * |r| + d) :
    low * (1 - 10 ^ (-24 : Int)) - d ≤ l ∧ l ≤ high * (1 + 10 ^ (-24 : Int)) + d := by
  rw [abs_of_nonneg (hnonneg.trans hlow), abs_le] at herror
  norm_num at herror ⊢
  constructor <;> linarith

/-- Below one and from `1 + 2 ^ (-59)` on, the computed logarithm of `x` lies between the bounds
`(x - 1) / x` and `x - 1` of the logarithm, up to a part `10 ^ (-24)` of them. In between it may also
be off by `2 ^ (-120)`. -/
theorem logarithm_is_accurate_away_from_one {x : Dyadic} (hx : x.Fits 96) (hpos : 0 < x.toReal) (hone : x ≠ 1) :
    ∃ l : Dyadic, log (num x) = num l ∧
      (x.toReal < 1 →
        (x.toReal - 1) / x.toReal * (1 + 10 ^ (-24 : Int)) ≤ l.toReal ∧
          l.toReal ≤ (x.toReal - 1) * (1 - 10 ^ (-24 : Int))) ∧
      (1 + 2 ^ (-59 : Int) ≤ x.toReal →
        (x.toReal - 1) / x.toReal * (1 - 10 ^ (-24 : Int)) ≤ l.toReal ∧
          l.toReal ≤ (x.toReal - 1) * (1 + 10 ^ (-24 : Int))) ∧
      (1 < x.toReal →
        (x.toReal - 1) / x.toReal * (1 - 10 ^ (-24 : Int)) - 2 ^ (-120 : Int) ≤ l.toReal ∧
          l.toReal ≤ (x.toReal - 1) * (1 + 10 ^ (-24 : Int)) + 2 ^ (-120 : Int)) := by
  have hlow : (x.toReal - 1) / x.toReal ≤ Real.log x.toReal := by
    rw [sub_div, div_self hpos.ne', one_div]
    exact Real.one_sub_inv_le_log_of_pos hpos
  have hhigh := Real.log_le_sub_one_of_pos hpos
  rcases lt_or_gt_of_ne (fun h => hone (toReal_inj.mp (h.trans toReal_one.symm)) : x.toReal ≠ 1) with hbelow | habove
  · obtain ⟨l, hl, herror⟩ := log_relative_error hx hpos hone (.inl hbelow)
    -- the bounds change places with the sign
    have hbetween := between_of_error (l := -l.toReal) (d := 0) (by linarith) (neg_le_neg hhigh) (neg_le_neg hlow)
      (by rwa [neg_sub_neg, abs_sub_comm, abs_neg, add_zero])
    exact ⟨l, hl, fun _ => ⟨by linarith, by linarith⟩, fun h => absurd h (by norm_num; linarith),
      fun h => absurd h (by linarith)⟩
  · have hnonneg : 0 ≤ (x.toReal - 1) / x.toReal := div_nonneg (by linarith) hpos.le
    rcases lt_or_ge x.toReal 2 with htwo | htwo
    · obtain ⟨l, hl, herror⟩ := log_absolute_error hx hpos habove htwo
      obtain ⟨hdown, hup⟩ := between_of_error hnonneg hlow hhigh herror
      refine ⟨l, hl, fun h => absurd h (by linarith), fun hfar => ?_, fun _ => ?_⟩
      · -- the square of the distance from one exceeds the absolute error
        obtain ⟨hlow', hhigh'⟩ := log_mem_of_le_two habove.le htwo.le
        obtain ⟨hdown', hup'⟩ := between_of_error (by positivity) hlow' (le_sub_iff_add_le.mpr hhigh') herror
        have hsquare : (2 ^ (-59 : Int)) ^ 2 ≤ (x.toReal - 1) ^ 2 := by
          gcongr
          linarith
        norm_num at hsquare hdown' hup' ⊢
        constructor <;> linarith
      · norm_num at hdown hup ⊢
        constructor <;> linarith
    · obtain ⟨l, hl, herror⟩ := log_relative_error hx hpos hone (.inr htwo)
      obtain ⟨hdown, hup⟩ := between_of_error (d := 0) hnonneg hlow hhigh (by rwa [add_zero])
      rw [sub_zero] at hdown
      rw [add_zero] at hup
      have hslack : (0 : ℝ) ≤ 2 ^ (-120 : Int) := by positivity
      exact ⟨l, hl, fun h => absurd h (by linarith), fun _ => ⟨hdown, hup⟩, fun _ => ⟨by linarith, by linarith⟩⟩

theorem logarithm_cancels_just_above_one :
    (scaled (2 ^ 95 + 1) (-95)).Fits 96 ∧ 1 < (scaled (2 ^ 95 + 1) (-95)).toReal ∧
      log (num (scaled (2 ^ 95 + 1) (-95))) = num (scaled (2 ^ 33 - 1) (-128)) ∧
      (scaled (2 ^ 33 - 1) (-128)).toReal <
        ((scaled (2 ^ 95 + 1) (-95)).toReal - 1) / (scaled (2 ^ 95 + 1) (-95)).toReal * (1 - 10 ^ (-24 : Int)) := by
  refine ⟨fits_scaled (by norm_num) (by norm_num) _, ?_, by decide +kernel, ?_⟩
  · rw [toReal_scaled]
    norm_num
  · rw [toReal_scaled, toReal_scaled]
    norm_num

theorem logarithm_is_accurate_just_below_one :
    (scaled (2 ^ 96 - 1) (-96)).Fits 96 ∧ 0 < (scaled (2 ^ 96 - 1) (-96)).toReal ∧ scaled (2 ^ 96 - 1) (-96) ≠ 1 ∧
      ∃ l : Dyadic, log (num (scaled (2 ^ 96 - 1) (-96))) = num l ∧
        -1 / (2 ^ 96 - 1) * (1 + 10 ^ (-24 : Int)) ≤ l.toReal ∧ l.toReal ≤ -1 / 2 ^ 96 * (1 - 10 ^ (-24 : Int)) := by
  have hfits : (scaled (2 ^ 96 - 1) (-96)).Fits 96 := fits_scaled (by norm_num) (by norm_num) _
  have hpos : 0 < (scaled (2 ^ 96 - 1) (-96)).toReal := by
    rw [toReal_scaled]
    norm_num
  have hone : scaled (2 ^ 96 - 1) (-96) ≠ 1 := by decide +kernel
  obtain ⟨l, hl, hbelow, -, -⟩ := logarithm_is_accurate_away_from_one hfits hpos hone
  refine ⟨hfits, hpos, hone, l, hl, ?_⟩
  rw [toReal_scaled] at hbelow
  norm_num at hbelow ⊢
  exact hbelow

end BigFloat

end Phasor
