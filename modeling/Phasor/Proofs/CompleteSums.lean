import Phasor.Proofs.Quadrant
import Phasor.Proofs.SeriesEnd

namespace Phasor

structure Loop where
  series : Series Dyadic
  digits : Nat
  limit : Nat
  power : Dyadic
  sum : Dyadic

namespace Loop

open Series (termLimit oddFactors evenFactors)

def run (l : Loop) : Summation := l.series.sumFrom l.digits l.limit 1 l.power l.sum

def atan (w : Nat) (x : Dyadic) : Loop :=
  ⟨(Series.oddQuotients w (x.mulTo w x)).alternated, w, termLimit, x, x⟩

def logTwo (w : Nat) : Loop :=
  ⟨.halves w, w, termLimit, 0, 0⟩

def exp (w : Nat) (x : Dyadic) : Loop :=
  ⟨.quotients w x id, w, termLimit, 1, 1⟩

def artanh (w : Nat) (z : Dyadic) : Loop :=
  ⟨.oddQuotients w (z.mulTo w z), w, termLimit / 2, z, z⟩

def sin (w : Nat) (x : Dyadic) : Loop :=
  ⟨(Series.quotients w (x.mulTo w x) oddFactors).alternated, w, termLimit, x, x⟩

def cos (w : Nat) (x : Dyadic) : Loop :=
  ⟨(Series.quotients w (x.mulTo w x) evenFactors).alternated, w, termLimit, 1, 1⟩

def sinh (w : Nat) (x : Dyadic) : Loop :=
  ⟨.quotients w (x.mulTo w x) oddFactors, w, termLimit, x, x⟩

/-- The loop gives the summation and ends at a negligible term, at the sum that adding terms without
a limit leads to. The first term left out lies more than `digits + 2` places below the leading digit
of the sum, which stands at `2 ^ (total.value.top - 1)`. -/
structure Completes (l : Loop) (total : Summation) : Prop where
  run_eq : l.run = total
  converged : total.converged = true
  sums : ∃ omitted, l.series.Sums l.digits 1 l.power l.sum total.value omitted ∧
    |omitted.toReal| < 2 ^ (total.value.top - 1 - (l.digits + 2))

theorem completes_of_converged {l : Loop} (h : l.run.converged = true) : l.Completes l.run := by
  obtain ⟨omitted, hsums⟩ := Series.sums_of_converged h
  exact ⟨rfl, h, omitted, hsums, Series.abs_lt_of_negligible hsums.negligible⟩

end Loop

namespace BigFloat

open Dyadic (scaled fits_divTo toReal_one toReal_natCast toReal_ne_zero toReal_pos toReal_abs)

theorem completes_reciprocal {k : Nat} (hk : 5 ≤ k) :
    (Loop.atan 256 (Dyadic.divTo 256 1 (k : Dyadic))).Completes
      (Series.atan 256 (Dyadic.divTo 256 1 (k : Dyadic))) := by
  have hne : (k : Dyadic) ≠ 0 := Series.natCast_ne_zero (by omega)
  have hle := (roundedOnce_divTo (w := 256) (by norm_num) 1 hne).abs_le (by norm_num)
  have hfive : (5 : ℝ) ≤ k := by exact_mod_cast hk
  have hrecip : (1 : ℝ) / k ≤ 1 / 5 := by gcongr
  rw [toReal_one, toReal_natCast, abs_of_nonneg (by positivity : (0 : ℝ) ≤ 1 / k)] at hle
  exact Loop.completes_of_converged
    (Series.atan_converged (by norm_num) (by decide) (fits_divTo (by norm_num) _ _) (by linarith))

theorem completes_expReduced {w : Nat} (hlow : 128 ≤ w) (hhigh : w ≤ 1024) {x v : Dyadic} (hx : x.Fits w)
    (hv : estimateWithin? expBound x = some v) :
    let r := expReduced w x (expShift v)
    (Loop.exp w r).Completes (Series.exp w r) :=
  Loop.completes_of_converged
    (Series.exp_converged (by omega) (by unfold Series.termLimit; omega) (abs_expReduced_le hlow hx hv))

theorem completes_quotient_rest {x : Dyadic} (hx : x.Fits 96) (hpos : 0 < x.mantissa) :
    let m := x <<< (-x.top)
    let z := (m.subTo 128 1).divTo 128 (m.addTo 128 1)
    (Loop.artanh 128 z).Completes (Series.artanh 128 z) := by
  intro m z
  have hpos' := (toReal_pos x).mpr hpos
  obtain ⟨hlow, hhigh⟩ := rest_mem hpos'
  obtain ⟨-, hsq, -⟩ := roundings_log_of_quotient hlow hhigh (roundedOnce_quotient_rest hx hpos')
  exact Loop.completes_of_converged (Series.artanh_converged (fits_divTo (by norm_num) _ _) hsq)

theorem completes_quadrantReduced {x v : Dyadic} (hx : x.Fits 96) (hv : estimateWithin? angleBound x = some v) :
    let r := quadrantReduced 128 x (quadrant v)
    (Loop.sin 128 r).Completes (Series.sin 128 r) ∧ (Loop.cos 128 r).Completes (Series.cos 128 r) := by
  intro r
  have hone := abs_quadrantReduced_le hx hv
  have hlimit : 128 + 2 ≤ Series.termLimit := by decide
  have hfits : r.Fits 128 := Dyadic.fits_addTo (by norm_num) _ _
  exact ⟨Loop.completes_of_converged (Series.sin_converged (by norm_num) hlimit hfits hone),
    Loop.completes_of_converged (Series.cos_converged (by norm_num) hlimit hone)⟩

theorem completes_of_top_lt {x : Dyadic} (hx : x.Fits 96) (htop : x.top < -3) :
    (Loop.sinh 128 x).Completes (Series.sinh 128 x) := by
  have hlt := x.abs_toReal_lt
  have hpow : (2 : ℝ) ^ x.top ≤ 2 ^ (-4 : Int) := zpow_le_zpow_right₀ (by norm_num) (by omega)
  norm_num at hpow
  exact Loop.completes_of_converged
    (Series.sinh_converged (by norm_num) (by decide) (hx.trans (by norm_num)) (by linarith))

theorem completes_halveAngle {w : Nat} (hlow : 8 ≤ w) (hhigh : w ≤ 1024) {x : Dyadic} (hx : x.Fits w) (hne : x ≠ 0) :
    let y := if exceedsOne x.abs then Dyadic.divTo w 1 x.abs else x.abs
    let z := halveAngle w (halveAngle w y)
    (Loop.atan w z).Completes (Series.atan w z) := by
  intro y z
  have hpos : 0 < x.abs.toReal := by
    rw [toReal_abs]
    exact abs_pos.mpr (toReal_ne_zero.mpr hne)
  obtain ⟨hfits, hpos', hle⟩ := reflected_mem hlow hx.abs hpos
  obtain ⟨hfits', hpos'', hle'⟩ := halveAngle_twice_mem (by omega) hfits hpos' hle
  exact Loop.completes_of_converged
    (Series.atan_converged hlow (by unfold Series.termLimit; omega) hfits' (by rwa [abs_of_pos hpos'']))

theorem divTo_ne_zero {w : Nat} (hw : 8 ≤ w) {x y : Dyadic} (hx : x ≠ 0) (hy : y ≠ 0) : x.divTo w y ≠ 0 := by
  have hle := (roundedOnce_divTo (by omega) x hy).le_abs hw
  have hpos : 0 < |x.toReal / y.toReal| := abs_pos.mpr (div_ne_zero (toReal_ne_zero.mpr hx) (toReal_ne_zero.mpr hy))
  rw [← toReal_ne_zero, ← abs_pos]
  linarith

end BigFloat

end Phasor
