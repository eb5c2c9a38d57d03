import Phasor.Proofs.Alternating

namespace Phasor.Series

open Dyadic (fits_zero fits_one fits_addTo fits_divTo toReal_zero toReal_one toReal_neg toReal_natCast toReal_ne_zero
  nearest_mulTo nearest_divTo addTo_mem_uIcc addTo_le le_addTo mulTo_neg_left mulTo_neg_right divTo_neg_left)

theorem natCast_ne_zero {c : Nat} (hc : 0 < c) : (c : Dyadic) ≠ 0 := by
  rw [← toReal_ne_zero, toReal_natCast]
  positivity

theorem nonneg_mulTo_divTo {w : Nat} (hw : 0 < w) {x y : Dyadic} (hx : 0 ≤ x.toReal) (hy : 0 ≤ y.toReal) {c : Nat}
    (hc : 0 < c) : 0 ≤ ((x.mulTo w y).divTo w c).toReal := by
  have hprod := (nearest_mulTo hw x y).ge (fits_zero w) (by rw [toReal_zero]; positivity)
  rw [toReal_zero] at hprod
  have hquot := (nearest_divTo hw (x.mulTo w y) (natCast_ne_zero hc)).ge (fits_zero w) (by
    rw [toReal_zero, toReal_natCast]
    positivity)
  rwa [toReal_zero] at hquot

section Step

variable {w : Nat} (hw : 8 ≤ w) (power x : Dyadic) {c : Nat} (hc : 0 < c)

include hw hc

theorem abs_mulTo_divTo_le :
    |((power.mulTo w x).divTo w c).toReal| ≤ 41 / 40 * (|power.toReal| * |x.toReal| / c) := by
  have hprod := (roundedOnce_mulTo (by omega) power x).abs_le hw
  have hquot := (roundedOnce_divTo (by omega) (power.mulTo w x) (natCast_ne_zero hc)).abs_le hw
  rw [toReal_natCast, abs_div, Nat.abs_cast] at hquot
  rw [abs_mul] at hprod
  calc |((power.mulTo w x).divTo w c).toReal| ≤ 201 / 200 * (|(power.mulTo w x).toReal| / c) := hquot
    _ ≤ 201 / 200 * (201 / 200 * (|power.toReal| * |x.toReal|) / c) := by gcongr
    _ = 201 / 200 * (201 / 200) * (|power.toReal| * |x.toReal| / c) := by ring
    _ ≤ 41 / 40 * (|power.toReal| * |x.toReal| / c) := by
        gcongr
        norm_num

variable {x}

theorem ten_mul_abs_mulTo_divTo_le (hx : |x.toReal| ≤ 1 / 11) :
    10 * |((power.mulTo w x).divTo w c).toReal| ≤ |power.toReal| := by
  have hle := abs_mulTo_divTo_le hw power x hc
  have hone : (1 : ℝ) ≤ c := by exact_mod_cast hc
  have hbound : |power.toReal| * |x.toReal| / c ≤ |power.toReal| * (1 / 11) / 1 := by gcongr
  linarith [abs_nonneg power.toReal]

theorem mul_mulTo_divTo_nonneg {a : ℝ} (ha : 0 ≤ a * power.toReal) (hx : 0 ≤ x.toReal) :
    0 ≤ a * ((power.mulTo w x).divTo w c).toReal := by
  have hw' : 0 < w := by omega
  rcases lt_trichotomy power.toReal 0 with hneg | hzero | hpos
  · have hquot := nonneg_mulTo_divTo hw' (x := -power) (by rw [toReal_neg]; linarith) hx hc
    rw [mulTo_neg_left, divTo_neg_left, toReal_neg] at hquot
    exact mul_nonneg_of_nonpos_of_nonpos (nonpos_of_mul_nonneg_left ha hneg) (by linarith)
  · have hle := abs_mulTo_divTo_le hw power x hc
    rw [hzero, abs_zero, zero_mul, zero_div, mul_zero, abs_nonpos_iff] at hle
    rw [hle, mul_zero]
  · exact mul_nonneg (nonneg_of_mul_nonneg_left ha hpos) (nonneg_mulTo_divTo hw' hpos.le hx hc)

theorem mul_mulTo_divTo_nonpos (hx : x.toReal ≤ 0) :
    power.toReal * ((power.mulTo w x).divTo w c).toReal ≤ 0 := by
  have h := mul_mulTo_divTo_nonneg hw power hc (mul_self_nonneg _) (x := -x) (by rw [toReal_neg]; linarith)
  rw [mulTo_neg_right, divTo_neg_left, toReal_neg] at h
  linarith

end Step

structure GrowingDivisors (c : Nat → Nat) : Prop where
  two_le : ∀ n, 2 ≤ c (n + 1)
  twelve_le : ∀ n, 1 ≤ n → 12 ≤ c (n + 1)

theorem growingDivisors_oddFactors : GrowingDivisors oddFactors where
  two_le n := by
    unfold oddFactors
    nlinarith
  twelve_le n hn := by
    unfold oddFactors
    nlinarith

theorem growingDivisors_evenFactors : GrowingDivisors evenFactors where
  two_le n := by
    show 2 ≤ (2 * n + 1) * (2 * n + 2)
    nlinarith
  twelve_le n hn := by
    show 12 ≤ (2 * n + 1) * (2 * n + 2)
    nlinarith

theorem GrowingDivisors.pos {c : Nat → Nat} (hc : GrowingDivisors c) {n : Nat} (hn : 1 ≤ n) : 0 < c n := by
  obtain ⟨i, rfl⟩ := Nat.exists_eq_add_of_le' hn
  have htwo := hc.two_le i
  omega

section Square

variable {w : Nat} (hw : 8 ≤ w)

include hw

theorem square_mem {x : Dyadic} (hx : |x.toReal| ≤ 1) : 0 ≤ (x.mulTo w x).toReal ∧ (x.mulTo w x).toReal ≤ 1 := by
  have hnearest := nearest_mulTo (p := w) (by omega) x x
  have hlow := hnearest.ge (fits_zero w) (by rw [toReal_zero]; exact mul_self_nonneg _)
  have hhigh := hnearest.le (fits_one (by omega))
    (by rw [toReal_one, ← abs_mul_abs_self]; nlinarith [abs_nonneg x.toReal])
  rw [toReal_zero] at hlow
  rw [toReal_one] at hhigh
  exact ⟨hlow, hhigh⟩

theorem square_le {x : Dyadic} (hx : |x.toReal| ≤ 3 / 10) : (x.mulTo w x).toReal ≤ 1 / 11 := by
  have hround := (le_abs_self _).trans ((roundedOnce_mulTo (by omega) x x).abs_le hw)
  rw [abs_mul] at hround
  nlinarith [abs_nonneg x.toReal]

variable {x2 : Dyadic} (hlow : 0 ≤ x2.toReal) (hhigh : x2.toReal ≤ 1)

include hlow hhigh

theorem abs_mulTo_square_divTo_le (x : Dyadic) {c : Nat} (hc : 2 ≤ c) :
    |((x.mulTo w x2).divTo w c).toReal| ≤ 41 / 80 * |x.toReal| := by
  have hle := abs_mulTo_divTo_le hw x x2 (c := c) (by omega)
  have htwo : (2 : ℝ) ≤ c := by exact_mod_cast hc
  have hbound : |x.toReal| * x2.toReal / c ≤ |x.toReal| * 1 / 2 := by gcongr
  rw [abs_of_nonneg hlow] at hle
  linarith

variable {c : Nat → Nat} (hc : GrowingDivisors c)

include hc

theorem alternating_square : (quotients w x2 c).alternated.Alternating w where
  fits n power := (fits_divTo (by omega) _ _).neg
  tenth n power hn := by
    have hle := abs_mulTo_divTo_le hw power x2 (hc.pos (Nat.succ_pos n))
    have htwelve : (12 : ℝ) ≤ c (n + 1) := by exact_mod_cast hc.twelve_le n hn
    rw [abs_of_nonneg hlow] at hle
    simp only [alternated_step, alternated_term, quotients_step, quotients_term, toReal_neg, abs_neg]
    have hbound : |power.toReal| * x2.toReal / c (n + 1) ≤ |power.toReal| * 1 / 12 := by gcongr
    linarith [abs_nonneg power.toReal]
  opposite n power := by
    have hsign := mul_mulTo_divTo_nonneg hw power (hc.pos (Nat.succ_pos n)) (mul_self_nonneg _) hlow
    simp only [alternated_step, alternated_term, quotients_step, quotients_term, toReal_neg]
    linarith

theorem sumFrom_square_mem (limit : Nat) {x : Dyadic} (hx : x.Fits w) :
    let s := (quotients w x2 c).alternated
    (s.sumFrom w limit 1 x x).value.Fits w ∧ (s.sumFrom w limit 1 x x).value.toReal ∈ Set.uIcc 0 x.toReal := by
  intro s
  have hpos : 0 < w := by omega
  obtain ⟨hfits, hmem⟩ := sumFrom_mem_uIcc hw (alternating_square hw hlow hhigh hc) limit x hx
  refine ⟨hfits, Set.uIcc_subset_uIcc Set.right_mem_uIcc ?_ hmem⟩
  have hsign := mul_mulTo_divTo_nonneg hw x (c := c 1) (hc.pos le_rfl) (mul_self_nonneg _) hlow
  have hle := abs_mulTo_square_divTo_le hw hlow hhigh x (hc.two_le 0)
  have hfirst := add_mem_uIcc_of_opposite (x := x.toReal) (y := (-((x.mulTo w x2).divTo w (c 1 : Nat))).toReal)
    (by rw [toReal_neg]; linarith) (by rw [toReal_neg, abs_neg]; linarith [abs_nonneg x.toReal])
  rw [← toReal_zero] at hfirst ⊢
  exact addTo_mem_uIcc hpos hx (fits_divTo hpos _ _).neg (fits_zero w) hx hfirst

end Square

section Growing

structure Growing (w : Nat) (first : Dyadic) (n : Nat) (power sum : Dyadic) : Prop where
  one_le : 1 ≤ n
  sign : 0 ≤ first.toReal * power.toReal
  fits : sum.Fits w
  mem : first.toReal ∈ Set.uIcc 0 sum.toReal

theorem growing_first {w : Nat} {first : Dyadic} (h : first.Fits w) : Growing w first 1 first first :=
  ⟨le_rfl, mul_self_nonneg _, h, Set.right_mem_uIcc⟩

theorem mem_uIcc_addTo {w : Nat} (hw : 0 < w) {first sum term : Dyadic} (hfirst : first.Fits w) (hsum : sum.Fits w)
    (hterm : term.Fits w) (hmem : first.toReal ∈ Set.uIcc 0 sum.toReal) (hsign : 0 ≤ first.toReal * term.toReal) :
    first.toReal ∈ Set.uIcc 0 (sum.addTo w term).toReal := by
  rcases lt_trichotomy first.toReal 0 with hneg | hzero | hpos
  · have hle := (min_le_iff.mp hmem.1).resolve_left (not_le.mpr hneg)
    have hnext := nonpos_of_mul_nonneg_right hsign hneg
    exact Set.mem_uIcc_of_ge (addTo_le hw hsum hterm hfirst (by linarith)) hneg.le
  · rw [hzero]
    exact Set.left_mem_uIcc
  · have hle := (le_max_iff.mp hmem.2).resolve_left (not_le.mpr hpos)
    have hnext := nonneg_of_mul_nonneg_right hsign hpos
    exact Set.mem_uIcc_of_le hpos.le (le_addTo hw hsum hterm hfirst (by linarith))

theorem Growing.step {w : Nat} (hw : 8 ≤ w) {y : Dyadic} (hy : 0 ≤ y.toReal) {c : Nat → Nat}
    (hc : ∀ n, 1 ≤ n → 0 < c n) {first power sum : Dyadic} (hfirst : first.Fits w) {n : Nat}
    (h : Growing w first n power sum) :
    Growing w first (n + 1) ((quotients w y c).step n power) (sum.addTo w ((quotients w y c).step n power)) := by
  have hw' : 0 < w := by omega
  have hsign := mul_mulTo_divTo_nonneg hw power (hc n h.one_le) h.sign hy
  exact ⟨by omega, hsign, fits_addTo hw' _ _, mem_uIcc_addTo hw' hfirst h.fits (fits_divTo hw' _ _) h.mem hsign⟩

end Growing

section Functions

variable {w : Nat} (hw : 8 ≤ w) {x : Dyadic}

include hw

theorem sin_mem (hx : x.Fits w) (hone : |x.toReal| ≤ 1) :
    (sin w x).value.Fits w ∧ (sin w x).value.toReal ∈ Set.uIcc 0 x.toReal := by
  obtain ⟨hlow, hhigh⟩ := square_mem hw hone
  exact sumFrom_square_mem hw hlow hhigh growingDivisors_oddFactors termLimit hx

theorem cos_mem (hone : |x.toReal| ≤ 1) :
    (cos w x).value.Fits w ∧ (cos w x).value.toReal ∈ Set.uIcc 0 1 := by
  obtain ⟨hlow, hhigh⟩ := square_mem hw hone
  have hmem := sumFrom_square_mem hw hlow hhigh growingDivisors_evenFactors termLimit (fits_one (by omega))
  rw [toReal_one] at hmem
  exact hmem

theorem alternating_atan {x2 : Dyadic} (hlow : 0 ≤ x2.toReal) (hhigh : x2.toReal ≤ 1 / 11) :
    (oddQuotients w x2).alternated.Alternating w where
  fits n power := by
    rw [alternated_term, oddQuotients_term]
    exact fits_divTo (by omega) _ _
  tenth n power hn := by
    have hnext := abs_mulTo_divTo_le hw power x2 (c := 2 * (n + 1) + 1) (by omega)
    have hlast := (roundedOnce_divTo (by omega) power (natCast_ne_zero (c := 2 * n + 1) (by omega))).le_abs hw
    rw [abs_of_nonneg hlow] at hnext
    rw [toReal_natCast, abs_div, Nat.abs_cast] at hlast
    simp only [alternated_step, alternated_term, oddQuotients_step, oddQuotients_term, divTo_neg_left, toReal_neg,
      abs_neg]
    have hbound : |power.toReal| * x2.toReal / (2 * (n + 1) + 1 : Nat) ≤
        1 / 11 * (|power.toReal| / (2 * n + 1 : Nat)) :=
      calc |power.toReal| * x2.toReal / (2 * (n + 1) + 1 : Nat) ≤ |power.toReal| * (1 / 11) / (2 * n + 1 : Nat) := by
            gcongr
            omega
        _ = 1 / 11 * (|power.toReal| / (2 * n + 1 : Nat)) := by ring
    have hnonneg : 0 ≤ |power.toReal| / (2 * n + 1 : Nat) := by positivity
    linarith
  opposite n power := by
    have hlast := (roundedOnce_divTo (by omega) power (natCast_ne_zero (c := 2 * n + 1) (by omega))).mul_nonneg hw
    rw [toReal_natCast, mul_div_assoc', le_div_iff₀ (by positivity), zero_mul] at hlast
    simp only [alternated_step, alternated_term, oddQuotients_step, oddQuotients_term, divTo_neg_left, toReal_neg,
      mul_neg, neg_nonpos]
    exact mul_mulTo_divTo_nonneg hw power (by omega) hlast hlow

theorem atan_mem (hx : x.Fits w) (hpos : 0 < x.toReal) (hle : x.toReal ≤ 3 / 10) :
    (atan w x).value.Fits w ∧ 0 < (atan w x).value.toReal ∧ (atan w x).value.toReal ≤ x.toReal := by
  have hw' : 0 < w := by omega
  have hlow := (square_mem hw (x := x) (by rw [abs_of_pos hpos]; linarith)).1
  have hhigh := square_le hw (x := x) (by rwa [abs_of_pos hpos])
  obtain ⟨hfits, hmem⟩ := sumFrom_mem_uIcc hw (alternating_atan hw hlow hhigh) termLimit x hx
  simp only [alternated_step, alternated_term, oddQuotients_step, oddQuotients_term] at hmem
  -- the first term is negative and small against the argument
  have hfirst := abs_mulTo_divTo_le hw x (x.mulTo w x) (c := 2 * 1 + 1) (by omega)
  have hsign := mul_mulTo_divTo_nonneg hw x (c := 2 * 1 + 1) (by omega) (mul_self_nonneg _) hlow
  have hterm : ((-(x.mulTo w (x.mulTo w x))).divTo w (2 * 1 + 1 : Nat)).toReal =
      -((x.mulTo w (x.mulTo w x)).divTo w (2 * 1 + 1 : Nat)).toReal := by rw [divTo_neg_left, toReal_neg]
  have hnonneg := nonneg_of_mul_nonneg_right hsign hpos
  rw [abs_of_nonneg hnonneg, abs_of_pos hpos, abs_of_nonneg hlow] at hfirst
  have hfits' : ((-(x.mulTo w (x.mulTo w x))).divTo w (2 * 1 + 1 : Nat)).Fits w := fits_divTo hw' _ _
  have hdown := Dyadic.addTo_le hw' hx hfits' hx (by rw [hterm]; linarith)
  have hup := (roundedOnce_addTo hw' hx hfits').pos hw (by
    rw [hterm]
    norm_num at hfirst ⊢
    nlinarith)
  rw [Set.uIcc_of_ge hdown] at hmem
  exact ⟨hfits, hup.trans_le hmem.1, hmem.2⟩

theorem alternating_exp (hx : x.toReal ≤ 0) (hsmall : |x.toReal| ≤ 1 / 1024) :
    (quotients w x id).Alternating w where
  fits n power := fits_divTo (by omega) _ _
  tenth n power hn := ten_mul_abs_mulTo_divTo_le hw power (c := n + 1) (by omega) (by linarith)
  opposite n power := mul_mulTo_divTo_nonpos hw power (c := n + 1) (by omega) hx

theorem one_le_exp (hx : 0 ≤ x.toReal) : (exp w x).value.Fits w ∧ 1 ≤ (exp w x).value.toReal := by
  have hone : (1 : Dyadic).Fits w := fits_one (by omega)
  obtain ⟨n, power, hgrows, -⟩ := sumFrom_run (quotients w x id) w
    (fun _ _ _ h _ => h.step hw hx (fun _ hn => hn) hone) termLimit 1 1 1 (growing_first hone)
  have hmem := hgrows.mem
  rw [toReal_one] at hmem
  exact ⟨hgrows.fits, (le_max_iff.mp hmem.2).resolve_left (by norm_num)⟩

theorem exp_pos (hsmall : |x.toReal| ≤ 1 / 1024) : (exp w x).value.Fits w ∧ 0 < (exp w x).value.toReal := by
  have hw' : 0 < w := by omega
  have hone : (1 : Dyadic).Fits w := fits_one hw'
  rcases le_total 0 x.toReal with hpos | hneg
  · obtain ⟨hfits, hle⟩ := one_le_exp hw hpos
    exact ⟨hfits, zero_lt_one.trans_le hle⟩
  · obtain ⟨hfits, hmem⟩ := sumFrom_mem_uIcc hw (alternating_exp hw hneg hsmall) termLimit 1 hone
    refine ⟨hfits, ?_⟩
    have hfirst := ten_mul_abs_mulTo_divTo_le hw 1 (x := x) (c := 1) (by omega) (by linarith)
    have hsecond := (roundedOnce_addTo hw' hone (fits_divTo hw' (Dyadic.mulTo w 1 x) (1 : Nat))).pos hw (by
      have := neg_abs_le ((Dyadic.mulTo w 1 x).divTo w (1 : Nat)).toReal
      rw [toReal_one, abs_one] at hfirst
      rw [toReal_one]
      linarith)
    exact (lt_min (by rw [toReal_one]; exact zero_lt_one) hsecond).trans_le hmem.1

end Functions

end Phasor.Series
