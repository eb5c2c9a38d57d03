import Mathlib.Analysis.SpecificLimits.Basic
import Phasor.BigFloat.Series
import Phasor.Proofs.Addition

namespace Phasor

open Dyadic (Nearest nearest_roundTo nearest_mulTo nearest_divTo abs_addTo_sub_le toReal_zero toReal_ne_zero
  two_zpow_top_le_toReal)

/-- `a` is `r` after one operation at `w` binary digits; sums are the least exact. -/
def RoundedOnce (w : Nat) (a r : ℝ) : Prop :=
  |a - r| ≤ 2 ^ (-(w : Int)) * (1 + 2 ^ (-60 : Int)) * |r|

/-- `a` is `b` after `k` roundings at `w` binary digits, each counted with twice its size. -/
def Roundings (w k : Nat) (a b : ℝ) : Prop :=
  |a - b| ≤ k * 2 ^ (1 - (w : Int)) * |b|

theorem two_zpow_neg_eq (w : Nat) : (2 : ℝ) ^ (-(w : Int)) = 2 ^ (1 - (w : Int)) / 2 := by
  rw [sub_eq_add_neg, zpow_add₀ (by norm_num), zpow_one]
  ring

theorem mul_two_zpow_eq (w : Nat) (r : ℝ) : r * 2 ^ (1 - (w : Int)) = r * 2 / 2 ^ w := by
  rw [zpow_sub₀ (by norm_num), zpow_one, zpow_natCast, mul_div_assoc']

theorem mul_zpow_le_half {w k : Nat} (hk : 4 * k ≤ 2 ^ w) : (k : ℝ) * 2 ^ (1 - (w : Int)) ≤ 1 / 2 := by
  have hcast : (4 * k : ℝ) ≤ 2 ^ w := by exact_mod_cast hk
  rw [mul_two_zpow_eq, div_le_iff₀ (by positivity)]
  linarith

theorem roundedOnce_of_nearest {w : Nat} (hw : 0 < w) {r : ℝ} {x : Dyadic} (h : Nearest w r x) :
    RoundedOnce w x.toReal r := by
  have hnear := h.abs_sub_le hw
  have hextra : 0 ≤ 2 ^ (-(w : Int)) * 2 ^ (-60 : Int) * |r| := by positivity
  unfold RoundedOnce
  linarith

theorem roundedOnce_roundTo {w : Nat} (hw : 0 < w) (x : Dyadic) : RoundedOnce w (x.roundTo w).toReal x.toReal :=
  roundedOnce_of_nearest hw (nearest_roundTo hw x)

theorem roundedOnce_mulTo {w : Nat} (hw : 0 < w) (x y : Dyadic) :
    RoundedOnce w (x.mulTo w y).toReal (x.toReal * y.toReal) :=
  roundedOnce_of_nearest hw (nearest_mulTo hw x y)

theorem roundedOnce_divTo {w : Nat} (hw : 0 < w) (x : Dyadic) {y : Dyadic} (hy : y ≠ 0) :
    RoundedOnce w (x.divTo w y).toReal (x.toReal / y.toReal) :=
  roundedOnce_of_nearest hw (nearest_divTo hw x hy)

theorem roundedOnce_addTo {w : Nat} (hw : 0 < w) {x y : Dyadic} (hx : x.Fits w) (hy : y.Fits w) :
    RoundedOnce w (x.addTo w y).toReal (x.toReal + y.toReal) :=
  abs_addTo_sub_le hw hx hy

namespace Roundings

variable {w j k : Nat} {a b c d : ℝ}

theorem refl (w k : Nat) (a : ℝ) : Roundings w k a a := by
  unfold Roundings
  rw [sub_self, abs_zero]
  positivity

theorem mono (h : Roundings w j a b) (hjk : j ≤ k) : Roundings w k a b := by
  refine le_trans h ?_
  gcongr

theorem mul_left (h : Roundings w k a b) (c : ℝ) : Roundings w k (c * a) (c * b) := by
  unfold Roundings at *
  rw [← mul_sub, abs_mul, abs_mul]
  calc |c| * |a - b| ≤ |c| * (k * 2 ^ (1 - (w : Int)) * |b|) := by gcongr
    _ = k * 2 ^ (1 - (w : Int)) * (|c| * |b|) := by ring

theorem add (hab : Roundings w k a b) (hcd : Roundings w k c d) (hsign : 0 ≤ b * d) :
    Roundings w k (a + c) (b + d) := by
  unfold Roundings at *
  have habs : |b + d| = |b| + |d| := by
    rcases mul_nonneg_iff.mp hsign with ⟨hb, hd⟩ | ⟨hb, hd⟩
    · rw [abs_of_nonneg hb, abs_of_nonneg hd, abs_of_nonneg (by linarith)]
    · rw [abs_of_nonpos hb, abs_of_nonpos hd, abs_of_nonpos (by linarith)]
      ring
  calc |a + c - (b + d)| = |(a - b) + (c - d)| := by congr 1; ring
    _ ≤ |a - b| + |c - d| := abs_add_le _ _
    _ ≤ k * 2 ^ (1 - (w : Int)) * |b| + k * 2 ^ (1 - (w : Int)) * |d| := add_le_add hab hcd
    _ = k * 2 ^ (1 - (w : Int)) * |b + d| := by rw [habs]; ring

theorem abs_le (h : Roundings w k a b) : |a| ≤ (1 + k * 2 ^ (1 - (w : Int))) * |b| := by
  unfold Roundings at h
  have := abs_sub_abs_le_abs_sub a b
  linarith

theorem abs_le_of_few (h : Roundings w k a b) (hk : 4 * k ≤ 2 ^ w) : |a| ≤ 3 / 2 * |b| := by
  have hhalf := mul_zpow_le_half hk
  calc |a| ≤ (1 + k * 2 ^ (1 - (w : Int))) * |b| := h.abs_le
    _ ≤ 3 / 2 * |b| := by
        gcongr
        linarith

theorem half_abs_le_of_few (h : Roundings w k a b) (hk : 4 * k ≤ 2 ^ w) : 1 / 2 * |b| ≤ |a| := by
  have hhalf := mul_le_mul_of_nonneg_right (mul_zpow_le_half hk) (abs_nonneg b)
  have hsub := abs_sub_abs_le_abs_sub b a
  unfold Roundings at h
  rw [abs_sub_comm b] at hsub
  linarith

theorem trans (hab : Roundings w j a b) (hbc : Roundings w k b c) (hjk : 2 * (j * k) ≤ 2 ^ w) :
    Roundings w (j + k + 1) a c := by
  have hsize := abs_le hbc
  unfold Roundings at *
  have hcross : (j * k : ℝ) * 2 ^ (1 - (w : Int)) ≤ 1 := by
    have hcast : (2 * (j * k) : ℝ) ≤ 2 ^ w := by exact_mod_cast hjk
    rw [mul_two_zpow_eq, div_le_one (by positivity)]
    linarith
  have hu : (0 : ℝ) < 2 ^ (1 - (w : Int)) := by positivity
  generalize (2 : ℝ) ^ (1 - (w : Int)) = u at *
  calc |a - c| ≤ |a - b| + |b - c| := abs_sub_le a b c
    _ ≤ j * u * ((1 + k * u) * |c|) + k * u * |c| := by
        gcongr
        exact hab.trans (by gcongr)
    _ = (j + k + j * k * u) * u * |c| := by ring
    _ ≤ (j + k + 1) * u * |c| := by gcongr
    _ = (j + k + 1 : Nat) * u * |c| := by push_cast; ring

theorem mul_rounded (h : Roundings w k a b) (hr : RoundedOnce w c d) (hk : 4 * k ≤ 2 ^ w) :
    Roundings w (k + 1) (a * c) (b * d) := by
  -- A rounding is half as large as it is counted, which leaves room for what it adds to the earlier
  -- ones.
  have hhalf := mul_zpow_le_half hk
  have hsize := abs_le h
  unfold Roundings RoundedOnce at *
  rw [two_zpow_neg_eq] at hr
  have hu : (0 : ℝ) < 2 ^ (1 - (w : Int)) := by positivity
  generalize (2 : ℝ) ^ (1 - (w : Int)) = u at *
  have hsmall : (1 + 1 / 2) * (1 / 2 * (1 + 2 ^ (-60 : Int))) ≤ (1 : ℝ) := by norm_num
  have hfirst : |a * (c - d)| ≤ u * (|b| * |d|) := by
    rw [abs_mul]
    calc |a| * |c - d| ≤ (1 + k * u) * |b| * (u / 2 * (1 + 2 ^ (-60 : Int)) * |d|) :=
          mul_le_mul hsize hr (abs_nonneg _) (by positivity)
      _ ≤ (1 + 1 / 2) * |b| * (u / 2 * (1 + 2 ^ (-60 : Int)) * |d|) := by gcongr
      _ = (1 + 1 / 2) * (1 / 2 * (1 + 2 ^ (-60 : Int))) * (u * (|b| * |d|)) := by ring
      _ ≤ 1 * (u * (|b| * |d|)) := by gcongr
      _ = u * (|b| * |d|) := one_mul _
  have hsecond : |(a - b) * d| ≤ k * u * (|b| * |d|) := by
    rw [abs_mul]
    calc |a - b| * |d| ≤ k * u * |b| * |d| := by gcongr
      _ = k * u * (|b| * |d|) := by ring
  calc |a * c - b * d| = |a * (c - d) + (a - b) * d| := by congr 1; ring
    _ ≤ u * (|b| * |d|) + k * u * (|b| * |d|) := (abs_add_le _ _).trans (add_le_add hfirst hsecond)
    _ = (k + 1 : Nat) * u * |b * d| := by
        rw [abs_mul]
        push_cast
        ring

theorem round (h : Roundings w k a b) (hr : RoundedOnce w c a) (hk : 4 * k ≤ 2 ^ w) : Roundings w (k + 1) c b := by
  rcases eq_or_ne a 0 with rfl | ha
  · unfold RoundedOnce at hr
    rw [abs_zero, mul_zero] at hr
    rw [sub_eq_zero.mp (abs_nonpos_iff.mp hr)]
    exact h.mono (Nat.le_succ k)
  · have hfactor : RoundedOnce w (c / a) 1 := by
      unfold RoundedOnce at *
      rw [div_sub_one ha, abs_div, abs_one, mul_one]
      exact (div_le_iff₀ (abs_pos.mpr ha)).mpr hr
    have hprod := h.mul_rounded hfactor hk
    rwa [mul_div_cancel₀ c ha, mul_one] at hprod

end Roundings

/-- Terms that are not negative, each from the second on at most half of the one before, of which
those from `bound` on are negligible at `w` binary digits against the sum of those before. -/
structure Halving (w bound : Nat) (t : Nat → ℝ) : Prop where
  nonneg : ∀ n, 0 ≤ t n
  half : ∀ n, 1 ≤ n → t (n + 1) ≤ t n / 2
  small : ∀ n, bound ≤ n → t n * 2 ^ (w + 5) ≤ ∑ i ∈ Finset.range n, t i

namespace Halving

variable {w bound : Nat} {t : Nat → ℝ} {total : ℝ}

theorem sum_nonneg (h : Halving w bound t) (n : Nat) : 0 ≤ ∑ i ∈ Finset.range n, t i :=
  Finset.sum_nonneg fun i _ => h.nonneg i

theorem sum_le (h : Halving w bound t) (htotal : HasSum t total) (n : Nat) : ∑ i ∈ Finset.range n, t i ≤ total :=
  sum_le_hasSum _ (fun i _ => h.nonneg i) htotal

theorem sub_sum_le (h : Halving w bound t) (htotal : HasSum t total) {n : Nat} (hn : 1 ≤ n) :
    total - ∑ i ∈ Finset.range n, t i ≤ 2 * t n := by
  have hrest := (hasSum_nat_add_iff' n).mpr htotal
  have hgeometric : HasSum (fun i : Nat => t n * (1 / 2) ^ i) (t n * 2) := hasSum_geometric_two.mul_left (t n)
  have hle (i : Nat) : t (i + n) ≤ t n * (1 / 2) ^ i := by
    induction i with
    | zero => rw [Nat.zero_add, pow_zero, mul_one]
    | succ i ih =>
      have hhalf := h.half (i + n) (by omega)
      rw [show i + 1 + n = i + n + 1 by omega, pow_succ]
      linarith
  have hsum := hasSum_le hle hrest hgeometric
  linarith

end Halving

namespace Series

theorem abs_lt_of_negligible {w : Nat} {term sum : Dyadic} (h : negligible w term sum) :
    |term.toReal| < 2 ^ (sum.top - 1 - (w + 2)) := by
  rw [negligible, Bool.or_eq_true, Bool.and_eq_true, decide_eq_true_iff, decide_eq_true_iff, decide_eq_true_iff] at h
  rcases h with rfl | ⟨-, htop⟩
  · rw [toReal_zero, abs_zero]
    positivity
  · exact term.abs_toReal_lt.trans_le (zpow_le_zpow_right₀ (by norm_num) (by omega))

theorem abs_le_of_negligible {w : Nat} {term sum : Dyadic} (h : negligible w term sum) :
    |term.toReal| ≤ 2 ^ (-(w : Int)) / 4 * |sum.toReal| := by
  rcases eq_or_ne sum 0 with rfl | hsum
  · have hterm : term = 0 := by simpa [negligible] using h
    rw [hterm, toReal_zero, abs_zero, mul_zero]
  · have hterm := abs_lt_of_negligible h
    have hlow := two_zpow_top_le_toReal hsum
    have hsplit : (2 : ℝ) ^ (sum.top - 1 - (w + 2)) = 2 ^ (-(w : Int)) / 8 * 2 ^ sum.top := by
      rw [show sum.top - 1 - ((w : Int) + 2) = -w + (-3) + sum.top by ring, zpow_add₀ (by norm_num),
        zpow_add₀ (by norm_num)]
      congr 1
      norm_num
      ring
    have hscale : 2 ^ (-(w : Int)) / 8 * 2 ^ sum.top ≤ 2 ^ (-(w : Int)) / 8 * (2 * |sum.toReal|) := by gcongr
    linarith

theorem negligible_of_abs_le {w : Nat} {term sum : Dyadic} (h : |term.toReal| * 2 ^ (w + 3) ≤ |sum.toReal|) :
    negligible w term sum := by
  rw [negligible, Bool.or_eq_true, Bool.and_eq_true, decide_eq_true_iff, decide_eq_true_iff, decide_eq_true_iff]
  rcases eq_or_ne term 0 with hterm | hterm
  · exact .inl hterm
  · right
    have hpos : 0 < |term.toReal| := abs_pos.mpr (toReal_ne_zero.mpr hterm)
    have hsum : sum ≠ 0 := by
      rintro rfl
      rw [toReal_zero, abs_zero] at h
      have : 0 < |term.toReal| * 2 ^ (w + 3) := by positivity
      linarith
    refine ⟨hsum, ?_⟩
    have hlow := two_zpow_top_le_toReal hterm
    have hhigh := sum.abs_toReal_lt
    have hlt : (2 : ℝ) ^ (term.top + (w + 2)) < 2 ^ sum.top := by
      rw [zpow_add₀ (by norm_num), show ((w : Int) + 2) = ((w + 2 : Nat) : Int) by push_cast; ring, zpow_natCast]
      calc (2 : ℝ) ^ term.top * 2 ^ (w + 2) ≤ 2 * |term.toReal| * 2 ^ (w + 2) := by gcongr
        _ = |term.toReal| * 2 ^ (w + 3) := by ring
        _ < 2 ^ sum.top := by linarith
    have := (zpow_lt_zpow_iff_right₀ (by norm_num : (1 : ℝ) < 2)).mp hlt
    omega

theorem sumFrom_run (s : Series Dyadic) (w : Nat) {Inv : Nat → Dyadic → Dyadic → Prop}
    (hstep : ∀ n power sum, Inv n power sum → negligible w (s.term n (s.step n power)) sum = false →
      Inv (n + 1) (s.step n power) (sum.addTo w (s.term n (s.step n power))))
    (limit n : Nat) (power sum : Dyadic) (h : Inv n power sum) :
    ∃ n' power', Inv n' power' (s.sumFrom w limit n power sum).value ∧
      (negligible w (s.term n' (s.step n' power')) (s.sumFrom w limit n power sum).value = true ∨ n' = n + limit) := by
  induction limit generalizing n power sum with
  | zero => exact ⟨n, power, h, .inr rfl⟩
  | succ limit ih =>
    rw [sumFrom]
    split
    · rename_i hsmall
      exact ⟨n, power, h, .inl hsmall⟩
    · rename_i hlarge
      obtain ⟨n', power', hinv, hend⟩ := ih (n + 1) _ _ (hstep n power sum h (by simpa using hlarge))
      refine ⟨n', power', hinv, hend.imp_right ?_⟩
      omega

section Halving

variable {s : Series Dyadic} {w bound : Nat} {c total : ℝ} {t : Nat → ℝ} {P : Nat → Dyadic → Prop}
  (hw : 8 * bound + 8 ≤ 2 ^ w) (ht : Halving w bound t)
  (hterm : ∀ n power, 1 ≤ n → n ≤ bound → P n power →
    P (n + 1) (s.step n power) ∧ (s.term n (s.step n power)).Fits w ∧
      Roundings w (2 * n + 1) (s.term n (s.step n power)).toReal (c * t n))

structure Summed (w bound : Nat) (c : ℝ) (t : Nat → ℝ) (P : Nat → Dyadic → Prop) (n : Nat)
    (power sum : Dyadic) : Prop where
  one_le : 1 ≤ n
  le_bound : n ≤ bound
  power : P n power
  fits : sum.Fits w
  near : Roundings w (2 * n) sum.toReal (c * ∑ i ∈ Finset.range n, t i)

include hw ht hterm

theorem lt_bound_of_not_negligible {n : Nat} {power sum : Dyadic} (h : Summed w bound c t P n power sum)
    (hlarge : negligible w (s.term n (s.step n power)) sum = false) : n < bound := by
  by_contra hn
  have hbound := h.le_bound
  obtain ⟨-, -, hnear⟩ := hterm n power h.one_le hbound h.power
  have hup := hnear.abs_le_of_few (by omega)
  have hlow := h.near.half_abs_le_of_few (by omega)
  have hsmall := ht.small n (not_lt.mp hn)
  rw [abs_mul, abs_of_nonneg (ht.nonneg n)] at hup
  rw [abs_mul, abs_of_nonneg (ht.sum_nonneg n)] at hlow
  refine Bool.false_ne_true (hlarge.symm.trans (negligible_of_abs_le ?_))
  calc |(s.term n (s.step n power)).toReal| * 2 ^ (w + 3) ≤ 3 / 2 * (|c| * t n) * 2 ^ (w + 3) := by gcongr
    _ ≤ 1 / 2 * (|c| * (t n * 2 ^ (w + 5))) := by
        have hnonneg : 0 ≤ |c| * t n * 2 ^ w := mul_nonneg (mul_nonneg (abs_nonneg c) (ht.nonneg n)) (by positivity)
        rw [pow_add, pow_add]
        linarith
    _ ≤ 1 / 2 * (|c| * ∑ i ∈ Finset.range n, t i) := by gcongr
    _ ≤ |sum.toReal| := hlow

theorem summed_step {n : Nat} {power sum : Dyadic} (h : Summed w bound c t P n power sum)
    (hlarge : negligible w (s.term n (s.step n power)) sum = false) :
    Summed w bound c t P (n + 1) (s.step n power) (sum.addTo w (s.term n (s.step n power))) := by
  have hpos : 0 < w := by
    rcases Nat.eq_zero_or_pos w with rfl | hpos
    · omega
    · exact hpos
  have hlt := lt_bound_of_not_negligible hw ht hterm h hlarge
  obtain ⟨hpower, hfits, hnear⟩ := hterm n power h.one_le h.le_bound h.power
  refine ⟨by omega, hlt, hpower, Dyadic.fits_addTo hpos _ _, ?_⟩
  have hsign : 0 ≤ c * (∑ i ∈ Finset.range n, t i) * (c * t n) := by
    have hprod := mul_nonneg (ht.sum_nonneg n) (ht.nonneg n)
    nlinarith [mul_nonneg (mul_self_nonneg c) hprod]
  have hsum := (h.near.mono (Nat.le_succ _)).add hnear hsign
  rw [← mul_add, ← Finset.sum_range_succ] at hsum
  exact hsum.round (roundedOnce_addTo hpos h.fits hfits) (by omega)

theorem roundings_total_of_negligible (htotal : HasSum t total) {n : Nat} {power sum : Dyadic}
    (h : Summed w bound c t P n power sum) (hsmall : negligible w (s.term n (s.step n power)) sum) :
    Roundings w 1 (c * ∑ i ∈ Finset.range n, t i) (c * total) := by
  have hbound := h.le_bound
  obtain ⟨-, -, hnear⟩ := hterm n power h.one_le hbound h.power
  have hlow := hnear.half_abs_le_of_few (by omega)
  have hup := h.near.abs_le_of_few (by omega)
  have hle := abs_le_of_negligible hsmall
  have hrest := ht.sub_sum_le htotal h.one_le
  have hpart := ht.sum_le htotal n
  have hnonneg := ht.sum_nonneg n
  rw [abs_mul, abs_of_nonneg (ht.nonneg n)] at hlow
  rw [abs_mul, abs_of_nonneg hnonneg] at hup
  rw [two_zpow_neg_eq] at hle
  unfold Roundings
  have hu : (0 : ℝ) < 2 ^ (1 - (w : Int)) := by positivity
  generalize (2 : ℝ) ^ (1 - (w : Int)) = u at *
  generalize ∑ i ∈ Finset.range n, t i = part at *
  have hnext : 1 / 2 * (|c| * t n) ≤ u / 2 / 4 * (3 / 2 * (|c| * part)) :=
    calc 1 / 2 * (|c| * t n) ≤ u / 2 / 4 * |sum.toReal| := hlow.trans hle
      _ ≤ u / 2 / 4 * (3 / 2 * (|c| * part)) := by gcongr
  calc |c * part - c * total| = |c| * (total - part) := by
        rw [← mul_sub, abs_mul, abs_sub_comm part, abs_of_nonneg (sub_nonneg.mpr hpart)]
    _ ≤ |c| * (2 * t n) := by gcongr
    _ ≤ u * (|c| * part) := by
        have hprod : 0 ≤ u * (|c| * part) := by positivity
        linarith
    _ ≤ u * (|c| * total) := by gcongr
    _ = (1 : Nat) * u * |c * total| := by
        rw [abs_mul, abs_of_nonneg (hnonneg.trans hpart), Nat.cast_one, one_mul]

theorem sumFrom_roundings (htotal : HasSum t total) {limit : Nat} (hlimit : bound ≤ limit) {power sum : Dyadic}
    (h : Summed w bound c t P 1 power sum) :
    (s.sumFrom w limit 1 power sum).value.Fits w ∧
      Roundings w (2 * bound + 2) (s.sumFrom w limit 1 power sum).value.toReal (c * total) := by
  obtain ⟨n, power', hsummed, hend⟩ := sumFrom_run s w (fun _ _ _ => summed_step hw ht hterm) limit 1 power sum h
  have hbound := hsummed.le_bound
  have hsmall := hend.resolve_right (by omega)
  refine ⟨hsummed.fits, ?_⟩
  have hrest := roundings_total_of_negligible hw ht hterm htotal hsummed hsmall
  exact (hsummed.near.trans hrest (by omega)).mono (by omega)

end Halving

end Series

end Phasor
