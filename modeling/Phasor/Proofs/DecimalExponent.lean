import Mathlib.Algebra.Order.Floor.Semifield
import Mathlib.Data.Int.Log
import Phasor.BigFloat.Text
import Phasor.Proofs.RoundingError

namespace Phasor.BigFloat

open Decimal (tenTo)

theorem zpow_lt_zpow_of_fraction {a b p q : Nat} (ha : 0 < a) (hb : 0 < b) (h : a ^ p < b ^ q) {e m : Int}
    (hm : 0 < m) (he : e * q ≤ p * m) : (a : ℚ) ^ e < (b : ℚ) ^ m := by
  obtain ⟨k, rfl⟩ := Int.eq_ofNat_of_zero_le hm.le
  have hk : k ≠ 0 := by omega
  have haq : (1 : ℚ) ≤ a := by exact_mod_cast ha
  have hbq : (0 : ℚ) < b := by exact_mod_cast hb
  have hq : (a : ℚ) ^ p < (b : ℚ) ^ q := by exact_mod_cast h
  -- both sides are raised to `q`, so that the given powers appear
  have hpow : ((a : ℚ) ^ e) ^ q < ((b : ℚ) ^ k) ^ q := by
    calc ((a : ℚ) ^ e) ^ q = (a : ℚ) ^ (e * q) := by rw [zpow_mul, zpow_natCast]
      _ ≤ (a : ℚ) ^ ((p : Int) * k) := zpow_le_zpow_right₀ haq he
      _ = ((a : ℚ) ^ p) ^ k := by rw [zpow_mul, zpow_natCast, zpow_natCast]
      _ < ((b : ℚ) ^ q) ^ k := pow_lt_pow_left₀ hq (by positivity) hk
      _ = ((b : ℚ) ^ k) ^ q := by rw [← pow_mul, ← pow_mul, Nat.mul_comm]
  rw [zpow_natCast]
  exact lt_of_pow_lt_pow_left₀ q (by positivity) hpow

theorem fraction_outside {m : Int} (hm : 0 < m) (hm' : m < 325147 + 254370) (e : Int) :
    e * 325147 ≤ 97879 * m ∨ m * 76573 ≤ 254370 * e := by
  -- `76573 * 325147 - 97879 * 254370 = 1`: a fraction between these two has at least the sum of their denominators
  omega

theorem ten_pow_lt_two_pow : 10 ^ 97879 < 2 ^ 325147 := by decide +kernel

theorem two_pow_lt_ten_pow : 2 ^ 254370 < 10 ^ 76573 := by decide +kernel

/-- The part by which a product of two values may differ in the 64-bit format when one of them was
rounded before. -/
def slack : ℚ := 3 * 2 ^ (-53 : Int)

theorem logTenTwo64_pos : 0 < logTenTwo64.toRat := by
  rw [logTenTwo64, Dyadic.toRat_scaled]
  norm_num

theorem ten_zpow_lt_two_zpow {m : Int} (hm : 0 < m) (hm' : m < 325147 + 254370) {e : Int}
    (he : (e : ℚ) ≤ (1 + slack) * (m * logTenTwo64.toRat)) : (10 : ℚ) ^ e < 2 ^ m := by
  rcases fraction_outside hm hm' e with h | h
  · exact zpow_lt_zpow_of_fraction (by decide) (by decide) ten_pow_lt_two_pow hm h
  · exfalso
    have hq : (m : ℚ) * 76573 ≤ 254370 * e := by exact_mod_cast h
    have hmq : (0 : ℚ) < m := by exact_mod_cast hm
    rw [logTenTwo64, Dyadic.toRat_scaled, slack] at he
    norm_num at he
    linarith

theorem two_zpow_lt_ten_zpow {m : Int} (hm : 0 < m) (hm' : m < 325147 + 254370) {e : Int}
    (he : (1 - slack) * (m * logTenTwo64.toRat) ≤ e) : (2 : ℚ) ^ m < 10 ^ e := by
  rcases fraction_outside hm hm' e with h | h
  · exfalso
    have hq : (e : ℚ) * 325147 ≤ 97879 * m := by exact_mod_cast h
    have hmq : (0 : ℚ) < m := by exact_mod_cast hm
    rw [logTenTwo64, Dyadic.toRat_scaled, slack] at he
    norm_num at he
    linarith
  · have hpos : 0 < e := by omega
    exact zpow_lt_zpow_of_fraction (by decide) (by decide) two_pow_lt_ten_pow hpos h

theorem near_nearest_of_moderate {x : Dyadic} (hlow : 1 / 4 ≤ |x.toRat|) (hhigh : |x.toRat| < 2 ^ 20) :
    Near (2 ^ (-53 : Int)) (Binary64.nearest x).toRat x.toRat := by
  apply Binary64.near_nearest
  · calc (2 : ℚ) ^ (-1022 : Int) ≤ 2 ^ (-2 : Int) := zpow_le_zpow_right₀ (by norm_num) (by norm_num)
      _ ≤ |x.toRat| := by norm_num at hlow ⊢; exact hlow
  · calc |x.toRat| < 2 ^ (20 : Int) := by exact_mod_cast hhigh
      _ ≤ 2 ^ (1024 : Int) := zpow_le_zpow_right₀ (by norm_num) (by norm_num)

theorem near_guess {m : Int} (hm : m ≠ 0) (hm' : |m| < 325147 + 254370) :
    Near slack (Binary64.nearest (Binary64.nearest (.ofInt m) * logTenTwo64)).toRat (m * logTenTwo64.toRat) := by
  have hmq : (1 : ℚ) ≤ |(m : ℚ)| := by exact_mod_cast Int.one_le_abs hm
  have hmq' : |(m : ℚ)| < 325147 + 254370 := by exact_mod_cast hm'
  have hint : (Dyadic.ofInt m).toRat = m := Dyadic.toRat_intCast m
  have hlog : logTenTwo64.toRat = 5422874305198591 / 2 ^ 54 := by
    rw [logTenTwo64, Dyadic.toRat_scaled]
    norm_num
  have hfirst : Near (2 ^ (-53 : Int)) (Binary64.nearest (.ofInt m)).toRat m := by
    have := near_nearest_of_moderate (x := .ofInt m) (by rw [hint]; linarith) (by rw [hint]; linarith)
    rwa [hint] at this
  have hsize : |(Binary64.nearest (.ofInt m)).toRat - m| ≤ 2 ^ (-53 : Int) * |(m : ℚ)| := hfirst
  have hupper := abs_sub_abs_le_abs_sub (Binary64.nearest (.ofInt m)).toRat (m : ℚ)
  have hlower := abs_sub_abs_le_abs_sub (m : ℚ) (Binary64.nearest (.ofInt m)).toRat
  rw [abs_sub_comm] at hlower
  norm_num at hsize
  have hsecond := near_nearest_of_moderate (x := Binary64.nearest (.ofInt m) * logTenTwo64)
    (by rw [Dyadic.toRat_mul, hlog, abs_mul]; norm_num [abs_of_pos]; linarith)
    (by rw [Dyadic.toRat_mul, hlog, abs_mul]; norm_num [abs_of_pos]; linarith)
  rw [Dyadic.toRat_mul] at hsecond
  refine (hsecond.trans (by positivity) (hfirst.mul_right _)).mono ?_
  unfold slack
  norm_num

theorem decimalEstimate_eq_log {x : Dyadic} (hx : |x.top - 1| < 325147 + 254370) :
    decimalEstimate x = Int.log 10 ((2 : ℚ) ^ (x.top - 1)) := by
  have hbounds : (10 : ℚ) ^ decimalEstimate x ≤ 2 ^ (x.top - 1) ∧
      (2 : ℚ) ^ (x.top - 1) < 10 ^ (decimalEstimate x + 1) := by
    unfold decimalEstimate
    rw [Dyadic.floorInt_eq_floor]
    generalize x.top - 1 = m at *
    rcases Int.lt_trichotomy m 0 with hneg | rfl | hpos
    · -- below one, where the bounds of the mirrored exponent apply
      obtain ⟨n, rfl⟩ : ∃ n, m = -n := ⟨-m, (Int.neg_neg m).symm⟩
      have hn : 0 < n := by omega
      have hnear := (near_guess (by omega) hx).neg
      rw [abs_neg, abs_of_pos hn] at hx
      rw [Int.cast_neg, neg_mul, neg_neg, near_iff_of_pos (mul_pos (by exact_mod_cast hn) logTenTwo64_pos)] at hnear
      generalize (Binary64.nearest (Binary64.nearest (.ofInt (-n)) * logTenTwo64)).toRat = v at *
      have hfloor := Int.floor_le v
      have hfloor' := Int.lt_floor_add_one v
      have hlow : (2 : ℚ) ^ n < 10 ^ (-⌊v⌋) := two_zpow_lt_ten_zpow hn hx (by push_cast; linarith)
      have hhigh : (10 : ℚ) ^ (-(⌊v⌋ + 1)) < 2 ^ n := ten_zpow_lt_two_zpow hn hx (by push_cast; linarith)
      rw [zpow_neg] at hlow hhigh ⊢
      exact ⟨(le_inv_comm₀ (by positivity) (by positivity)).mp hlow.le,
        (inv_lt_comm₀ (by positivity) (by positivity)).mp hhigh⟩
    · have hzero : Binary64.nearest (Binary64.nearest (.ofInt 0) * logTenTwo64) = 0 := rfl
      rw [hzero, Dyadic.toRat_zero, Int.floor_zero]
      norm_num
    · have hnear := near_guess hpos.ne' hx
      rw [abs_of_pos hpos] at hx
      rw [near_iff_of_pos (mul_pos (by exact_mod_cast hpos) logTenTwo64_pos)] at hnear
      generalize (Binary64.nearest (Binary64.nearest (.ofInt m) * logTenTwo64)).toRat = v at *
      have hfloor := Int.floor_le v
      have hfloor' := Int.lt_floor_add_one v
      exact ⟨(ten_zpow_lt_two_zpow hpos hx (by linarith)).le, two_zpow_lt_ten_zpow hpos hx (by push_cast; linarith)⟩
  apply le_antisymm
  · exact (Int.zpow_le_iff_le_log (by decide) (by positivity)).mp (by exact_mod_cast hbounds.1)
  · exact Int.lt_add_one_iff.mp ((Int.lt_zpow_iff_log_lt (by decide) (by positivity)).mp (by exact_mod_cast hbounds.2))

theorem two_zpow_pred_top_le {x : Dyadic} (hx : x ≠ 0) : (2 : ℚ) ^ (x.top - 1) ≤ |x.toRat| := by
  rw [zpow_sub₀ (by norm_num), zpow_one, div_le_iff₀ (by norm_num), mul_comm]
  exact Dyadic.two_zpow_top_le hx

theorem abs_toRat_pos {x : Dyadic} (hx : x ≠ 0) : 0 < |x.toRat| :=
  lt_of_lt_of_le (by positivity) (two_zpow_pred_top_le hx)

theorem ten_zpow_lt_two_zpow_of_le {e : Int} (he : e ≤ 99002) : (10 : ℚ) ^ e < 2 ^ (330007 : Int) :=
  zpow_lt_zpow_of_fraction (by decide) (by decide) (by decide : 10 ^ 3 < 2 ^ 10) (by decide) (by omega)

theorem abs_top_lt {x : Dyadic} (hx : x ≠ 0) (hlog : (Int.log 10 |x.toRat|).natAbs ≤ 99001) :
    |x.top - 1| < 325147 + 254370 := by
  have hone : (1 : ℚ) < 2 := by norm_num
  have hten : ((10 : Nat) : ℚ) = 10 := by norm_num
  have htop : x.top - 1 < 330007 := by
    refine (zpow_lt_zpow_iff_right₀ hone).mp ?_
    calc (2 : ℚ) ^ (x.top - 1) ≤ |x.toRat| := two_zpow_pred_top_le hx
      _ < 10 ^ (Int.log 10 |x.toRat| + 1) := by
          rw [← hten]
          exact Int.lt_zpow_succ_log_self (by decide) _
      _ < 2 ^ (330007 : Int) := ten_zpow_lt_two_zpow_of_le (by omega)
  have htop' : -330007 < x.top := by
    refine (zpow_lt_zpow_iff_right₀ hone).mp ?_
    calc (2 : ℚ) ^ (-330007 : Int) < 10 ^ Int.log 10 |x.toRat| := by
          rw [zpow_neg, inv_lt_comm₀ (by positivity) (by positivity), ← zpow_neg]
          exact ten_zpow_lt_two_zpow_of_le (by omega)
      _ ≤ |x.toRat| := by
          rw [← hten]
          exact Int.zpow_log_le_self (by decide) (abs_toRat_pos hx)
      _ < 2 ^ x.top := x.abs_toRat_lt
  rw [abs_lt]
  omega

theorem decimalEstimate_bounds {x : Dyadic} (hx : x ≠ 0) (hlog : (Int.log 10 |x.toRat|).natAbs ≤ 99001) :
    decimalEstimate x ≤ Int.log 10 |x.toRat| ∧ Int.log 10 |x.toRat| ≤ decimalEstimate x + 1 := by
  rw [decimalEstimate_eq_log (abs_top_lt hx hlog)]
  constructor
  · exact Int.log_mono_right (by positivity) (two_zpow_pred_top_le hx)
  · have hnext := Int.lt_zpow_succ_log_self (R := ℚ) (b := 10) (by decide) (2 ^ (x.top - 1))
    generalize Int.log 10 ((2 : ℚ) ^ (x.top - 1)) = e at *
    have hten : ((10 : Nat) : ℚ) ^ (e + 1 + 1) = 10 * ((10 : Nat) : ℚ) ^ (e + 1) := by
      rw [zpow_add₀ (by norm_num) (e + 1), zpow_one, mul_comm]
      norm_num
    have htwo : (2 : ℚ) ^ x.top = 2 * 2 ^ (x.top - 1) := by
      rw [zpow_sub₀ (by norm_num), zpow_one]
      ring
    have hpos : (0 : ℚ) < 2 ^ (x.top - 1) := by positivity
    refine Int.lt_add_one_iff.mp ((Int.lt_zpow_iff_log_lt (by decide) (abs_toRat_pos hx)).mp ?_)
    rw [hten]
    have := x.abs_toRat_lt
    linarith

def rounded (a : ℚ) (k : Int) : Nat := ⌊a * 10 ^ ((digits : Int) - 1 - k) + 1 / 2⌋₊

theorem pow_toNat_div_pow_toNat {b : ℚ} (hb : b ≠ 0) (k : Int) : b ^ k.toNat / b ^ (-k).toNat = b ^ k := by
  rw [div_eq_iff (pow_ne_zero _ hb), ← zpow_natCast, ← zpow_natCast, ← zpow_add₀ hb]
  congr 1
  omega

theorem decimalScaled_eq_rounded (x : Dyadic) (k : Int) :
    decimalScaled x ((digits : Int) - 1 - k) = rounded |x.toRat| k := by
  have hten := pow_toNat_div_pow_toNat (b := 10) (by norm_num) ((digits : Int) - 1 - k)
  have htwo := pow_toNat_div_pow_toNat (b := 2) (by norm_num) x.exponent
  unfold rounded decimalScaled tenTo
  generalize (digits : Int) - 1 - k = p at *
  rw [Dyadic.abs_toRat, ← hten, ← htwo, ← Nat.floor_div_eq_div (K := ℚ)]
  simp only [Nat.shiftLeft_eq, Nat.pow_eq]
  congr 1
  push_cast
  field_simp

theorem rounded_anti {a : ℚ} (ha : 0 ≤ a) {k l : Int} (h : k ≤ l) : rounded a l ≤ rounded a k := by
  apply Nat.floor_le_floor
  gcongr
  norm_num

/-- `n` is what the digits of `a` are rounded to, and `k` is the least exponent at which they are
not too many. -/
structure Settled (a : ℚ) (n : Nat) (k : Int) : Prop where
  rounded_eq : rounded a k = n
  few : n < 10 ^ digits
  least : 10 ^ digits ≤ rounded a (k - 1)

theorem settled_iff {a : ℚ} (ha : 0 ≤ a) {n : Nat} {k : Int} : Settled a n k ↔
    (n : ℚ) ≤ a * 10 ^ (24 - k) + 1 / 2 ∧ a * 10 ^ (24 - k) + 1 / 2 < n + 1 ∧ n < 10 ^ digits ∧
      (10 : ℚ) ^ digits ≤ 10 * (a * 10 ^ (24 - k)) + 1 / 2 := by
  have hexp : (digits : Int) - 1 - k = 24 - k := by
    unfold digits
    omega
  have hpred : a * 10 ^ ((digits : Int) - 1 - (k - 1)) = 10 * (a * 10 ^ (24 - k)) := by
    rw [show (digits : Int) - 1 - (k - 1) = 24 - k + 1 by unfold digits; omega, zpow_add₀ (by norm_num), zpow_one]
    ring
  have hnonneg : 0 ≤ a * 10 ^ (24 - k) + 1 / 2 := by positivity
  have hfloor : rounded a k = n ↔ (n : ℚ) ≤ a * 10 ^ (24 - k) + 1 / 2 ∧ a * 10 ^ (24 - k) + 1 / 2 < n + 1 := by
    rw [rounded, hexp, Nat.floor_eq_iff hnonneg]
  have hleast : 10 ^ digits ≤ rounded a (k - 1) ↔ (10 : ℚ) ^ digits ≤ 10 * (a * 10 ^ (24 - k)) + 1 / 2 := by
    rw [rounded, hpred, Nat.le_floor_iff (by positivity)]
    push_cast
    rfl
  constructor
  · intro h
    obtain ⟨hlow, hhigh⟩ := hfloor.mp h.rounded_eq
    exact ⟨hlow, hhigh, h.few, hleast.mp h.least⟩
  · rintro ⟨hlow, hhigh, hfew, hmany⟩
    exact ⟨hfloor.mpr ⟨hlow, hhigh⟩, hfew, hleast.mpr hmany⟩

theorem Settled.many {a : ℚ} (ha : 0 ≤ a) {n : Nat} {k : Int} (h : Settled a n k) : 10 ^ (digits - 1) ≤ n := by
  obtain ⟨-, hhigh, -, hmany⟩ := (settled_iff ha).mp h
  by_contra hlt
  have hn : (n : ℚ) + 1 ≤ 10 ^ (digits - 1) := by exact_mod_cast Nat.succ_le_of_lt (Nat.lt_of_not_le hlt)
  norm_num [digits] at hmany hn
  linarith

theorem settleExponent_succ (x : Dyadic) (fuel : Nat) (k : Int) (last : Nat) :
    settleExponent x (fuel + 1) k last =
      if 10 ^ digits ≤ rounded |x.toRat| k then settleExponent x fuel (k + 1) (rounded |x.toRat| k)
      else if rounded |x.toRat| k < 10 ^ (digits - 1) then settleExponent x fuel (k - 1) (rounded |x.toRat| k)
      else (rounded |x.toRat| k, k) := by
  rw [← decimalScaled_eq_rounded]
  rfl

theorem Settled.settleExponent_eq {x : Dyadic} {n : Nat} {k : Int} (h : Settled |x.toRat| n k) {fuel : Nat} {k₀ : Int}
    (hk : k₀ ≤ k) (hfuel : k - k₀ < fuel) (last : Nat) : settleExponent x fuel k₀ last = (n, k) := by
  -- below `k` there are too many digits at every exponent, so the loop only moves up
  induction fuel generalizing k₀ last with
  | zero => omega
  | succ fuel ih =>
    rw [settleExponent_succ]
    rcases Int.lt_or_eq_of_le hk with hlt | rfl
    · have hmany : 10 ^ digits ≤ rounded |x.toRat| k₀ :=
        h.least.trans (rounded_anti (abs_nonneg _) (by omega))
      rw [if_pos hmany]
      exact ih (by omega) (by omega) _
    · rw [h.rounded_eq, if_neg (Nat.not_le.mpr h.few), if_neg (Nat.not_lt.mpr (h.many (abs_nonneg _)))]

theorem le_rounded_of_zpow_le {a : ℚ} {k : Int} (h : 10 ^ (k + 1) ≤ a) : 10 ^ digits ≤ rounded a k := by
  have hpow : (10 : ℚ) ^ digits = 10 ^ (k + 1) * 10 ^ ((digits : Int) - 1 - k) := by
    rw [← zpow_add₀ (by norm_num), ← zpow_natCast]
    congr 1
    omega
  have hscaled : (10 : ℚ) ^ (k + 1) * 10 ^ ((digits : Int) - 1 - k) ≤ a * 10 ^ ((digits : Int) - 1 - k) := by gcongr
  apply Nat.le_floor
  push_cast
  linarith

theorem rounded_lt_of_lt_zpow {a : ℚ} {k : Int} (h : a < 10 ^ k) : rounded a k < 10 ^ digits := by
  have hpow : (10 : ℚ) ^ k * 10 ^ ((digits : Int) - 1 - k) = 10 ^ 24 := by
    rw [← zpow_add₀ (by norm_num), ← zpow_natCast]
    congr 1
    unfold digits
    omega
  have hscaled : a * 10 ^ ((digits : Int) - 1 - k) ≤ 10 ^ k * 10 ^ ((digits : Int) - 1 - k) := by gcongr
  rw [rounded, Nat.floor_lt' (by norm_num [digits])]
  norm_num [digits] at *
  linarith

theorem le_rounded_pred_log {a : ℚ} (ha : 0 < a) : 10 ^ digits ≤ rounded a (Int.log 10 a - 1) := by
  apply le_rounded_of_zpow_le
  rw [sub_add_cancel]
  exact Int.zpow_log_le_self (b := 10) (by decide) ha

theorem rounded_succ_log_lt (a : ℚ) : rounded a (Int.log 10 a + 1) < 10 ^ digits :=
  rounded_lt_of_lt_zpow (Int.lt_zpow_succ_log_self (b := 10) (by decide) a)

theorem exists_settled {a : ℚ} (ha : 0 < a) : ∃ n k, Settled a n k := by
  by_cases hfew : rounded a (Int.log 10 a) < 10 ^ digits
  · exact ⟨_, _, rfl, hfew, le_rounded_pred_log ha⟩
  · refine ⟨_, _, rfl, rounded_succ_log_lt a, ?_⟩
    rw [add_sub_cancel_right]
    exact Nat.not_lt.mp hfew

theorem Settled.log_bounds {a : ℚ} (ha : 0 < a) {n : Nat} {k : Int} (h : Settled a n k) :
    Int.log 10 a ≤ k ∧ k ≤ Int.log 10 a + 1 := by
  constructor
  · by_contra hlt
    have hmany := (le_rounded_pred_log ha).trans (rounded_anti ha.le (show k ≤ Int.log 10 a - 1 by omega))
    rw [h.rounded_eq] at hmany
    exact absurd h.few (Nat.not_lt.mpr hmany)
  · by_contra hlt
    have hfew := h.least.trans (rounded_anti ha.le (show Int.log 10 a + 1 ≤ k - 1 by omega))
    exact absurd (rounded_succ_log_lt a) (Nat.not_lt.mpr hfew)

theorem Settled.settle_estimate {x : Dyadic} (hx : x ≠ 0) (hlog : (Int.log 10 |x.toRat|).natAbs ≤ 99001) {n : Nat}
    {k : Int} (h : Settled |x.toRat| n k) : settleExponent x 4 (decimalEstimate x) 0 = (n, k) := by
  obtain ⟨hlow, hhigh⟩ := h.log_bounds (abs_toRat_pos hx)
  obtain ⟨hguess, hguess'⟩ := decimalEstimate_bounds hx hlog
  exact h.settleExponent_eq (by omega) (by omega) 0

theorem mul_zpow_cancel (a : ℚ) (k : Int) : a * 10 ^ (k - 24) * 10 ^ (24 - k) = a := by
  rw [mul_assoc, ← zpow_add₀ (by norm_num), sub_add_sub_cancel, sub_self, zpow_zero, mul_one]

theorem Settled.of_near {a b : ℚ} {n : Nat} {k : Int} (ha : 0 ≤ a) (h : Settled a n k)
    (hb : Near (2 ^ (-95 : Int)) b (n * 10 ^ (k - 24))) : 0 < b ∧ Settled b n k := by
  -- Ninety-five binary digits hold apart what has 25 decimal ones, also just below a power of ten.
  have hmany : (10 : ℚ) ^ 24 ≤ n := by exact_mod_cast h.many ha
  have hfew : (n : ℚ) + 1 ≤ 10 ^ 25 := by exact_mod_cast Nat.succ_le_of_lt h.few
  have hscaled := hb.mul_right (10 ^ (24 - k))
  rw [mul_zpow_cancel, near_iff_of_pos (lt_of_lt_of_le (by positivity) hmany)] at hscaled
  norm_num at hscaled
  have hpos : 0 < b * 10 ^ (24 - k) := by linarith
  have hb : 0 < b := pos_of_mul_pos_left hpos (by positivity)
  refine ⟨hb, (settled_iff hb.le).mpr ⟨?_, ?_, h.few, ?_⟩⟩
  · linarith
  · linarith
  · unfold digits
    linarith

theorem Settled.near {a : ℚ} {n : Nat} {k : Int} (ha : 0 ≤ a) (h : Settled a n k) :
    Near (3 / 4 * 10 ^ (-24 : Int)) (n * 10 ^ (k - 24)) a := by
  obtain ⟨hlow, hhigh, -, hmany⟩ := (settled_iff ha).mp h
  have hscaled : Near (3 / 4 * 10 ^ (-24 : Int)) (n : ℚ) (a * 10 ^ (24 - k)) := by
    unfold Near
    unfold digits at hmany
    rw [abs_of_nonneg (by positivity : 0 ≤ a * 10 ^ (24 - k)), abs_le]
    norm_num
    constructor <;> linarith
  have hback := hscaled.mul_right (10 ^ (k - 24))
  rwa [mul_assoc, ← zpow_add₀ (by norm_num), sub_add_sub_cancel', sub_self, zpow_zero, mul_one] at hback

end Phasor.BigFloat
