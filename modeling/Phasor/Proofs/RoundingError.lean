import Mathlib.Algebra.Order.Field.Power
import Mathlib.Data.Rat.Floor
import Mathlib.Tactic.FieldSimp
import Mathlib.Tactic.GCongr
import Mathlib.Tactic.Linarith
import Mathlib.Tactic.LinearCombination
import Mathlib.Tactic.Positivity
import Phasor.Binary64
import Phasor.Proofs.Mantissa

namespace Phasor

def Near (δ a b : ℚ) : Prop := |a - b| ≤ δ * |b|

theorem Near.trans {δ ε a b c : ℚ} (hδ : 0 ≤ δ) (hab : Near δ a b) (hbc : Near ε b c) :
    Near (δ + ε + δ * ε) a c := by
  unfold Near at *
  have hb : |b| ≤ |c| + ε * |c| := by
    have := abs_sub_abs_le_abs_sub b c
    linarith
  calc |a - c| ≤ |a - b| + |b - c| := abs_sub_le a b c
    _ ≤ δ * |b| + ε * |c| := add_le_add hab hbc
    _ ≤ δ * (|c| + ε * |c|) + ε * |c| := by gcongr
    _ = (δ + ε + δ * ε) * |c| := by ring

theorem Near.mono {δ ε a b : ℚ} (hab : Near δ a b) (h : δ ≤ ε) : Near ε a b :=
  le_trans hab (mul_le_mul_of_nonneg_right h (abs_nonneg b))

theorem Near.refl {δ : ℚ} (hδ : 0 ≤ δ) (a : ℚ) : Near δ a a := by
  unfold Near
  rw [sub_self, abs_zero]
  positivity

theorem Near.mul_right {δ a b : ℚ} (h : Near δ a b) (c : ℚ) : Near δ (a * c) (b * c) := by
  unfold Near at *
  rw [← sub_mul, abs_mul, abs_mul, ← mul_assoc]
  exact mul_le_mul_of_nonneg_right h (abs_nonneg c)

theorem Near.neg {δ a b : ℚ} (h : Near δ a b) : Near δ (-a) (-b) := by
  unfold Near at *
  rwa [abs_neg, neg_sub_neg, abs_sub_comm]

theorem near_iff_of_pos {δ a b : ℚ} (hb : 0 < b) : Near δ a b ↔ (1 - δ) * b ≤ a ∧ a ≤ (1 + δ) * b := by
  unfold Near
  rw [abs_of_pos hb, abs_le]
  constructor
  · rintro ⟨h, h'⟩
    constructor <;> linarith
  · rintro ⟨h, h'⟩
    constructor <;> linarith

end Phasor

namespace Dyadic

open Phasor (Near)

theorem lt_two_pow_bitLength (n : Nat) : n < 2 ^ bitLength n :=
  bitLength_le_iff.mp (Nat.le_refl _)

theorem two_pow_bitLength_le {n : Nat} (h : n ≠ 0) : 2 ^ bitLength n ≤ 2 * n := by
  rw [bitLength, if_neg h, Nat.pow_succ, Nat.mul_comm]
  exact Nat.mul_le_mul_left 2 (Nat.log2_self_le h)

theorem toRat_scaled (m e : Int) : (scaled m e).toRat = m * 2 ^ e := by
  rw [scaled, toRat_ofIntWithPrec_eq_mul_two_pow, neg_neg]

theorem abs_toRat (x : Dyadic) : |x.toRat| = x.mantissa.natAbs * 2 ^ x.exponent := by
  rw [toRat_eq_mantissa_mul, abs_mul, abs_of_pos (by positivity : (0 : ℚ) < 2 ^ x.exponent),
    Nat.cast_natAbs, Int.cast_abs]

theorem mantissa_ne_zero {x : Dyadic} (h : x ≠ 0) : x.mantissa ≠ 0 := by
  have := mantissa_mod_two h
  omega

theorem abs_toRat_lt (x : Dyadic) : |x.toRat| < 2 ^ x.top := by
  rw [abs_toRat, top, Int.add_comm, zpow_add₀ (by norm_num), zpow_natCast]
  gcongr
  exact_mod_cast lt_two_pow_bitLength _

theorem two_zpow_top_le {x : Dyadic} (h : x ≠ 0) : 2 ^ x.top ≤ 2 * |x.toRat| := by
  have hbits : ((2 ^ bitLength x.mantissa.natAbs : Nat) : ℚ) ≤ (2 * x.mantissa.natAbs : Nat) :=
    Nat.cast_le.mpr (two_pow_bitLength_le (Int.natAbs_ne_zero.mpr (mantissa_ne_zero h)))
  push_cast at hbits
  calc (2 : ℚ) ^ x.top = 2 ^ x.exponent * 2 ^ bitLength x.mantissa.natAbs := by
        rw [top, zpow_add₀ (by norm_num), zpow_natCast]
    _ ≤ 2 ^ x.exponent * (2 * x.mantissa.natAbs) := by gcongr
    _ = 2 * |x.toRat| := by rw [abs_toRat]; ring

theorem floorInt_eq_floor (x : Dyadic) : x.floorInt = ⌊x.toRat⌋ := by
  rw [toRat_eq_mantissa_mul, floorInt]
  split
  · rename_i h
    obtain ⟨k, hk⟩ := Int.eq_ofNat_of_zero_le h
    have hint : (x.mantissa : ℚ) * 2 ^ (k : Int) = ((x.mantissa * 2 ^ k : Int) : ℚ) := by
      rw [zpow_natCast]
      push_cast
      rfl
    rw [hk, hint, Int.floor_intCast, Int.toNat_natCast, Int.shiftLeft_eq]
  · rename_i h
    obtain ⟨k, hk⟩ := Int.eq_ofNat_of_zero_le (Int.neg_nonneg_of_nonpos (Int.le_of_lt (Int.not_le.mp h)))
    have hdiv : (x.mantissa : ℚ) * 2 ^ x.exponent = x.mantissa / ((2 ^ k : Nat) : ℚ) := by
      rw [← neg_neg x.exponent, hk, zpow_neg, zpow_natCast, div_eq_mul_inv]
      push_cast
      rfl
    rw [hk, hdiv, Rat.floor_intCast_div_natCast, Int.toNat_natCast, Int.shiftRight_eq_div_pow]

theorem halfUp_bounds (a : Nat) {w : Nat} (hw : 0 < w) :
    a ≤ (a / w + 1) / 2 * (2 * w) + w ∧ (a / w + 1) / 2 * (2 * w) ≤ a + w := by
  have hlow : a / w ≤ (a / w + 1) / 2 * 2 := by omega
  have hhigh : (a / w + 1) / 2 * 2 ≤ a / w + 1 := by omega
  have hlow' := Nat.mul_le_mul_right w hlow
  have hhigh' := Nat.mul_le_mul_right w hhigh
  have hle := Nat.div_mul_le_self a w
  have hlt := Nat.lt_div_mul_add hw (a := a)
  rw [Nat.mul_assoc] at hlow' hhigh'
  rw [Nat.add_mul] at hhigh'
  omega

theorem abs_shiftRound_succ_sub_le (n : Int) (s : Nat) : |shiftRound n (s + 1) * 2 ^ (s + 1) - n| ≤ 2 ^ s := by
  have hmag : |(((n.natAbs / 2 ^ s + 1) / 2 : Nat) : Int) * 2 ^ (s + 1) - n.natAbs| ≤ 2 ^ s := by
    obtain ⟨hlow, hhigh⟩ := halfUp_bounds n.natAbs (Nat.two_pow_pos s)
    generalize (n.natAbs / 2 ^ s + 1) / 2 = q at *
    have hpow : (q : Int) * 2 ^ (s + 1) = ((q * (2 * 2 ^ s) : Nat) : Int) := by
      push_cast
      ring
    have hlast : (2 : Int) ^ s = ((2 ^ s : Nat) : Int) := by push_cast; rfl
    rw [hpow, hlast, abs_le]
    omega
  have hsign : |n.sign| ≤ 1 := by
    rcases Int.lt_trichotomy n 0 with h | rfl | h
    · simp [Int.sign_eq_neg_one_of_neg h]
    · simp
    · simp [Int.sign_eq_one_of_pos h]
  have hsplit : shiftRound n (s + 1) * 2 ^ (s + 1) - n =
      n.sign * ((((n.natAbs / 2 ^ s + 1) / 2 : Nat) : Int) * 2 ^ (s + 1) - n.natAbs) := by
    have h := Int.sign_mul_natAbs n
    rw [shiftRound, Nat.shiftRight_eq_div_pow, Nat.shiftRight_eq_div_pow, pow_one]
    linear_combination h
  calc |shiftRound n (s + 1) * 2 ^ (s + 1) - n|
      = |n.sign| * |(((n.natAbs / 2 ^ s + 1) / 2 : Nat) : Int) * 2 ^ (s + 1) - n.natAbs| := by rw [hsplit, abs_mul]
    _ ≤ 1 * 2 ^ s := mul_le_mul hsign hmag (abs_nonneg _) (by decide)
    _ = 2 ^ s := Int.one_mul _

theorem near_roundScaled (p : Nat) (m e : Int) : Near (2 ^ (-(p : Int))) (roundScaled p m e).toRat (m * 2 ^ e) := by
  rw [roundScaled, toRat_scaled]
  rcases hs : bitLength m.natAbs - p with _ | s
  · rw [Nat.cast_zero, Int.add_zero]
    exact Near.refl (by positivity) _
  · have hm : m.natAbs ≠ 0 := by
      intro h
      rw [h] at hs
      exact absurd hs (by simp [bitLength])
    -- the last place is at most `2 ^ (1 - p)` of the number
    have hbits : bitLength m.natAbs = s + 1 + p := by omega
    have hsize := two_pow_bitLength_le hm
    have hround := abs_shiftRound_succ_sub_le m s
    have hsizeq : (2 : ℚ) ^ (s + 1) * 2 ^ p ≤ 2 * |(m : ℚ)| := by
      rw [hbits, Nat.pow_add] at hsize
      have hcast : ((2 ^ (s + 1) * 2 ^ p : Nat) : ℚ) ≤ (2 * m.natAbs : Nat) := Nat.cast_le.mpr hsize
      push_cast [Nat.cast_natAbs] at hcast
      exact hcast
    have hroundq : |(shiftRound m (s + 1) : ℚ) * 2 ^ (s + 1) - m| ≤ 2 ^ s := by
      exact_mod_cast hround
    have hhalf : (2 : ℚ) ^ s ≤ 2 ^ (-(p : Int)) * |(m : ℚ)| := by
      rw [zpow_neg, zpow_natCast, inv_mul_eq_div, le_div_iff₀ (by positivity)]
      rw [pow_succ] at hsizeq
      linarith
    have hscale : Near (2 ^ (-(p : Int))) (shiftRound m (s + 1) * 2 ^ (s + 1)) (m : ℚ) := hroundq.trans hhalf
    have hexp : (2 : ℚ) ^ (e + ((s + 1 : Nat) : Int)) = 2 ^ (s + 1) * 2 ^ e := by
      rw [zpow_add₀ (by norm_num), zpow_natCast]
      ring
    have := hscale.mul_right (2 ^ e)
    rw [hexp]
    convert this using 1
    ring

theorem abs_tdiv_sub_le (a : Int) {d : Int} (hd : d ≠ 0) : |(a.tdiv d : ℚ) - a / d| ≤ 1 := by
  have hdq : (0 : ℚ) < |(d : ℚ)| := abs_pos.mpr (Int.cast_ne_zero.mpr hd)
  have hrem : |((a.tmod d : Int) : ℚ)| ≤ |(d : ℚ)| := by
    have hlt := Nat.mod_lt a.natAbs (Int.natAbs_pos.mpr hd)
    rw [← Int.natAbs_tmod] at hlt
    have hle : |a.tmod d| ≤ |d| := by
      rw [Int.abs_eq_natAbs, Int.abs_eq_natAbs]
      omega
    exact_mod_cast hle
  have hsplit : (a.tdiv d : ℚ) - a / d = -(a.tmod d : Int) / d := by
    have h : ((d * a.tdiv d + a.tmod d : Int) : ℚ) = a := congrArg _ (Int.mul_tdiv_add_tmod a d)
    push_cast at h
    have hne : (d : ℚ) ≠ 0 := Int.cast_ne_zero.mpr hd
    field_simp
    linear_combination h
  rw [hsplit, abs_div, abs_neg, div_le_one hdq]
  exact hrem

theorem wide_quotient (p : Nat) {n d : Int} (hn : n ≠ 0) :
    2 ^ (p + 1) * d.natAbs ≤ n.natAbs * 2 ^ (p + 2 + bitLength d.natAbs - bitLength n.natAbs) := by
  generalize hs : p + 2 + bitLength d.natAbs - bitLength n.natAbs = s
  have hnum := Nat.mul_le_mul_right (2 ^ s) (two_pow_bitLength_le (Int.natAbs_ne_zero.mpr hn))
  have hden := Nat.mul_le_mul_left (2 ^ (p + 2)) (lt_two_pow_bitLength d.natAbs).le
  have hexp : 2 ^ (p + 2) * 2 ^ bitLength d.natAbs ≤ 2 ^ bitLength n.natAbs * 2 ^ s := by
    rw [← Nat.pow_add, ← Nat.pow_add]
    exact Nat.pow_le_pow_right (by decide) (by omega)
  rw [Nat.mul_assoc] at hnum
  have htotal := (hden.trans hexp).trans hnum
  rw [Nat.pow_succ, Nat.mul_comm _ 2, Nat.mul_assoc] at htotal
  omega

theorem near_tdiv (p : Nat) (n : Int) {d : Int} (hd : d ≠ 0) :
    Near (2 ^ (-(p : Int) - 1)) (((n <<< (p + 2 + bitLength d.natAbs - bitLength n.natAbs)).tdiv d : Int) : ℚ)
      ((n <<< (p + 2 + bitLength d.natAbs - bitLength n.natAbs) : Int) / d) := by
  by_cases hn : n = 0
  · rw [hn]
    simp [Near]
  · have hwide := wide_quotient p (d := d) hn
    generalize p + 2 + bitLength d.natAbs - bitLength n.natAbs = s at *
    have hwideq : (2 : ℚ) ^ (p + 1) * |(d : ℚ)| ≤ |(n : ℚ)| * 2 ^ s := by
      have hcast : ((2 ^ (p + 1) * d.natAbs : Nat) : ℚ) ≤ (n.natAbs * 2 ^ s : Nat) := Nat.cast_le.mpr hwide
      push_cast [Nat.cast_natAbs] at hcast
      exact hcast
    have hdq : (0 : ℚ) < |(d : ℚ)| := abs_pos.mpr (Int.cast_ne_zero.mpr hd)
    have hexp : -(p : Int) - 1 = -((p + 1 : Nat) : Int) := by
      push_cast
      ring
    refine le_trans (abs_tdiv_sub_le _ hd) ?_
    rw [Int.shiftLeft_eq, hexp, zpow_neg, zpow_natCast, inv_mul_eq_div, le_div_iff₀ (by positivity), Int.cast_mul,
      abs_div, abs_mul, le_div_iff₀ hdq]
    push_cast
    rw [abs_of_pos (by positivity : (0 : ℚ) < 2 ^ s)]
    linarith

theorem near_roundQuotient (p : Nat) (n : Int) {d : Int} (hd : d ≠ 0) (e : Int) :
    Near (2 ^ (1 - (p : Int))) (roundQuotient p n d e).toRat (n / d * 2 ^ e) := by
  have hquot := near_tdiv p n hd
  rw [roundQuotient]
  generalize p + 2 + bitLength d.natAbs - bitLength n.natAbs = s at *
  have hback : (n : ℚ) / d * 2 ^ e = (n <<< s : Int) / d * 2 ^ (e - (s : Int)) := by
    rw [Int.shiftLeft_eq, zpow_sub₀ (by norm_num), zpow_natCast]
    push_cast
    field_simp
  rw [hback]
  refine ((near_roundScaled p _ _).trans (by positivity) (hquot.mul_right _)).mono ?_
  -- the quotient costs half of what the rounding costs, and their product is less than the other half
  have hhalf : (2 : ℚ) ^ (-(p : Int) - 1) = 2 ^ (-(p : Int)) / 2 := by
    rw [zpow_sub₀ (by norm_num), zpow_one]
  have hdouble : (2 : ℚ) ^ (1 - (p : Int)) = 2 * 2 ^ (-(p : Int)) := by
    rw [sub_eq_add_neg, zpow_add₀ (by norm_num), zpow_one]
  have hone : (2 : ℚ) ^ (-(p : Int)) ≤ 1 := by
    rw [zpow_neg, zpow_natCast]
    exact inv_le_one_of_one_le₀ (one_le_pow₀ (by norm_num))
  have hpos : (0 : ℚ) < 2 ^ (-(p : Int)) := by positivity
  rw [hdouble, hhalf]
  nlinarith

end Dyadic

namespace Phasor.Binary64

open Dyadic (bitLength lt_two_pow_bitLength two_pow_bitLength_le toRat_scaled)

theorem shiftEven_bounds (m s : Nat) :
    2 * m ≤ 2 * (shiftEven m s * 2 ^ s) + 2 ^ s ∧ 2 * (shiftEven m s * 2 ^ s) ≤ 2 * m + 2 ^ s := by
  have hdiv := Nat.div_add_mod m (2 ^ s)
  have hmod := Nat.mod_lt m (Nat.two_pow_pos s)
  rw [Nat.mul_comm] at hdiv
  unfold shiftEven
  simp only [Nat.shiftRight_eq_div_pow, Nat.shiftLeft_eq, Nat.one_mul]
  generalize m / 2 ^ s = q at *
  split
  · rename_i h
    rw [Nat.add_mul]
    omega
  · rename_i h
    omega

theorem shiftEven_zero (m : Nat) : shiftEven m 0 = m := by
  obtain ⟨hlow, hhigh⟩ := shiftEven_bounds m 0
  omega

theorem shiftEven_range {m s : Nat} (hlow : 2 ^ (52 + s) ≤ m) (hhigh : m < 2 ^ (53 + s)) :
    2 ^ 52 ≤ shiftEven m s ∧ shiftEven m s ≤ 2 ^ 53 := by
  have hquot : 2 ^ 52 ≤ m / 2 ^ s := by
    rw [Nat.le_div_iff_mul_le (Nat.two_pow_pos s), ← Nat.pow_add]
    exact hlow
  have hquot' : m / 2 ^ s < 2 ^ 53 := by
    rw [Nat.div_lt_iff_lt_mul (Nat.two_pow_pos s), ← Nat.pow_add]
    exact hhigh
  unfold shiftEven
  simp only [Nat.shiftRight_eq_div_pow]
  split <;> omega

theorem toRat_magnitude (f : Nat) {q : Nat} (hlow : 2 ^ 52 ≤ q) (hhigh : q ≤ 2 ^ 53) :
    (magnitude (f <<< 52 + q)).toRat = q * 2 ^ ((f : Int) - 1074) := by
  unfold magnitude
  simp only [Nat.shiftLeft_eq, Nat.shiftRight_eq_div_pow, Nat.one_mul]
  rcases hhigh.lt_or_eq with hlt | rfl
  · have hfield : (f * 2 ^ 52 + q) / 2 ^ 52 = f + 1 := by omega
    have hfraction : (f * 2 ^ 52 + q) % 2 ^ 52 + 2 ^ 52 = q := by omega
    rw [hfield, if_neg (Nat.succ_ne_zero f), hfraction, toRat_scaled]
    have hexp : ((f + 1 : Nat) : Int) - 1075 = f - 1074 := by omega
    rw [hexp, Int.cast_natCast]
  · have hfield : (f * 2 ^ 52 + 2 ^ 53) / 2 ^ 52 = f + 1 + 1 := by omega
    have hfraction : (f * 2 ^ 52 + 2 ^ 53) % 2 ^ 52 + 2 ^ 52 = 2 ^ 52 := by omega
    rw [hfield, if_neg (Nat.succ_ne_zero (f + 1)), hfraction, toRat_scaled]
    have hexp : ((f + 1 + 1 : Nat) : Int) - 1075 = (f - 1074) + 1 := by omega
    rw [hexp, zpow_add₀ (by norm_num), zpow_one]
    push_cast
    ring

theorem near_shiftEven {m s : Nat} (hlow : 2 ^ (52 + s) ≤ m) :
    Near (2 ^ (-53 : Int)) (shiftEven m s * 2 ^ s) (m : ℚ) := by
  obtain ⟨hleft, hright⟩ := shiftEven_bounds m s
  have hleftq : (2 : ℚ) * m ≤ 2 * (shiftEven m s * 2 ^ s) + 2 ^ s := by exact_mod_cast hleft
  have hrightq : (2 : ℚ) * (shiftEven m s * 2 ^ s) ≤ 2 * m + 2 ^ s := by exact_mod_cast hright
  have hlowq : (2 : ℚ) ^ 52 * 2 ^ s ≤ m := by
    rw [← pow_add]
    exact_mod_cast hlow
  unfold Near
  rw [Nat.abs_cast, abs_le]
  constructor <;> norm_num <;> linarith

section Normal

variable {m : Nat} {e : Int} (hm : m ≠ 0) (hlow : -1021 ≤ e + bitLength m) (hhigh : e + bitLength m ≤ 1024)

include hm hlow hhigh

theorem ofScaled_eq : ofScaled m e = (e + (bitLength m : Int) - 53 + 1074).toNat <<< 52 +
    if 53 ≤ bitLength m then shiftEven m (bitLength m - 53) else m <<< (53 - bitLength m) := by
  have hunit : max (e + (bitLength m : Int) - 53) (-1074) = e + bitLength m - 53 := by omega
  simp only [ofScaled]
  rw [if_neg (by omega), if_neg (by omega), hunit]
  by_cases hwide : 53 ≤ bitLength m
  · have hshift : (e + (bitLength m : Int) - 53 - e).toNat = bitLength m - 53 := by omega
    rw [if_pos (by omega), if_pos hwide, hshift]
  · have hshift : (e - (e + (bitLength m : Int) - 53)).toNat = 53 - bitLength m := by omega
    rw [if_neg (by omega), if_neg hwide, hshift]

theorem near_magnitude_of_wide (hwide : 53 ≤ bitLength m) :
    Near (2 ^ (-53 : Int)) (magnitude (ofScaled m e)).toRat (m * 2 ^ e) := by
  have hsize := two_pow_bitLength_le hm
  have hsize' := lt_two_pow_bitLength m
  rw [ofScaled_eq hm hlow hhigh, if_pos hwide]
  obtain ⟨s, hs⟩ := Nat.exists_eq_add_of_le hwide
  rw [hs, Nat.add_sub_cancel_left]
  rw [hs] at hsize hsize'
  have hlead : 2 ^ (52 + s) ≤ m := by
    rw [Nat.add_comm, Nat.pow_succ] at hsize
    rw [Nat.add_comm]
    omega
  obtain ⟨hq, hq'⟩ := shiftEven_range hlead hsize'
  have hexp : ((e + ((53 + s : Nat) : Int) - 53 + 1074).toNat : Int) - 1074 = s + e := by omega
  rw [toRat_magnitude _ hq hq', hexp, zpow_add₀ (by norm_num), zpow_natCast, ← mul_assoc]
  exact (near_shiftEven hlead).mul_right _

theorem toRat_magnitude_of_narrow (hnarrow : bitLength m < 53) : (magnitude (ofScaled m e)).toRat = m * 2 ^ e := by
  have hsize := two_pow_bitLength_le hm
  have hsize' := lt_two_pow_bitLength m
  rw [ofScaled_eq hm hlow hhigh, if_neg (Nat.not_le.mpr hnarrow)]
  obtain ⟨s, hs⟩ := Nat.exists_eq_add_of_le hnarrow.le
  have hroom : 53 - bitLength m = s := by omega
  have hq : 2 ^ 52 ≤ m * 2 ^ s := by
    have := Nat.mul_le_mul_right (2 ^ s) hsize
    rw [← Nat.pow_add, ← hs, Nat.mul_assoc] at this
    omega
  have hq' : m * 2 ^ s ≤ 2 ^ 53 := by
    rw [hs, Nat.pow_add]
    exact Nat.mul_le_mul_right _ hsize'.le
  have hexp : ((e + (bitLength m : Int) - 53 + 1074).toNat : Int) - 1074 = e - s := by omega
  rw [hroom, Nat.shiftLeft_eq m s, toRat_magnitude _ hq hq', hexp, zpow_sub₀ (by norm_num), zpow_natCast]
  push_cast
  field_simp

theorem near_magnitude_ofScaled : Near (2 ^ (-53 : Int)) (magnitude (ofScaled m e)).toRat (m * 2 ^ e) := by
  rcases Nat.lt_or_ge (bitLength m) 53 with hnarrow | hwide
  · rw [toRat_magnitude_of_narrow hm hlow hhigh hnarrow]
    exact Near.refl (by positivity) _
  · exact near_magnitude_of_wide hm hlow hhigh hwide

end Normal

theorem near_nearest {x : Dyadic} (hlow : 2 ^ (-1022 : Int) ≤ |x.toRat|) (hhigh : |x.toRat| < 2 ^ (1024 : Int)) :
    Near (2 ^ (-53 : Int)) (nearest x).toRat x.toRat := by
  have hx : x ≠ 0 := by
    rintro rfl
    rw [Dyadic.toRat_zero, abs_zero] at hlow
    exact absurd hlow (not_le.mpr (by positivity))
  have htop : -1022 < x.top :=
    (zpow_lt_zpow_iff_right₀ (by norm_num : (1 : ℚ) < 2)).mp (lt_of_le_of_lt hlow x.abs_toRat_lt)
  have htop' : x.top - 1 < 1024 := by
    refine (zpow_lt_zpow_iff_right₀ (by norm_num : (1 : ℚ) < 2)).mp (lt_of_le_of_lt ?_ hhigh)
    rw [zpow_sub₀ (by norm_num), zpow_one, div_le_iff₀ (by norm_num), mul_comm]
    exact Dyadic.two_zpow_top_le hx
  have hround := near_magnitude_ofScaled (e := x.exponent) (Int.natAbs_ne_zero.mpr (Dyadic.mantissa_ne_zero hx))
    (by unfold Dyadic.top at htop; omega) (by unfold Dyadic.top at htop'; omega)
  unfold nearest
  simp only
  rw [Dyadic.toRat_eq_mantissa_mul x]
  split
  · rename_i hneg
    have hmantissa : (x.mantissa : ℚ) = -(x.mantissa.natAbs : ℚ) := by
      rw [Nat.cast_natAbs, abs_of_neg hneg]
      push_cast
      ring
    rw [Dyadic.toRat_neg, hmantissa, neg_mul]
    exact hround.neg
  · rename_i hpos
    have hmantissa : (x.mantissa : ℚ) = (x.mantissa.natAbs : ℚ) := by
      rw [Nat.cast_natAbs, abs_of_nonneg (not_lt.mp hpos)]
    rw [hmantissa]
    exact hround

end Phasor.Binary64
