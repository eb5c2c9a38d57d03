import Phasor.Proofs.Estimate

namespace Dyadic

theorem bitLength_mul_two_pow {m : Nat} (hm : m ≠ 0) (k : Nat) : bitLength (m * 2 ^ k) = bitLength m + k := by
  apply le_antisymm
  · rw [bitLength_le_iff, Nat.pow_add]
    exact Nat.mul_lt_mul_of_pos_right (lt_two_pow_bitLength m) (Nat.two_pow_pos k)
  · have hlow : 2 ^ (bitLength m + k) ≤ 2 * (m * 2 ^ k) := by
      rw [Nat.pow_add, ← Nat.mul_assoc]
      exact Nat.mul_le_mul_right _ (two_pow_bitLength_le hm)
    have hhigh : 2 * (m * 2 ^ k) < 2 ^ (bitLength (m * 2 ^ k) + 1) := by
      have := lt_two_pow_bitLength (m * 2 ^ k)
      omega
    exact Nat.lt_succ_iff.mp ((Nat.pow_lt_pow_iff_right (by decide)).mp (hlow.trans_lt hhigh))

theorem exists_eq_mantissa_mul {x : Dyadic} (hx : x ≠ 0) {q : Nat} {u : Int} (h : |x.toReal| = q * 2 ^ u) :
    ∃ k : Nat, q = x.mantissa.natAbs * 2 ^ k ∧ x.exponent = u + k := by
  have hodd := mantissa_mod_two hx
  rw [Phasor.Binary64.abs_toReal] at h
  have hpos : (2 : ℝ) ^ u ≠ 0 := by positivity
  rcases le_or_gt u x.exponent with hle | hlt
  · obtain ⟨k, hk⟩ := Int.le.dest hle
    refine ⟨k, ?_, hk.symm⟩
    rw [← hk, zpow_add₀ (by norm_num), zpow_natCast] at h
    have heq : (q : ℝ) = x.mantissa.natAbs * 2 ^ k := mul_right_cancel₀ hpos (by linear_combination -h)
    exact_mod_cast heq
  -- otherwise the mantissa would be a multiple of two
  · obtain ⟨k, hk⟩ : ∃ k : Nat, u = x.exponent + (k + 1 : Nat) := ⟨(u - x.exponent - 1).toNat, by omega⟩
    have hpos' : (2 : ℝ) ^ x.exponent ≠ 0 := by positivity
    rw [hk, zpow_add₀ (by norm_num), zpow_natCast, pow_succ] at h
    have heq : (x.mantissa.natAbs : ℝ) = 2 * (q * 2 ^ k) := mul_right_cancel₀ hpos' (by linear_combination h)
    have hnat : x.mantissa.natAbs = 2 * (q * 2 ^ k) := by exact_mod_cast heq
    omega

theorem natAbs_mantissa_of_odd {x : Dyadic} {m : Nat} {e : Int} (hm : m % 2 = 1) (h : |x.toReal| = m * 2 ^ e) :
    x.mantissa.natAbs = m ∧ x.exponent = e := by
  have hx : x ≠ 0 := by
    rw [← toReal_ne_zero, ← abs_ne_zero, h]
    have : (m : ℝ) ≠ 0 := by exact_mod_cast (by omega : m ≠ 0)
    positivity
  obtain ⟨k, hk, hexp⟩ := exists_eq_mantissa_mul hx h
  cases k with
  | zero => exact ⟨by omega, by omega⟩
  | succ k =>
    rw [pow_succ, ← Nat.mul_assoc] at hk
    omega

end Dyadic

namespace Phasor.Binary64

open Dyadic (bitLength lt_two_pow_bitLength two_pow_bitLength_le bitLength_le_iff
  bitLength_mul_two_pow exists_eq_mantissa_mul natAbs_mantissa_of_odd toReal_neg
  toReal_inj toReal_ne_zero toReal_lt_zero)

section Format

def IsFinite (b : UInt64) : Prop := b.toNat / 2 ^ 52 % 2 ^ 11 ≠ 2047

instance : DecidablePred IsFinite := fun _ => inferInstanceAs (Decidable (_ ≠ _))

/-- The digit before the fraction is one, or zero if the field of the exponent is. -/
def encodedSize (field fraction : Nat) : ℚ :=
  if field = 0 then 2 ^ (-1022 : Int) * (fraction / 2 ^ 52) else 2 ^ ((field : Int) - 1023) * (1 + fraction / 2 ^ 52)

def encoded (b : UInt64) : ℚ :=
  (-1) ^ (b.toNat / 2 ^ 63) * encodedSize (b.toNat / 2 ^ 52 % 2 ^ 11) (b.toNat % 2 ^ 52)

theorem toRat_magnitude_eq (n : Nat) : (magnitude n).toRat = encodedSize (n / 2 ^ 52) (n % 2 ^ 52) := by
  have hplaces : (2 : ℚ) ^ (52 : Int) = 2 ^ 52 := zpow_natCast 2 52
  simp only [magnitude, encodedSize, Nat.shiftRight_eq_div_pow, Nat.one_shiftLeft]
  split
  · rw [Dyadic.toRat_scaled, (by norm_num : (-1074 : Int) = -1022 - 52), zpow_sub₀ (by norm_num), hplaces,
      Int.cast_natCast]
    ring
  · rw [Dyadic.toRat_scaled, (by ring : ((n / 2 ^ 52 : Nat) : Int) - 1075 = (n / 2 ^ 52 : Nat) - 1023 - 52),
      zpow_sub₀ (by norm_num), hplaces, Int.cast_natCast, Nat.cast_add, Nat.cast_pow, Nat.cast_ofNat]
    field_simp
    ring

variable {b : UInt64}

theorem IsFinite.lt_infinity (hb : IsFinite b) : b.toNat % 2 ^ 63 < infinity := by
  have hfield : b.toNat / 2 ^ 52 % 2 ^ 11 ≠ 2047 := hb
  have hinf : infinity = 2047 * 2 ^ 52 := by decide
  omega

theorem IsFinite.toDyadic?_eq (hb : IsFinite b) : toDyadic? b =
    some (if b.toNat / 2 ^ 63 = 0 then magnitude (b.toNat % 2 ^ 63) else -magnitude (b.toNat % 2 ^ 63)) := by
  have hsign : b.toNat < 2 ^ 63 ↔ b.toNat / 2 ^ 63 = 0 := by omega
  simp only [toDyadic?, Nat.one_shiftLeft, if_pos hb.lt_infinity, hsign]

theorem IsFinite.exists_toDyadic? (hb : IsFinite b) : ∃ x, toDyadic? b = some x ∧ x.toRat = encoded b := by
  have hfield : b.toNat % 2 ^ 63 / 2 ^ 52 = b.toNat / 2 ^ 52 % 2 ^ 11 := by omega
  have hfraction : b.toNat % 2 ^ 63 % 2 ^ 52 = b.toNat % 2 ^ 52 := by omega
  have hsign : b.toNat / 2 ^ 63 = 0 ∨ b.toNat / 2 ^ 63 = 1 := by
    have := b.toNat_lt
    omega
  refine ⟨_, hb.toDyadic?_eq, ?_⟩
  rcases hsign with hsign | hsign
  · rw [if_pos hsign, toRat_magnitude_eq, encoded, hfield, hfraction, hsign, pow_zero, one_mul]
  · rw [if_neg (by omega), Dyadic.toRat_neg, toRat_magnitude_eq, encoded, hfield, hfraction, hsign,
      pow_one, neg_one_mul]

end Format

section Patterns

variable {m : Nat} {e : Int}

theorem ofScaled_eq_of_unit_le {unit : Int} (hm : m ≠ 0) (hhigh : e + bitLength m ≤ 1024)
    (hunit : max (e + bitLength m - 53 : Int) (-1074) = unit) (hle : unit ≤ e) :
    ofScaled m e = (unit + 1074).toNat <<< 52 + m <<< (e - unit).toNat := by
  simp only [ofScaled]
  rw [if_neg (by omega), if_neg (by omega), hunit]
  split
  · obtain rfl : e = unit := by omega
    rw [sub_self, Int.toNat_zero, shiftEven_zero, Nat.shiftLeft_zero]
  · rfl

theorem exists_eq_field_add {n : Nat} (hn : n < infinity) :
    ∃ f q : Nat, n = f <<< 52 + q ∧ (f = 0 ∨ 2 ^ 52 ≤ q) ∧ q < 2 ^ 53 ∧ f ≤ 2045 := by
  have hinf : infinity = 2047 * 2 ^ 52 := by decide
  refine ⟨n / 2 ^ 52 - 1, n - (n / 2 ^ 52 - 1) * 2 ^ 52, ?_, ?_, ?_, ?_⟩
  · rw [Nat.shiftLeft_eq]
    omega
  · omega
  · omega
  · omega

theorem ofScaled_mantissa_of_magnitude {x : Dyadic} (hx : x ≠ 0) {n : Nat} (hn : n < infinity)
    (h : |x.toReal| = (magnitude n).toReal) : ofScaled x.mantissa.natAbs x.exponent = n := by
  obtain ⟨f, q, rfl, hlead, hq, hf⟩ := exists_eq_field_add hn
  rw [toReal_magnitude f hlead hq.le] at h
  obtain ⟨k, rfl, hexp⟩ := exists_eq_mantissa_mul hx h
  -- the last place of the pattern is the one that rounding finds again
  have hm : x.mantissa.natAbs ≠ 0 := Int.natAbs_ne_zero.mpr (Dyadic.mantissa_ne_zero hx)
  have hbits := bitLength_mul_two_pow hm k
  have hle := bitLength_le_iff.mpr hq
  have hunit : max (x.exponent + bitLength x.mantissa.natAbs - 53 : Int) (-1074) = f - 1074 := by
    rcases hlead with rfl | hlead
    · omega
    · have hge : 53 ≤ bitLength (x.mantissa.natAbs * 2 ^ k) := by
        rw [← Nat.not_lt, ← Nat.le_sub_one_iff_lt (by decide), bitLength_le_iff, Nat.not_lt]
        exact hlead
      omega
  rw [ofScaled_eq_of_unit_le hm (by omega) hunit (by omega)]
  have hfield : ((f : Int) - 1074 + 1074).toNat = f := by omega
  have hshift : (x.exponent - (f - 1074)).toNat = k := by omega
  rw [hfield, hshift, Nat.shiftLeft_eq _ k]

theorem patternOf_eq_of_fits {x : Dyadic} (hx : x.Fits 53) : patternOf x = ofScaled x.mantissa.natAbs x.exponent := by
  rcases eq_or_ne x 0 with rfl | hne
  · decide
  have hbits : bitLength x.mantissa.natAbs ≤ 53 := hx
  have hodd := Dyadic.mantissa_mod_two hne
  have hcut : bitLength x.mantissa.natAbs - 64 = 0 := by omega
  have hvalue := toReal_magnitude_of_narrow (m := x.mantissa.natAbs) (e := 0) hbits (by norm_num) (fun _ => by omega)
  obtain ⟨hmantissa, hexponent⟩ := natAbs_mantissa_of_odd (by omega) (abs_of_nonneg (magnitude_nonneg _) ▸ hvalue)
  simp only [patternOf, hcut, Nat.shiftRight_zero, hmantissa, hexponent]
  rw [zero_add, Nat.cast_zero, add_zero]

theorem magnitude_pos {n : Nat} (hn : n ≠ 0) (hlt : n < infinity) : 0 < (magnitude n).toReal := by
  obtain ⟨f, q, rfl, hlead, hq, -⟩ := exists_eq_field_add hlt
  have hpos : 0 < q := by
    rcases hlead with rfl | hlead
    · rw [Nat.zero_shiftLeft] at hn
      omega
    · omega
  rw [toReal_magnitude f hlead hq.le]
  positivity

theorem ofDyadic_eq_of_magnitude {x : Dyadic} {n : Nat} (hn : n ≠ 0) (hlt : n < infinity)
    (h : |x.toReal| = (magnitude n).toReal) : ofDyadic x = withSign (x.mantissa < 0) n := by
  have hx : x ≠ 0 := by
    rw [← toReal_ne_zero, ← abs_ne_zero, h]
    exact (magnitude_pos hn hlt).ne'
  have hfits : x.Fits 53 := by
    have hmagnitude := fits_magnitude n
    rw [← Dyadic.toReal_abs, toReal_inj] at h
    rw [← h, Dyadic.abs] at hmagnitude
    split at hmagnitude
    · exact Dyadic.neg_neg x ▸ hmagnitude.neg
    · exact hmagnitude
  have hpattern : ofDyadic x = withSign (x.mantissa < 0) (patternOf x) := rfl
  rw [hpattern, patternOf_eq_of_fits hfits, ofScaled_mantissa_of_magnitude hx hlt h]

theorem IsFinite.ofDyadic_eq {b : UInt64} (hb : IsFinite b) {x : Dyadic} (hx : toDyadic? b = some x) :
    ofDyadic x = if b = 0x8000000000000000 then 0 else b := by
  have hbits := b.toNat_lt
  have hlt := hb.lt_infinity
  have hsignBit : b = 0x8000000000000000 ↔ b.toNat = 2 ^ 63 := UInt64.toNat_inj.symm
  rw [hb.toDyadic?_eq, Option.some_inj] at hx
  rcases eq_or_ne (b.toNat % 2 ^ 63) 0 with hzero | hne
  -- the patterns of the two zeros
  · have hx0 : x = 0 := by
      rw [← hx, hzero]
      split <;> decide
    have hback : ofDyadic x = 0 := by
      rw [hx0]
      decide
    rw [hback]
    split
    · rfl
    · rename_i hb'
      rw [hsignBit] at hb'
      exact UInt64.toNat_inj.mp (show 0 = b.toNat by omega)
  · have hpos := magnitude_pos hne hlt
    have hnegative : x.mantissa < 0 ↔ b.toNat / 2 ^ 63 ≠ 0 := by
      rw [← hx, ← toReal_lt_zero]
      split
      · rename_i hsign
        exact iff_of_false hpos.not_gt (not_not.mpr hsign)
      · rename_i hsign
        rw [toReal_neg, neg_lt_zero]
        exact iff_of_true hpos hsign
    have hsize : |x.toReal| = (magnitude (b.toNat % 2 ^ 63)).toReal := by
      rw [← hx]
      split
      · exact abs_of_pos hpos
      · rw [toReal_neg, abs_neg, abs_of_pos hpos]
    rw [ofDyadic_eq_of_magnitude hne hlt hsize, if_neg (by rw [hsignBit]; omega), ← UInt64.toNat_inj,
      toNat_withSign _ (Nat.mod_lt _ (by decide))]
    simp only [hnegative, decide_eq_true_eq]
    split <;> omega

end Patterns

section Steps

def product (a b : Nat) : Nat :=
  let x := magnitude a
  let y := magnitude b
  ofScaled (x.mantissa * y.mantissa).natAbs (x.exponent + y.exponent)

/-- The product of a magnitude with `2 ^ e` by factors that the format has, which ends early at
infinity and at zero. -/
def timesPower (a : Nat) (e : Int) : Nat :=
  if 1000 < e then
    let next := product a (ofScaled 1 1000)
    if next = infinity then next else timesPower next (e - 1000)
  else if e < -1000 then
    let next := product a (ofScaled 1 (-1000))
    if next = 0 then next else timesPower next (e + 1000)
  else product a (ofScaled 1 e)
termination_by e.natAbs

def ofDyadicInSteps (x : Dyadic) : UInt64 :=
  if x.mantissa = 0 then 0
  else
    let m := x.mantissa.natAbs
    let cut := bitLength m - 64
    withSign (x.mantissa < 0) (timesPower (ofScaled (m >>> cut) 0) (x.exponent + cut))

structure Stands (a m : Nat) (e : Int) : Prop where
  mantissa : (magnitude a).mantissa.natAbs = m
  exponent : (magnitude a).exponent = e
  odd : m % 2 = 1
  narrow : bitLength m ≤ 53

variable {a m : Nat} {e k : Int}

theorem stands_ofScaled (hodd : m % 2 = 1) (hnarrow : bitLength m ≤ 53) (hlow : -1074 ≤ e)
    (hhigh : e + bitLength m ≤ 1024) : Stands (ofScaled m e) m e := by
  have hvalue := toReal_magnitude_of_narrow hnarrow hlow (fun _ => hhigh)
  rw [← abs_of_nonneg (magnitude_nonneg _)] at hvalue
  obtain ⟨hmantissa, hexponent⟩ := natAbs_mantissa_of_odd hodd hvalue
  exact ⟨hmantissa, hexponent, hodd, hnarrow⟩

theorem Stands.ne_zero (h : Stands a m e) : a ≠ 0 := by
  rintro rfl
  have hzero : (magnitude 0).mantissa.natAbs = 0 := by decide
  have := h.odd
  rw [← h.mantissa, hzero] at this
  cases this

theorem Stands.ne_infinity (h : Stands a m e) (hhigh : e + bitLength m ≤ 1024) : a ≠ infinity := by
  rintro rfl
  have hm : (magnitude infinity).mantissa.natAbs = 1 := by decide
  have he : (magnitude infinity).exponent = 1024 := by decide
  rw [← h.mantissa, ← h.exponent, hm, he] at hhigh
  revert hhigh
  decide

theorem Stands.product_eq (h : Stands a m e) (hlow : -1000 ≤ k) (hhigh : k ≤ 1000) :
    product a (ofScaled 1 k) = ofScaled m (e + k) := by
  have hone : bitLength 1 = 1 := by decide
  have hpower : Stands (ofScaled 1 k) 1 k := stands_ofScaled rfl (by decide) (by omega) (by omega)
  simp only [product, Int.natAbs_mul, h.mantissa, h.exponent, hpower.mantissa, hpower.exponent, Nat.mul_one]

theorem ofScaled_eq_infinity (hm : m ≠ 0) (h : 1024 < e + bitLength m) : ofScaled m e = infinity := by
  simp only [ofScaled]
  rw [if_neg (by omega), if_pos h]

theorem ofScaled_eq_zero_of_lt (h : e + bitLength m < -1074) : ofScaled m e = 0 := by
  simp only [ofScaled]
  rw [if_pos (.inr h)]

theorem Stands.timesPower_eq_of_le (h : Stands a m e) (he : 0 ≤ e) (hk : -1000 ≤ k) :
    timesPower a k = ofScaled m (e + k) := by
  have hm : m ≠ 0 := by
    have := h.odd
    omega
  -- every product but the last is exact, or it and all that follow are too large
  fun_induction timesPower a k generalizing e with
  | case1 a k hlarge next =>
    rename_i hinf
    have hnext : next = ofScaled m (e + 1000) := h.product_eq (by norm_num) (by norm_num)
    have hover : 1024 < e + 1000 + bitLength m := by
      by_contra hle
      have hstands := stands_ofScaled h.odd h.narrow (by omega) (Int.not_lt.mp hle)
      exact hstands.ne_infinity (Int.not_lt.mp hle) (hnext ▸ hinf)
    rw [hinf, ofScaled_eq_infinity hm (by omega)]
  | case2 a k hlarge next hfinite =>
    rename_i ih
    have hnext : next = ofScaled m (e + 1000) := h.product_eq (by norm_num) (by norm_num)
    have hwithin : e + 1000 + bitLength m ≤ 1024 := by
      by_contra hgt
      exact hfinite (hnext ▸ ofScaled_eq_infinity hm (Int.not_le.mp hgt))
    have hstands : Stands next m (e + 1000) := hnext ▸ stands_ofScaled h.odd h.narrow (by omega) hwithin
    rw [ih hstands (by omega) (by omega)]
    congr 1
    ring
  | case3 => omega
  | case4 => omega
  | case5 a k hlarge hsmall => exact h.product_eq (by omega) (by omega)

theorem Stands.timesPower_eq_of_lt (h : Stands a m e) (he : 0 ≤ e) (hsize : e + bitLength m ≤ 65) (hk : k < -1000) :
    timesPower a k = ofScaled m (e + k) := by
  -- one product loses nothing, and a second one all digits
  have hstands : Stands (ofScaled m (e + -1000)) m (e + -1000) := stands_ofScaled h.odd h.narrow (by omega) (by omega)
  rw [timesPower, if_neg (by omega), if_pos hk]
  simp only
  rw [h.product_eq (by norm_num) (by norm_num), if_neg hstands.ne_zero, timesPower, if_neg (by omega)]
  split
  · have hnext : product (ofScaled m (e + -1000)) (ofScaled 1 (-1000)) = 0 := by
      rw [hstands.product_eq (by norm_num) (by norm_num)]
      exact ofScaled_eq_zero_of_lt (by omega)
    simp only [hnext, if_true]
    exact (ofScaled_eq_zero_of_lt (by omega)).symm
  · rw [hstands.product_eq (by omega) (by omega)]
    congr 1
    ring

theorem Stands.timesPower_eq (h : Stands a m e) (he : 0 ≤ e) (hsize : e + bitLength m ≤ 65) (k : Int) :
    timesPower a k = ofScaled m (e + k) := by
  rcases Int.lt_or_le k (-1000) with hlt | hle
  · exact h.timesPower_eq_of_lt he hsize hlt
  · exact h.timesPower_eq_of_le he hle

theorem exists_stands_of_digits {d : Nat} (hd : d ≠ 0) (hdigits : bitLength d ≤ 64) :
    ∃ m e, Stands (ofScaled d 0) m e ∧ 0 ≤ e ∧ e + bitLength m ≤ 65 := by
  have hlow : (2 : ℝ) ^ bitLength d ≤ 2 * d := by exact_mod_cast two_pow_bitLength_le hd
  have hhigh : (d : ℝ) < 2 ^ bitLength d := by exact_mod_cast lt_two_pow_bitLength d
  have hnear := abs_magnitude_sub_le (m := d) (e := 0) (N := bitLength d) (by omega) (by omega)
    (by rw [zpow_zero, mul_one, zpow_natCast]; exact hhigh)
  have herror : (2 : ℝ) ^ ((bitLength d : Int) - 54) ≤ 2 ^ bitLength d / 4 := by
    rw [zpow_sub₀ (by norm_num), zpow_natCast]
    gcongr
    norm_num
  have hinteger : ∃ q : Nat, (magnitude (ofScaled d 0)).toReal = q * 2 ^ (0 : Int) := by
    rw [toReal_magnitude_ofScaled hd (by omega) (by omega) rfl]
    split
    · rename_i hunit
      obtain ⟨s, hs⟩ := Int.eq_ofNat_of_zero_le hunit
      refine ⟨shiftEven d s * 2 ^ s, ?_⟩
      rw [hs, sub_zero, Int.toNat_natCast, zpow_natCast, zpow_zero, mul_one]
      push_cast
      rfl
    · exact ⟨d, rfl⟩
  have hnonneg := magnitude_nonneg (ofScaled d 0)
  have hfits := fits_magnitude (ofScaled d 0)
  generalize hlead : magnitude (ofScaled d 0) = lead at *
  rw [zpow_zero, mul_one, abs_le] at hnear
  have hne : lead ≠ 0 := by
    rw [← toReal_ne_zero]
    linarith
  obtain ⟨q, hq⟩ := hinteger
  rw [← abs_of_nonneg hnonneg] at hq
  obtain ⟨k, -, hexp⟩ := exists_eq_mantissa_mul hne hq
  have hodd := Dyadic.mantissa_mod_two hne
  refine ⟨lead.mantissa.natAbs, lead.exponent, ⟨by rw [hlead], by rw [hlead], by omega, hfits⟩, by omega, ?_⟩
  apply top_le_of_lt (by omega)
  rw [← abs_toReal, abs_of_nonneg hnonneg]
  calc lead.toReal < 2 * 2 ^ bitLength d := by linarith
    _ ≤ 2 * 2 ^ 64 := by gcongr; norm_num
    _ = 2 ^ (65 : Int) := by norm_num

theorem patternOf_eq_timesPower {x : Dyadic} (hx : x ≠ 0) : patternOf x =
    timesPower (ofScaled (x.mantissa.natAbs >>> (bitLength x.mantissa.natAbs - 64)) 0)
      (x.exponent + (bitLength x.mantissa.natAbs - 64 : Nat)) := by
  have hm : x.mantissa.natAbs ≠ 0 := Int.natAbs_ne_zero.mpr (Dyadic.mantissa_ne_zero hx)
  have hlow := two_pow_bitLength_le hm
  have hhigh := lt_two_pow_bitLength x.mantissa.natAbs
  have hlength : bitLength x.mantissa.natAbs ≠ 0 := by
    intro hzero
    rw [hzero] at hhigh
    omega
  have hd : x.mantissa.natAbs >>> (bitLength x.mantissa.natAbs - 64) ≠ 0 := by
    rw [Nat.shiftRight_eq_div_pow, Nat.div_ne_zero_iff]
    refine ⟨(Nat.two_pow_pos _).ne', ?_⟩
    have hcut : 2 ^ (bitLength x.mantissa.natAbs - 64 + 1) ≤ 2 ^ bitLength x.mantissa.natAbs :=
      Nat.pow_le_pow_right (by decide) (by omega)
    rw [Nat.pow_succ] at hcut
    omega
  have hdigits : bitLength (x.mantissa.natAbs >>> (bitLength x.mantissa.natAbs - 64)) ≤ 64 := by
    rw [bitLength_le_iff, Nat.shiftRight_eq_div_pow, Nat.div_lt_iff_lt_mul (Nat.two_pow_pos _), ← Nat.pow_add]
    exact hhigh.trans_le (Nat.pow_le_pow_right (by decide) (by omega))
  obtain ⟨m, e, hstands, he, hsize⟩ := exists_stands_of_digits hd hdigits
  rw [hstands.timesPower_eq he hsize, patternOf]
  simp only [hstands.mantissa, hstands.exponent, add_assoc]

theorem ofDyadic_eq_ofDyadicInSteps (x : Dyadic) : ofDyadic x = ofDyadicInSteps x := by
  rcases eq_or_ne x 0 with rfl | hx
  · decide
  rw [ofDyadicInSteps, if_neg (Dyadic.mantissa_ne_zero hx)]
  show withSign (x.mantissa < 0) (patternOf x) = _
  rw [patternOf_eq_timesPower hx]

end Steps

end Phasor.Binary64

namespace Phasor.BigFloat

open Binary64 (IsFinite encoded ofDyadicInSteps)

/-- A finite pattern becomes the number that it encodes, in its one form with an odd mantissa, so
equal results mean equal numbers; and the number becomes the pattern again, save that there is one
zero only, also by products in the format. -/
theorem bits_survive_conversion (b : UInt64) (hb : IsFinite b) :
    (∃ x, ofBits b = num x ∧ (x.mantissa % 2 = 1 ∨ x.mantissa = 0 ∧ x.exponent = 0) ∧ x.toRat = encoded b ∧
      ofDyadicInSteps x = (ofBits b).toBits) ∧
    (∀ c, IsFinite c → (ofBits b = ofBits c ↔ encoded b = encoded c)) ∧
    (ofBits b).toBits = if b = 0x8000000000000000 then 0 else b := by
  obtain ⟨x, hx, hvalue⟩ := hb.exists_toDyadic?
  have hbits : ofBits b = num x := by rw [ofBits, hx]
  refine ⟨⟨x, hbits, ?_, hvalue, ?_⟩, ?_, ?_⟩
  · rcases eq_or_ne x 0 with rfl | hne
    · exact .inr ⟨rfl, rfl⟩
    · exact .inl (Dyadic.mantissa_mod_two hne)
  · rw [hbits]
    exact (Binary64.ofDyadic_eq_ofDyadicInSteps x).symm
  · intro c hc
    obtain ⟨y, hy, hvalue'⟩ := hc.exists_toDyadic?
    rw [hbits, ofBits, hy, ← hvalue, ← hvalue', Dyadic.toRat_inj]
    exact ⟨num.inj, congrArg num⟩
  · rw [hbits]
    exact hb.ofDyadic_eq hx

theorem bits_survive_conversion_subnormal :
    IsFinite 1 ∧ IsFinite 0x800fffffffffffff ∧ (ofBits 1).toBits = 1 ∧
    (ofBits 0x800fffffffffffff).toBits = 0x800fffffffffffff ∧
    (ofBits 1 = ofBits 0x800fffffffffffff ↔ encoded 1 = encoded 0x800fffffffffffff) := by
  have hleast : IsFinite 1 := by decide
  have hlargest : IsFinite 0x800fffffffffffff := by decide
  obtain ⟨-, hsame, hback⟩ := bits_survive_conversion 1 hleast
  exact ⟨hleast, hlargest, hback, (bits_survive_conversion _ hlargest).2.2, hsame _ hlargest⟩

end Phasor.BigFloat
