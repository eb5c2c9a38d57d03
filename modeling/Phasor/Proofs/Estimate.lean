import Phasor.Proofs.Alternating

/-!
How far the 64-bit estimates are off. A number below `2 ^ N` is moved by at most `2 ^ (N - 54)`,
also where the format has fewer digits, and the conversion of a dyadic number adds what its cut to
64 digits leaves out. A quotient that is rounded to the format and then to an integer is off by
little more than a half.
-/

namespace Dyadic

theorem toReal_shiftRight (x : Dyadic) (k : Int) : (x >>> k).toReal = x.toReal / 2 ^ k := by
  cases x with
  | zero =>
    show toReal 0 = toReal 0 / 2 ^ k
    rw [toReal_zero, zero_div]
  | ofOdd n e hn =>
    rw [toReal_eq, toReal_eq]
    show (n : ℝ) * 2 ^ (-(e + k)) = n * 2 ^ (-e) / 2 ^ k
    rw [neg_add, zpow_add₀ (by norm_num), zpow_neg _ k]
    ring

theorem toReal_le_iff {x y : Dyadic} : x.toReal ≤ y.toReal ↔ x ≤ y := by
  rw [toReal, toReal, Rat.cast_le, toRat_le_toRat_iff]

theorem toReal_lt_iff {x y : Dyadic} : x.toReal < y.toReal ↔ x < y := by
  rw [toReal, toReal, Rat.cast_lt, toRat_lt_toRat_iff]

theorem toReal_pos (x : Dyadic) : 0 < x.toReal ↔ 0 < x.mantissa := by
  rw [toReal_eq, mul_pos_iff_of_pos_right (by positivity), Int.cast_pos]

theorem toReal_lt_zero (x : Dyadic) : x.toReal < 0 ↔ x.mantissa < 0 := by
  rw [← neg_pos, ← toReal_neg, toReal_pos, mantissa_neg, Int.neg_pos]

theorem toReal_abs (x : Dyadic) : x.abs.toReal = |x.toReal| := by
  unfold abs
  split
  · rename_i h
    rw [toReal_neg, abs_of_neg ((toReal_lt_zero x).mpr h)]
  · rename_i h
    rw [abs_of_nonneg (not_lt.mp (mt (toReal_lt_zero x).mp h))]

end Dyadic

namespace Phasor.Binary64

open Dyadic (bitLength lt_two_pow_bitLength two_pow_bitLength_le toReal_scaled toReal_eq toReal_neg toReal_lt_zero)

theorem toReal_magnitude (f : Nat) {q : Nat} (hlow : f = 0 ∨ 2 ^ 52 ≤ q) (hhigh : q ≤ 2 ^ 53) :
    (magnitude (f <<< 52 + q)).toReal = q * 2 ^ ((f : Int) - 1074) := by
  rcases Nat.lt_or_ge q (2 ^ 52) with hlt | hge
  · obtain rfl : f = 0 := hlow.resolve_right (Nat.not_le.mpr hlt)
    have hfield : q / 2 ^ 52 = 0 := Nat.div_eq_of_lt hlt
    simp only [magnitude, Nat.zero_shiftLeft, Nat.zero_add, Nat.shiftRight_eq_div_pow, hfield, if_true,
      Nat.one_shiftLeft, Nat.mod_eq_of_lt hlt, toReal_scaled]
    simp
  · rw [Dyadic.toReal, toRat_magnitude f hge hhigh]
    push_cast
    rfl

section Scaled

variable {m : Nat} {e unit : Int}

theorem abs_shiftEven_sub_le (h : e ≤ unit) :
    |(shiftEven m (unit - e).toNat * 2 ^ unit : ℝ) - m * 2 ^ e| ≤ 2 ^ unit / 2 := by
  obtain ⟨s, rfl⟩ := Int.le.dest h
  have hshift : (e + s - e).toNat = s := by omega
  obtain ⟨hlow, hhigh⟩ := shiftEven_bounds m s
  have hlow' : (2 * m : ℝ) ≤ 2 * (shiftEven m s * 2 ^ s) + 2 ^ s := by exact_mod_cast hlow
  have hhigh' : (2 * (shiftEven m s * 2 ^ s) : ℝ) ≤ 2 * m + 2 ^ s := by exact_mod_cast hhigh
  have hpos : (0 : ℝ) < 2 ^ e := by positivity
  rw [hshift, zpow_add₀ (by norm_num), zpow_natCast, abs_le]
  constructor <;> nlinarith

theorem toReal_magnitude_ofScaled (hm : m ≠ 0) (hlow : -1074 ≤ e + bitLength m) (hhigh : e + bitLength m ≤ 1024)
    (hunit : max (e + bitLength m - 53 : Int) (-1074) = unit) : (magnitude (ofScaled m e)).toReal =
      if e ≤ unit then (shiftEven m (unit - e).toNat : ℝ) * 2 ^ unit else m * 2 ^ e := by
  have hsize := lt_two_pow_bitLength m
  have hsize' := two_pow_bitLength_le hm
  have hfield : ((unit + 1074).toNat : Int) - 1074 = unit := by omega
  simp only [ofScaled]
  rw [if_neg (by omega), if_neg (by omega), hunit]
  split
  · obtain ⟨s, hs⟩ : ∃ s, (unit - e).toNat = s := ⟨_, rfl⟩
    have hwide : m < 2 ^ (53 + s) := hsize.trans_le (Nat.pow_le_pow_right (by decide) (by omega))
    -- the field is zero, or the leading digit stands in the place above it
    have hlead : (unit + 1074).toNat = 0 ∨ 2 ^ 52 ≤ shiftEven m s := by
      rcases Nat.eq_zero_or_pos (unit + 1074).toNat with hzero | hpos
      · exact .inl hzero
      · have hbits : bitLength m = 53 + s := by omega
        rw [hbits, Nat.add_comm, Nat.pow_succ] at hsize'
        have hlead : 2 ^ (52 + s) ≤ m := by
          rw [Nat.add_comm]
          omega
        exact .inr (shiftEven_range hlead hwide).1
    rw [hs, toReal_magnitude _ hlead (shiftEven_le hwide), hfield]
  · obtain ⟨s, hs⟩ : ∃ s : Nat, e = unit + s := ⟨(e - unit).toNat, by omega⟩
    have hshift : (e - unit).toNat = s := by omega
    have hle : m * 2 ^ s ≤ 2 ^ 53 := by
      calc m * 2 ^ s ≤ 2 ^ bitLength m * 2 ^ s := Nat.mul_le_mul_right _ hsize.le
        _ ≤ 2 ^ 53 := by
            rw [← Nat.pow_add]
            exact Nat.pow_le_pow_right (by decide) (by omega)
    have hlead : (unit + 1074).toNat = 0 ∨ 2 ^ 52 ≤ m * 2 ^ s := by
      rcases Nat.eq_zero_or_pos (unit + 1074).toNat with hzero | hpos
      · exact .inl hzero
      · have hbits : bitLength m + s = 53 := by omega
        have := Nat.mul_le_mul_right (2 ^ s) hsize'
        rw [← Nat.pow_add, hbits, Nat.mul_assoc] at this
        omega
    rw [hshift, Nat.shiftLeft_eq m s, toReal_magnitude _ hlead hle, hfield, hs, zpow_add₀ (by norm_num), zpow_natCast]
    push_cast
    ring

theorem ofScaled_eq_zero (h : m = 0 ∨ e + bitLength m < -1074) : (magnitude (ofScaled m e)).toReal = 0 := by
  have hzero : magnitude 0 = 0 := by decide
  simp only [ofScaled]
  rw [if_pos h, hzero, Dyadic.toReal_zero]

theorem mul_zpow_lt : (m : ℝ) * 2 ^ e < 2 ^ (e + bitLength m) := by
  rw [zpow_add₀ (by norm_num), zpow_natCast, mul_comm]
  have hsize : (m : ℝ) < 2 ^ bitLength m := by exact_mod_cast lt_two_pow_bitLength m
  gcongr

theorem top_le_of_lt {N : Int} (hm : m ≠ 0) (h : (m : ℝ) * 2 ^ e < 2 ^ N) : e + bitLength m ≤ N := by
  have hsize : (2 : ℝ) ^ bitLength m ≤ 2 * m := by exact_mod_cast two_pow_bitLength_le hm
  have hlt : (2 : ℝ) ^ (e + bitLength m - 1) < 2 ^ N := by
    refine lt_of_le_of_lt ?_ h
    rw [Dyadic.zpow_pred, zpow_add₀ (by norm_num), zpow_natCast]
    have hpos : (0 : ℝ) < 2 ^ e := by positivity
    nlinarith
  have := (zpow_lt_zpow_iff_right₀ (by norm_num : (1 : ℝ) < 2)).mp hlt
  omega

theorem abs_magnitude_sub_le {N : Int} (hlow : -1021 ≤ N) (hhigh : N ≤ 1024) (h : (m : ℝ) * 2 ^ e < 2 ^ N) :
    |(magnitude (ofScaled m e)).toReal - m * 2 ^ e| ≤ 2 ^ (N - 54) := by
  rcases eq_or_ne m 0 with rfl | hm
  · rw [ofScaled_eq_zero (.inl rfl), Nat.cast_zero, zero_mul, sub_zero, abs_zero]
    positivity
  have htop := top_le_of_lt hm h
  rcases lt_or_ge (e + bitLength m : Int) (-1074) with htiny | hnormal
  · rw [ofScaled_eq_zero (.inr htiny), zero_sub, abs_neg, abs_of_nonneg (by positivity)]
    exact mul_zpow_lt.le.trans (zpow_le_zpow_right₀ (by norm_num) (by omega))
  · rw [toReal_magnitude_ofScaled hm hnormal (by omega) rfl]
    split
    · rename_i hle
      refine (abs_shiftEven_sub_le hle).trans ?_
      rw [← Dyadic.zpow_pred]
      exact zpow_le_zpow_right₀ (by norm_num) (by omega)
    · rw [sub_self, abs_zero]
      positivity

theorem toReal_magnitude_of_narrow (hm : bitLength m ≤ 53) (hlow : -1074 ≤ e) (hhigh : m ≠ 0 → e + bitLength m ≤ 1024) :
    (magnitude (ofScaled m e)).toReal = m * 2 ^ e := by
  rcases eq_or_ne m 0 with rfl | hne
  · rw [ofScaled_eq_zero (.inl rfl), Nat.cast_zero, zero_mul]
  rw [toReal_magnitude_ofScaled hne (by omega) (hhigh hne) rfl]
  split
  · have hunit : max (e + bitLength m - 53 : Int) (-1074) = e := by omega
    rw [hunit, sub_self, Int.toNat_zero, shiftEven_zero]
  · rfl

theorem abs_magnitude_sub_le_of_narrow (hm : bitLength m ≤ 53) (hhigh : m ≠ 0 → e + bitLength m ≤ 1024) :
    |(magnitude (ofScaled m e)).toReal - m * 2 ^ e| ≤ 2 ^ (-1075 : Int) := by
  rcases le_or_gt (-1074) e with hnormal | htiny
  · rw [toReal_magnitude_of_narrow hm hnormal hhigh, sub_self, abs_zero]
    positivity
  · apply abs_magnitude_sub_le (N := -1021) (by norm_num) (by norm_num)
    exact mul_zpow_lt.trans_le (zpow_le_zpow_right₀ (by norm_num) (by omega))

end Scaled

section Estimate

variable {x : Dyadic}

theorem fits_magnitude (pattern : Nat) : (magnitude pattern).Fits 53 := by
  have hmod := Nat.mod_lt pattern (Nat.two_pow_pos 52)
  unfold magnitude
  simp only [Nat.one_shiftLeft]
  split
  · exact Dyadic.fits_scaled (by decide) (by omega) _
  · exact Dyadic.fits_scaled (by decide) (by omega) _

theorem magnitude_nonneg (pattern : Nat) : 0 ≤ (magnitude pattern).toReal := by
  unfold magnitude
  simp only
  split
  · rw [toReal_scaled]
    positivity
  · rw [toReal_scaled]
    positivity

theorem natAbs_mantissa_mul {y : Dyadic} (k : Int) (hy : 0 ≤ y.toReal) :
    (y.mantissa.natAbs : ℝ) * 2 ^ (y.exponent + k) = y.toReal * 2 ^ k := by
  have hm : 0 ≤ y.mantissa := not_lt.mp (mt (toReal_lt_zero y).mpr hy.not_gt)
  have hcast : (y.mantissa.natAbs : ℝ) = y.mantissa := by rw [Nat.cast_natAbs, abs_of_nonneg hm]
  rw [hcast, zpow_add₀ (by norm_num), toReal_eq y]
  ring

theorem abs_toReal (x : Dyadic) : |x.toReal| = x.mantissa.natAbs * 2 ^ x.exponent := by
  rw [toReal_eq, abs_mul, abs_of_pos (by positivity : (0 : ℝ) < 2 ^ x.exponent), Nat.cast_natAbs, Int.cast_abs]

section Lead

variable {m cut : Nat} (hcut : bitLength m - 64 = cut)

include hcut

theorem abs_cut_sub_le : |((m >>> cut : Nat) : ℝ) * 2 ^ cut - m| ≤ 2 ^ ((bitLength m : Int) - 64) := by
  rcases Nat.eq_zero_or_pos cut with hzero | hpos
  · rw [hzero, Nat.shiftRight_zero, pow_zero, mul_one, sub_self, abs_zero]
    positivity
  · have hlow := Nat.div_mul_le_self m (2 ^ cut)
    have hhigh := Nat.lt_div_mul_add (Nat.two_pow_pos cut) (a := m)
    have hexp : (bitLength m : Int) - 64 = cut := by omega
    rw [Nat.shiftRight_eq_div_pow, hexp, zpow_natCast]
    generalize m / 2 ^ cut = a at *
    have hlow' : (a : ℝ) * 2 ^ cut ≤ m := by exact_mod_cast hlow
    have hhigh' : (m : ℝ) < a * 2 ^ cut + 2 ^ cut := by exact_mod_cast hhigh
    rw [abs_le]
    constructor <;> linarith

theorem shiftRight_cut_lt : ((m >>> cut : Nat) : ℝ) < 2 ^ ((bitLength m : Int) - cut) := by
  have hlt : m / 2 ^ cut < 2 ^ (bitLength m - cut) := by
    rw [Nat.div_lt_iff_lt_mul (Nat.two_pow_pos cut), ← Nat.pow_add, Nat.sub_add_cancel (by omega)]
    exact lt_two_pow_bitLength m
  have hexp : (bitLength m : Int) - cut = (bitLength m - cut : Nat) := by omega
  rw [Nat.shiftRight_eq_div_pow, hexp, zpow_natCast]
  exact_mod_cast hlt

theorem abs_lead_sub_le (e : Int) :
    |(magnitude (ofScaled (m >>> cut) 0)).toReal * 2 ^ (e + cut) - m * 2 ^ e| ≤
      2 ^ (e + bitLength m - 54) + 2 ^ (e + bitLength m - 64) := by
  have hdigits := abs_cut_sub_le hcut
  have hlead := abs_magnitude_sub_le (m := m >>> cut) (e := 0) (N := bitLength m - cut) (by omega) (by omega)
    (by rw [zpow_zero, mul_one]; exact shiftRight_cut_lt hcut)
  rw [zpow_zero, mul_one] at hlead
  generalize (magnitude (ofScaled (m >>> cut) 0)).toReal = lead at *
  generalize m >>> cut = a at *
  have hplace : (2 : ℝ) ^ (e + cut) = 2 ^ e * 2 ^ cut := by rw [zpow_add₀ (by norm_num), zpow_natCast]
  calc |lead * 2 ^ (e + cut) - m * 2 ^ e|
      = |(lead - a) * 2 ^ (e + cut) + (a * 2 ^ cut - m) * 2 ^ e| := by
        rw [hplace]
        congr 1
        ring
    _ ≤ |lead - a| * 2 ^ (e + cut) + |a * 2 ^ cut - (m : ℝ)| * 2 ^ e := by
        refine (abs_add_le _ _).trans_eq ?_
        rw [abs_mul, abs_mul, abs_of_pos (by positivity : (0 : ℝ) < 2 ^ (e + cut)),
          abs_of_pos (by positivity : (0 : ℝ) < 2 ^ e)]
    _ ≤ 2 ^ ((bitLength m : Int) - cut - 54) * 2 ^ (e + cut) + 2 ^ ((bitLength m : Int) - 64) * 2 ^ e := by gcongr
    _ = 2 ^ (e + bitLength m - 54) + 2 ^ (e + bitLength m - 64) := by
        rw [← zpow_add₀ (by norm_num), ← zpow_add₀ (by norm_num)]
        congr 2 <;> ring

end Lead

theorem top_le_of_ofScaled_lt {m : Nat} {e : Int} (hm : m ≠ 0) (h : ofScaled m e < infinity) :
    e + bitLength m ≤ 1024 := by
  by_contra hgt
  rw [not_le] at hgt
  simp only [ofScaled] at h
  rw [if_neg (by omega), if_pos hgt] at h
  exact lt_irrefl _ h

theorem exists_patternOf_eq (x : Dyadic) : ∃ (m : Nat) (e : Int), patternOf x = ofScaled m e ∧ bitLength m ≤ 53 ∧
    |m * 2 ^ e - (|x.toReal|)| ≤ 2 ^ (x.top - 54) + 2 ^ (x.top - 64) := by
  have hlead := abs_lead_sub_le (m := x.mantissa.natAbs) rfl x.exponent
  have hfits := fits_magnitude (ofScaled (x.mantissa.natAbs >>> (bitLength x.mantissa.natAbs - 64)) 0)
  have hvalue := natAbs_mantissa_mul (x.exponent + (bitLength x.mantissa.natAbs - 64 : Nat))
    (magnitude_nonneg (ofScaled (x.mantissa.natAbs >>> (bitLength x.mantissa.natAbs - 64)) 0))
  rw [← add_assoc] at hvalue
  refine ⟨_, _, rfl, hfits, ?_⟩
  rw [hvalue, abs_toReal]
  exact hlead

theorem abs_patternOf_sub_le (h : patternOf x < infinity) :
    |(magnitude (patternOf x)).toReal - (|x.toReal|)| ≤ 2 ^ (x.top - 54) + 2 ^ (x.top - 64) + 2 ^ (-1075 : Int) := by
  obtain ⟨m, e, hpattern, hm, hnear⟩ := exists_patternOf_eq x
  rw [hpattern] at h ⊢
  have hexact := abs_magnitude_sub_le_of_narrow hm (fun hne => top_le_of_ofScaled_lt hne h)
  have htri := abs_sub_le (magnitude (ofScaled m e)).toReal (m * 2 ^ e) |x.toReal|
  linarith

theorem exists_estimate? (h : x.top ≤ 1000) : ∃ v, estimate? x = some v := by
  obtain ⟨m, e, hpattern, -, hnear⟩ := exists_patternOf_eq x
  have hfinite : patternOf x < infinity := by
    rw [hpattern]
    rcases eq_or_ne m 0 with rfl | hm
    · simp only [ofScaled, true_or, if_true]
      decide
    have htop : e + bitLength m ≤ 1001 := by
      apply top_le_of_lt hm
      have hx := x.abs_toReal_lt
      have hfar : (2 : ℝ) ^ (x.top - 54) ≤ 2 ^ (x.top - 1) := zpow_le_zpow_right₀ (by norm_num) (by omega)
      have hfar' : (2 : ℝ) ^ (x.top - 64) ≤ 2 ^ (x.top - 1) := zpow_le_zpow_right₀ (by norm_num) (by omega)
      have hbound : (2 : ℝ) ^ (x.top + 1) ≤ 2 ^ (1001 : Int) := zpow_le_zpow_right₀ (by norm_num) (by omega)
      rw [Dyadic.zpow_pred] at hfar hfar'
      rw [zpow_add_one₀ (by norm_num)] at hbound
      have := (abs_le.mp hnear).2
      linarith
    refine (ofScaled_le (k := 2046) (by decide) (by decide) ?_).trans_lt (by decide)
    push_cast
    omega
  rw [estimate?_eq, if_pos hfinite]
  exact ⟨_, rfl⟩

theorem abs_estimate?_sub_le {v : Dyadic} (h : estimate? x = some v) :
    |v.toReal - x.toReal| ≤ 2 ^ (x.top - 54) + 2 ^ (x.top - 64) + 2 ^ (-1075 : Int) := by
  rw [estimate?_eq] at h
  split at h
  · rename_i hfinite
    have hclose := abs_patternOf_sub_le hfinite
    rw [Option.some_inj] at h
    rw [← h]
    split
    · rename_i hneg
      rw [abs_of_neg ((toReal_lt_zero x).mpr hneg)] at hclose
      rwa [toReal_neg, ← neg_add', abs_neg, ← sub_neg_eq_add]
    · rename_i hpos
      rwa [abs_of_nonneg (not_lt.mp (mt (toReal_lt_zero x).mp hpos))] at hclose
  · cases h

theorem abs_estimate?_sub_le_of_top_le {v : Dyadic} {N : Int} (hN : -900 ≤ N) (hx : x.top ≤ N)
    (h : estimate? x = some v) : |v.toReal - x.toReal| ≤ 2 ^ (N - 54) + 2 ^ (N - 63) := by
  have hclose := abs_estimate?_sub_le h
  have hround : (2 : ℝ) ^ (x.top - 54) ≤ 2 ^ (N - 54) := zpow_le_zpow_right₀ (by norm_num) (by omega)
  have hcut : (2 : ℝ) ^ (x.top - 64) ≤ 2 ^ (N - 63 - 1) := zpow_le_zpow_right₀ (by norm_num) (by omega)
  have htiny : (2 : ℝ) ^ (-1075 : Int) ≤ 2 ^ (N - 63 - 1) := zpow_le_zpow_right₀ (by norm_num) (by omega)
  rw [Dyadic.zpow_pred] at hcut htiny
  linarith

theorem abs_estimate?_sub_le_mul {v : Dyadic} (hx : x ≠ 0) (htop : -900 ≤ x.top) (h : estimate? x = some v) :
    |v.toReal - x.toReal| ≤ 2 ^ (-52 : Int) * |x.toReal| := by
  have hclose := abs_estimate?_sub_le_of_top_le htop le_rfl h
  have hlow := Dyadic.two_zpow_top_le_toReal hx
  have hnonneg := abs_nonneg x.toReal
  rw [zpow_sub₀ (by norm_num), zpow_sub₀ (by norm_num)] at hclose
  norm_num at hclose ⊢
  linarith

end Estimate

section Quotient

theorem abs_sticky_sub_le (a : Nat) {d : Nat} (hd : d ≠ 0) :
    |((2 * (a / d) + if a % d = 0 then 0 else 1 : Nat) : ℝ) - 2 * ((a : ℝ) / d)| ≤ 1 := by
  -- An odd last digit records that the division left a rest.
  have hd' : (0 : ℝ) < d := by exact_mod_cast Nat.pos_of_ne_zero hd
  have hexact : (a : ℝ) / d = (a / d : Nat) + (a % d : Nat) / d := by
    have hcast : ((d * (a / d) + a % d : Nat) : ℝ) = a := congrArg _ (Nat.div_add_mod a d)
    push_cast at hcast
    rw [div_eq_iff hd'.ne', ← hcast]
    field_simp
  have hrest : ((a % d : Nat) : ℝ) / d ≤ 1 :=
    (div_le_one hd').mpr (by exact_mod_cast (Nat.mod_lt a (Nat.pos_of_ne_zero hd)).le)
  have hnonneg : (0 : ℝ) ≤ (a % d : Nat) / d := by positivity
  rw [hexact]
  split
  · rename_i hzero
    simp [hzero]
  · push_cast at hrest hnonneg ⊢
    rw [abs_le]
    constructor <;> linarith

theorem exists_ofQuotient_eq {n d : Nat} (hn : n ≠ 0) (hd : d ≠ 0) (e : Int) :
    ∃ (m : Nat) (f : Int), ofQuotient n d e = ofScaled m f ∧
      |(m : ℝ) * 2 ^ f - n / d * 2 ^ e| ≤ 2 ^ (-66 : Int) * (n / d * 2 ^ e) := by
  have hwide := Dyadic.wide_quotient 64 (n := n) (d := d) (by exact_mod_cast hn)
  simp only [Int.natAbs_natCast] at hwide
  refine ⟨_, _, rfl, ?_⟩
  generalize 66 + bitLength d - bitLength n = s at *
  rw [Nat.shiftLeft_eq]
  have hsticky := abs_sticky_sub_le (n * 2 ^ s) hd
  have hlarge : (2 : ℝ) ^ 65 ≤ (n * 2 ^ s : Nat) / d := by
    rw [le_div_iff₀ (by exact_mod_cast Nat.pos_of_ne_zero hd)]
    exact_mod_cast hwide
  have hplace : (n : ℝ) / d * 2 ^ e = 2 * ((n * 2 ^ s : Nat) / d) * 2 ^ (e - s - 1) := by
    have hsplit : (2 : ℝ) ^ e = 2 * 2 ^ s * 2 ^ (e - s - 1) := by
      rw [Dyadic.zpow_pred, zpow_sub₀ (by norm_num), zpow_natCast]
      field_simp
    rw [hsplit]
    push_cast
    ring
  rw [hplace, ← sub_mul, abs_mul, abs_of_pos (by positivity : (0 : ℝ) < 2 ^ (e - s - 1)), ← mul_assoc]
  gcongr
  refine hsticky.trans ?_
  norm_num at hlarge ⊢
  linarith

theorem abs_nearestInt_sub_le (x : Dyadic) : |(x.nearestInt : ℝ) - x.toReal| ≤ 1 / 2 := by
  have hround := Dyadic.abs_roundAt_sub_le 0 x
  have hvalue : (x.roundAt 0).toReal = x.nearestInt := by
    unfold Dyadic.roundAt Dyadic.nearestInt
    split
    · rename_i h
      obtain ⟨k, hk⟩ := Int.eq_ofNat_of_zero_le h
      rw [toReal_eq, hk, zpow_natCast, Int.toNat_natCast, Int.shiftLeft_eq]
      push_cast
      rfl
    · rw [toReal_scaled, zpow_zero, mul_one, zero_sub]
  rwa [hvalue, zpow_zero] at hround

variable {x y : Dyadic}

theorem abs_magnitude_ofQuotient_sub_le (hx : x ≠ 0) (hy : y ≠ 0) (h : |x.toReal / y.toReal| ≤ 2 ^ 50 - 1) :
    |(magnitude (ofQuotient x.mantissa.natAbs y.mantissa.natAbs (x.exponent - y.exponent))).toReal -
      (|x.toReal / y.toReal|)| ≤ 1 / 16 + 2 ^ (-16 : Int) := by
  have hn := Int.natAbs_ne_zero.mpr (Dyadic.mantissa_ne_zero hx)
  have hd := Int.natAbs_ne_zero.mpr (Dyadic.mantissa_ne_zero hy)
  obtain ⟨m, f, hpattern, hnear⟩ := exists_ofQuotient_eq hn hd (x.exponent - y.exponent)
  have hvalue : (x.mantissa.natAbs : ℝ) / y.mantissa.natAbs * 2 ^ (x.exponent - y.exponent) =
      |x.toReal / y.toReal| := by
    rw [abs_div, abs_toReal, abs_toReal, zpow_sub₀ (by norm_num), mul_div_mul_comm]
  rw [hvalue] at hnear
  have hsmall : |(m : ℝ) * 2 ^ f - (|x.toReal / y.toReal|)| ≤ 2 ^ (-16 : Int) := by
    refine hnear.trans ?_
    norm_num at h ⊢
    linarith
  have hround := abs_magnitude_sub_le (m := m) (e := f) (N := 50) (by norm_num) (by norm_num) (by
    have := (abs_le.mp hsmall).2
    norm_num at this h ⊢
    linarith)
  rw [hpattern]
  have htri := abs_sub_le (magnitude (ofScaled m f)).toReal (m * 2 ^ f) |x.toReal / y.toReal|
  norm_num at hround ⊢
  norm_num at hsmall
  linarith

theorem div_eq_sign_mul_abs (hy : y ≠ 0) :
    x.toReal / y.toReal = ((x.mantissa * y.mantissa).sign : ℝ) * |x.toReal / y.toReal| := by
  have hm : (y.mantissa : ℝ) ≠ 0 := by exact_mod_cast Dyadic.mantissa_ne_zero hy
  have hu : 0 < (2 : ℝ) ^ (x.exponent - y.exponent) / (y.mantissa : ℝ) ^ 2 := by positivity
  have hvalue : x.toReal / y.toReal =
      (x.mantissa * y.mantissa : Int) * (2 ^ (x.exponent - y.exponent) / (y.mantissa : ℝ) ^ 2) := by
    rw [toReal_eq, toReal_eq, zpow_sub₀ (by norm_num)]
    push_cast
    field_simp
  generalize x.mantissa * y.mantissa = c at *
  have hsign : (c.sign : ℝ) * |(c : ℝ)| = c := by exact_mod_cast Int.sign_mul_abs c
  rw [hvalue, abs_mul, abs_of_pos hu, ← mul_assoc, hsign]

theorem abs_roundedQuotient_sub_le (hy : y ≠ 0) (h : |x.toReal / y.toReal| ≤ 2 ^ 50 - 1) :
    |(roundedQuotient x y : ℝ) - x.toReal / y.toReal| ≤ 9 / 16 + 2 ^ (-16 : Int) := by
  rcases eq_or_ne x 0 with rfl | hx
  · have hmantissa : (0 : Dyadic).mantissa = 0 := rfl
    rw [roundedQuotient, hmantissa, Int.zero_mul, Int.sign_zero, Int.zero_mul, Dyadic.toReal_zero,
      zero_div, Int.cast_zero, sub_zero, abs_zero]
    positivity
  have hround := abs_magnitude_ofQuotient_sub_le hx hy h
  rw [roundedQuotient, div_eq_sign_mul_abs hy]
  generalize magnitude (ofQuotient x.mantissa.natAbs y.mantissa.natAbs (x.exponent - y.exponent)) = v at *
  have hint := abs_nearestInt_sub_le v
  have hclose := abs_sub_le (v.nearestInt : ℝ) v.toReal |x.toReal / y.toReal|
  have hsign : |((x.mantissa * y.mantissa).sign : ℝ)| ≤ 1 := by
    rcases Int.sign_trichotomy (x.mantissa * y.mantissa) with h | h | h <;> rw [h] <;> norm_num
  push_cast
  rw [← mul_sub, abs_mul]
  calc |((x.mantissa * y.mantissa).sign : ℝ)| * |(v.nearestInt : ℝ) - (|x.toReal / y.toReal|)|
      ≤ 1 * |(v.nearestInt : ℝ) - (|x.toReal / y.toReal|)| := by gcongr
    _ ≤ 9 / 16 + 2 ^ (-16 : Int) := by linarith

end Quotient

end Phasor.Binary64
