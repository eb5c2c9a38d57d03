import Mathlib.Algebra.Field.Rat
import Mathlib.Algebra.Order.Ring.Int
import Phasor.Dyadic.Rounding

namespace Dyadic

theorem bitLength_le_iff {n p : Nat} : bitLength n ≤ p ↔ n < 2 ^ p := by
  unfold bitLength
  by_cases h : n = 0
  · rw [if_pos h, h]
    exact iff_of_true (Nat.zero_le p) (Nat.two_pow_pos p)
  · rw [if_neg h, Nat.add_one_le_iff, Nat.log2_lt h]

theorem mantissa_mod_two {x : Dyadic} (h : x ≠ 0) : x.mantissa % 2 = 1 := by
  cases x with
  | zero => exact absurd rfl h
  | ofOdd n k hn => exact hn

theorem toRat_eq_mantissa_mul (x : Dyadic) : x.toRat = x.mantissa * 2 ^ x.exponent := by
  cases x with
  | zero => simp [toRat, mantissa]
  | ofOdd n k hn => exact toRat_ofOdd_eq_mul_two_pow

def Fits (p : Nat) (x : Dyadic) : Prop :=
  bitLength x.mantissa.natAbs ≤ p

theorem fits_zero (p : Nat) : Fits p 0 :=
  Nat.zero_le p

theorem mantissa_neg (x : Dyadic) : (-x).mantissa = -x.mantissa := by
  cases x with
  | zero => rfl
  | ofOdd n k hn => rfl

theorem Fits.neg {p : Nat} {x : Dyadic} (h : x.Fits p) : (-x).Fits p := by
  unfold Fits
  rwa [mantissa_neg, Int.natAbs_neg]

theorem Fits.abs {p : Nat} {x : Dyadic} (h : x.Fits p) : x.abs.Fits p := by
  unfold Dyadic.abs
  split
  · exact h.neg
  · exact h

theorem Fits.shiftLeft {p : Nat} {x : Dyadic} (h : x.Fits p) (k : Int) : (x <<< k).Fits p := by
  cases x with
  | zero => exact h
  | ofOdd n j hn => exact h

theorem Fits.shiftRight {p : Nat} {x : Dyadic} (h : x.Fits p) (k : Int) : (x >>> k).Fits p := by
  cases x with
  | zero => exact h
  | ofOdd n j hn => exact h

theorem mantissa_scaled_dvd (m e : Int) : (scaled m e).mantissa ∣ m := by
  unfold scaled ofIntWithPrec
  split
  · rename_i h
    exact h ▸ Int.dvd_zero _
  · rename_i h
    obtain ⟨c, hc⟩ := Int.two_pow_trailingZeros_dvd h
    have hpow : (2 : Int) ^ m.trailingZeros ≠ 0 := pow_ne_zero _ (by decide)
    have hshift : m >>> m.trailingZeros = c := by
      rw [Int.shiftRight_eq_div_pow]
      push_cast
      exact Int.ediv_eq_of_eq_mul_right hpow hc
    simp only [mantissa, hshift]
    exact ⟨2 ^ m.trailingZeros, hc.trans (Int.mul_comm _ _)⟩

theorem fits_scaled {p : Nat} {m : Int} (hp : 0 < p) (h : m.natAbs ≤ 2 ^ p) (e : Int) : (scaled m e).Fits p := by
  by_cases hz : scaled m e = 0
  · rw [hz]
    exact fits_zero p
  · have hodd := mantissa_mod_two hz
    have hdvd := Int.natAbs_dvd_natAbs.mpr (mantissa_scaled_dvd m e)
    have hm : m ≠ 0 := by
      rintro rfl
      exact hz ofIntWithPrec_zero
    have hle : (scaled m e).mantissa.natAbs ≤ 2 ^ p :=
      (Nat.le_of_dvd (Int.natAbs_pos.mpr hm) hdvd).trans h
    -- a power of two as the mantissa would be even
    have hne : (scaled m e).mantissa.natAbs ≠ 2 ^ p := by
      intro he
      have heven : 2 ∣ (scaled m e).mantissa.natAbs := he ▸ dvd_pow_self 2 hp.ne'
      omega
    exact bitLength_le_iff.mpr (lt_of_le_of_ne hle hne)

theorem natAbs_shiftRound_le (m : Int) (p : Nat) :
    (shiftRound m (bitLength m.natAbs - p)).natAbs ≤ 2 ^ p := by
  have hlt : m.natAbs < 2 ^ bitLength m.natAbs := bitLength_le_iff.mp (Nat.le_refl _)
  rcases hs : bitLength m.natAbs - p with _ | s
  · have hle : bitLength m.natAbs ≤ p := by omega
    exact hlt.le.trans (Nat.pow_le_pow_right (by decide) hle)
  · have hbits : bitLength m.natAbs = s + (p + 1) := by omega
    rw [hbits, Nat.pow_add] at hlt
    have hquot : m.natAbs / 2 ^ s < 2 ^ (p + 1) := Nat.div_lt_of_lt_mul hlt
    have hhalf : (m.natAbs / 2 ^ s + 1) / 2 ≤ 2 ^ p := by
      rw [Nat.pow_succ] at hquot
      omega
    have hsign : m.sign.natAbs ≤ 1 := by
      rw [Int.natAbs_sign]
      split <;> decide
    have hmag : ((m.natAbs >>> s + 1) >>> 1 : Nat) ≤ 2 ^ p := by
      rw [Nat.shiftRight_eq_div_pow, Nat.shiftRight_eq_div_pow]
      exact hhalf
    calc (shiftRound m (s + 1)).natAbs
        = m.sign.natAbs * ((m.natAbs >>> s + 1) >>> 1) := Int.natAbs_mul _ _
      _ ≤ 1 * 2 ^ p := Nat.mul_le_mul hsign hmag
      _ = 2 ^ p := Nat.one_mul _

theorem fits_roundScaled {p : Nat} (hp : 0 < p) (m e : Int) : (roundScaled p m e).Fits p :=
  fits_scaled hp (natAbs_shiftRound_le m p) _

theorem fits_roundTo {p : Nat} (hp : 0 < p) (x : Dyadic) : (x.roundTo p).Fits p :=
  fits_roundScaled hp _ _

theorem fits_roundQuotient {p : Nat} (hp : 0 < p) (n d e : Int) : (roundQuotient p n d e).Fits p :=
  fits_roundScaled hp _ _

theorem fits_addTo {p : Nat} (hp : 0 < p) (x y : Dyadic) : (x.addTo p y).Fits p := by
  unfold addTo
  split
  · exact fits_roundTo hp y
  · split
    · exact fits_roundTo hp x
    · exact fits_roundTo hp _

theorem fits_divTo {p : Nat} (hp : 0 < p) (x y : Dyadic) : (x.divTo p y).Fits p := by
  unfold divTo
  split
  · exact fits_zero p
  · exact fits_roundQuotient hp _ _ _

theorem fits_sqrtTo {p : Nat} (hp : 0 < p) (x : Dyadic) : (x.sqrtTo p).Fits p :=
  fits_roundScaled hp _ _

end Dyadic
